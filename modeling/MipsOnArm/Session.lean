import MipsOnArm.BlockTable
import MipsOnArm.Lowering.WholeBlock

/-! A running guest. Each step runs the block at the guest's program counter, which is lowered
    first unless it is in the table. A step whose block cannot be lowered leaves the guest and the
    table alone. -/

namespace MipsOnArm

/-- The compiler with its table of blocks, the guest state, the environment of system calls and
    the native calls made so far. -/
structure Session (σ : Type) where
  compiler : Compiler
  table : BlockTable
  cpu : Guest.Cpu
  env : σ
  calls : List Call

/-- What a step did. -/
structure Step where
  /-- Start of the block that ran. -/
  entry : Word
  /-- Address at which the guest continues. -/
  next : Word
  departure : Departure
  /-- Guest instructions in the block. -/
  count : Nat
  /-- Whether the block was lowered for this step. -/
  lowered : Bool
  /-- Whether the exit taken is linked to a block in the table. -/
  linked : Bool
  deriving DecidableEq, Repr, Inhabited

namespace Session

variable {σ : Type}

/-- A session that has lowered nothing. -/
def start (options : Options) (cpu : Guest.Cpu) (env : σ) : Session σ :=
  ⟨.fresh options, .empty, cpu, env, []⟩

/-- Whether a departure goes through an exit that is linked. -/
def isLinked (table : BlockTable) (entry : Word) : Departure → Bool
  | .linked _ slot => (table.linked? entry slot).isSome
  | _ => false

/-- Runs a block of the table on the guest. -/
def runBlock (handler : Handler σ) (s : Session σ) (b : Block) (lowered : Bool) :
    Except Fault (Session σ × Step) := do
  let entry := s.cpu.pc
  let done ← b.execute handler s.cpu s.env
  let step : Step :=
    { entry := entry
      next := done.cpu.pc
      departure := done.departure
      count := b.count
      lowered := lowered
      linked := isLinked s.table entry done.departure }
  return ({ s with cpu := done.cpu, env := done.env, calls := s.calls ++ done.calls }, step)

/-- Lowers the block at an address and puts it into the table. -/
def preload (fetch : Word → Word) (s : Session σ) (entry : Word) :
    Except Fault (Session σ × Except Refusal Block) := do
  let (result, compiler) ← (Lowering.lowerBlock fetch entry).run s.compiler
  let s := { s with compiler := compiler }
  match result with
  | .error refusal => return (s, .error refusal)
  | .ok b => return ({ s with table := s.table.insert b }, .ok b)

/-- Lowers the block at the program counter unless it is in the table, and tells whether it did. -/
def prepare (fetch : Word → Word) (s : Session σ) :
    Except Fault (Session σ × Except Refusal Bool) := do
  if s.table.contains s.cpu.pc then return (s, .ok false)
  else
    let (s, result) ← s.preload fetch s.cpu.pc
    return (s, result.map fun _ => true)

/-- Runs the block at the program counter. It is looked up in the table, also if it was lowered for
    this step. -/
def step (fetch : Word → Word) (handler : Handler σ) (s : Session σ) :
    Except Fault (Session σ × Except Refusal Step) := do
  match ← s.prepare fetch with
  | (s, .error refusal) => return (s, .error refusal)
  | (s, .ok lowered) =>
    match s.table.get? s.cpu.pc with
    | none => throw (.missingBlock s.cpu.pc)
    | some b =>
      let (s, step) ← s.runBlock handler b lowered
      return (s, .ok step)

/-- Runs further steps after `done`, the latest of which comes first. -/
def runFrom (fetch : Word → Word) (handler : Handler σ) (stop : Step → Bool)
    (done : List Step) : (limit : Nat) → Session σ →
      Except Fault (Session σ × Except Refusal (List Step))
  | 0, s => .ok (s, .ok done.reverse)
  | limit + 1, s =>
    match s.step fetch handler with
    | .error fault => .error fault
    | .ok (s, .error refusal) => .ok (s, .error refusal)
    | .ok (s, .ok step) =>
      if stop step then .ok (s, .ok (step :: done).reverse)
      else runFrom fetch handler stop (step :: done) limit s

/-- Runs at most `limit` steps, up to the first one at which `stop` holds. A refusal ends the run;
    the steps before it keep their effect. -/
def run (fetch : Word → Word) (handler : Handler σ) (stop : Step → Bool) (limit : Nat)
    (s : Session σ) : Except Fault (Session σ × Except Refusal (List Step)) :=
  s.runFrom fetch handler stop [] limit

end Session

end MipsOnArm
