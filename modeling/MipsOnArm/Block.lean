import MipsOnArm.Host.Machine

/-! A lowered block: host code for a run of guest instructions, with a description of each exit
    that has a fixed target. -/

namespace MipsOnArm

/-- An exit with a fixed target. -/
structure Exit where
  /-- Guest address at which the exit continues. -/
  target : Word
  /-- 0 for the taken or only way on, 1 for the way past a branch that is not taken. -/
  slot : ExitSlot
  /-- Index of the exit instruction in the code. -/
  index : Nat
  deriving DecidableEq, Repr, Inhabited

/-- Host code for the guest instructions from `entry` on. -/
structure Block where
  entry : Word
  /-- Number of guest instructions lowered, delay slot included. -/
  count : Nat
  code : Array Host.Instr
  exits : List Exit
  deriving DecidableEq, Repr, Inhabited

namespace Block

/-- The first exit with the given slot. -/
def exit? (b : Block) (slot : ExitSlot) : Option Exit :=
  b.exits.find? (·.slot = slot)

/-- Listing of the block under a line that describes it. -/
def text (b : Block) : String :=
  s!"block {Text.hexAddress b.entry.toNat} ({b.count} guest insts, {b.exits.length} exits)\n"
    ++ Host.Instr.listing b.code.toList

/-- Most host instructions that one execution may take. Without backward branches the length of the
    code is enough; the rest only stops endless loops. -/
def stepLimit (b : Block) : Nat := b.code.size + 0x4000000000000000

/-- Runs the block from a given machine state. Afterwards the guest's program counter is the address
    at which execution continues. -/
def executeFrom {σ : Type} (b : Block) (handler : Handler σ) (residue : Host.Residue)
    (m : Host.Machine σ) : Except Fault (Execution σ) := do
  let (m, departure) ← Host.Machine.run handler residue b.entry b.code b.stepLimit 0 m
  return departure.execution m.cpu m.env m.calls

/-- Runs the block on a guest state, with a fresh host. -/
def execute {σ : Type} (b : Block) (handler : Handler σ) (cpu : Guest.Cpu) (env : σ) :
    Except Fault (Execution σ) :=
  b.executeFrom handler Host.Residue.standard (Host.Machine.start cpu env)

end Block

end MipsOnArm
