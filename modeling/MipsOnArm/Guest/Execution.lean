import MipsOnArm.Departure
import MipsOnArm.Guest.Semantics

/-! The guest's own execution of a block: instructions one by one, up to the first control
    instruction with its delay slot or up to a limit. This is what a lowered block has to agree
    with. A return address is written after an ordinary delay slot, but before a system call in the
    slot. -/

namespace MipsOnArm.Guest

variable {σ : Type}

/-- Leaves the block through a native call made for the word `w`, with the guest resuming at
    `resume` unless the handler says otherwise. -/
def callNative (handler : Handler σ) (w : InstrWord) (resume : Word) (s : Cpu) (env : σ) :
    Execution σ :=
  let s := s.set .pc resume
  let (after, env) := handler w.bits s env
  (Departure.syscall after.pc).execution after env [⟨w.bits, s⟩]

/-- Writes the return address of the jump at `pc`, if one is wanted. -/
def writeLink (link : Option Reg) (pc : Word) (s : Cpu) : Cpu :=
  match link with
  | some r => s.setGpr r (pc + delaySlotSkip)
  | none => s

/-- Runs the delay slot of the instruction at `pc`, whose way on is `departure`. There is no
    execution if the slot holds another branch or jump, or an unsupported word. -/
def runSlot (fetch : Word → Word) (handler : Handler σ) (pc : Word) (link : Option Reg)
    (departure : Departure) (s : Cpu) (env : σ) : Option (Execution σ) :=
  let w : InstrWord := ⟨fetch (pc + instrBytes)⟩
  match Instr.decode w with
  | some (.operation o) => some (departure.execution (writeLink link pc (o.perform s)) env [])
  | some (.control .syscall) =>
    some (callNative handler w departure.address (writeLink link pc s) env)
  | _ => none

/-- Runs a conditional branch at `pc`, decided on the state before its slot. -/
def runBranch (fetch : Word → Word) (handler : Handler σ) (pc : Word) (w : InstrWord)
    (taken likely : Bool) (s : Cpu) (env : σ) : Option (Execution σ) :=
  let past : Departure := .linked (pc + delaySlotSkip) 1
  if taken then runSlot fetch handler pc none (.linked (w.branchTarget pc) 0) s env
  else if likely then some (past.execution s env [])
  else runSlot fetch handler pc none past s env

/-- Runs the control instruction `c` that stands at `pc`. -/
def runControl (fetch : Word → Word) (handler : Handler σ) (pc : Word) (w : InstrWord)
    (c : Control) (s : Cpu) (env : σ) : Option (Execution σ) :=
  match c with
  | .syscall => some (callNative handler w (pc + instrBytes) s env)
  | .jump link =>
    runSlot fetch handler pc (if link then some Reg.ra else none) (.linked (w.jumpTarget pc) 0) s
      env
  | .jumpReg link =>
    runSlot fetch handler pc (if link then some w.rd else none) (.indirect (s.gpr w.rs)) s env
  | .branchPair _ likely => runBranch fetch handler pc w (c.taken w s) likely s env
  | .branchZero _ likely => runBranch fetch handler pc w (c.taken w s) likely s env
  | .branchFpu _ likely => runBranch fetch handler pc w (c.taken w s) likely s env
  | .branchVfpu _ likely => runBranch fetch handler pc w (c.taken w s) likely s env

/-- Runs instructions from `pc` on until control is handed back, or until `limit` of them have run.
    There is no execution if an unsupported word is met. -/
def runBlock (fetch : Word → Word) (handler : Handler σ) :
    (limit : Nat) → (pc : Word) → Cpu → σ → Option (Execution σ)
  | 0, pc, s, env => some ((Departure.linked pc 0).execution s env [])
  | limit + 1, pc, s, env =>
    let w : InstrWord := ⟨fetch pc⟩
    match Instr.decode w with
    | some (.operation o) => runBlock fetch handler limit (pc + instrBytes) (o.perform s) env
    | some (.control c) => runControl fetch handler pc w c s env
    | none => none

end MipsOnArm.Guest
