import MipsOnArm.Guest.Cpu

/-! How a stretch of guest code hands control back, and what it shows to the outside on the way:
    native system calls, in order, each with the guest state at the call. -/

namespace MipsOnArm

/-- How a block was left. -/
inductive Departure
  /-- Through a numbered exit with a fixed target. -/
  | linked (target : Word) (slot : ExitSlot)
  /-- To an address held in a register. -/
  | indirect (target : Word)
  /-- After a system call, to the address in the guest state. -/
  | syscall (resume : Word)
  deriving DecidableEq, Repr, Inhabited

/-- The guest address at which execution continues. -/
def Departure.address : Departure → Word
  | linked target _ => target
  | indirect target => target
  | syscall resume => resume

/-- A native system call: the guest instruction word and the guest state at the call. -/
structure Call where
  word : Word
  cpu : Guest.Cpu
  deriving DecidableEq, Repr, Inhabited

/-- The native side of system calls, with an environment of its own. -/
abbrev Handler (σ : Type) := Word → Guest.Cpu → σ → Guest.Cpu × σ

/-- What remains after a block has run: how it was left, the guest state, the environment, and the
    native calls in order. -/
structure Execution (σ : Type) where
  departure : Departure
  cpu : Guest.Cpu
  env : σ
  calls : List Call

/-- A block was left with the given state; the program counter follows the departure. -/
def Departure.execution {σ : Type} (d : Departure) (cpu : Guest.Cpu) (env : σ) (calls : List Call) :
    Execution σ :=
  ⟨d, cpu.set .pc d.address, env, calls⟩

end MipsOnArm
