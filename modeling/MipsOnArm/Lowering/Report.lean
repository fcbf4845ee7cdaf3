import MipsOnArm.Comparison

/-! What the compiler tells the outside: why a guest instruction is refused, and the events of a
    lowering in the order in which they happen. -/

namespace MipsOnArm

/-- Why a guest instruction is not lowered. -/
inductive Refusal
  /-- A branch or jump stands in the delay slot of another one. -/
  | branchInDelaySlot (pc : Word)
  /-- The word is not a supported instruction. -/
  | unsupported (pc word : Word)
  deriving DecidableEq, Repr, Inhabited

/-- The text that reports a refusal. -/
def Refusal.message : Refusal → String
  | branchInDelaySlot pc => s!"branch in delay slot at {Text.hexAddress pc.toNat}"
  | unsupported pc word =>
    s!"unsupported opcode {Text.hexAddress word.toNat} at {Text.hexAddress pc.toNat}"

/-- Whether an instruction was lowered, or why not. -/
abbrev Verdict := Except Refusal Unit

/-- How important an event is. -/
inductive Level
  | trace
  | debug
  | error
  deriving DecidableEq, Repr, Inhabited

/-- Something that happened during a lowering. -/
inductive Event
  /-- The delay slot of a conditional branch was looked at; it is nice if it leaves the compared
      values alone. -/
  | slotInspected (pc : Word) (slot : Guest.InstrWord) (nice : Bool) (comparison : Comparison)
  /-- A register jump was met; it is nice if its delay slot leaves the register alone. -/
  | registerJump (pc : Word) (rs : Guest.Reg) (nice : Bool)
  | branchRefused (pc : Word)
  | wordRefused (pc word : Word)
  | blockFinished (entry : Word) (count hostCount exitCount : Nat)
  deriving DecidableEq, Repr, Inhabited

namespace Event

/-- Importance of the event. -/
def level : Event → Level
  | slotInspected .. => .trace
  | registerJump .. => .trace
  | branchRefused .. => .error
  | wordRefused .. => .debug
  | blockFinished .. => .debug

/-- Text of the event, without its fields. -/
def message : Event → String
  | slotInspected _ slot _ _ => s!"delay slot {Text.hexWord slot.bits.toNat}"
  | registerJump _ rs _ => s!"jump register {rs.name}"
  | branchRefused pc => (Refusal.branchInDelaySlot pc).message
  | wordRefused pc word =>
    s!"unsupported opcode {Text.hexWord word.toNat} at {Text.hexAddress pc.toNat}"
  | blockFinished .. => "compiled block"

end Event

end MipsOnArm
