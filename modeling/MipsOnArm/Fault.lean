import MipsOnArm.Host.Instr
import MipsOnArm.Guest.Reg

/-! Broken rules of use. A fault says that an operation was asked for something that its caller had
    to rule out first; it is never an ordinary result. -/

namespace MipsOnArm

/-- The direction of an access to the guest state. -/
inductive Access
  | read
  | write
  deriving DecidableEq, Repr, Inhabited

/-- Why an operation could not go on. -/
inductive Fault
  /-- A write to guest memory that does not fit into the window. -/
  | outsideWindow (addr base : Word) (size : Nat)
  /-- An access between two guest registers. -/
  | unaligned (access : Access) (offset : Nat)
  /-- An access where the guest state has no field. -/
  | noField (access : Access) (offset : Nat)
  /-- Every host register that may be used is pinned. -/
  | registersExhausted (budget : Nat)
  /-- A guest register was expected in a host register. -/
  | notMapped (reg : Guest.Reg)
  /-- A forward branch got its target twice. -/
  | boundTwice (index : Nat)
  /-- A forward branch was to be completed where another instruction stands. -/
  | notABranch (index : Nat) (found : Host.Instr)
  /-- A forward branch was to be completed behind the end of the code. -/
  | noSuchInstr (size index : Nat)
  /-- Code was taken while a branch had no target. -/
  | unboundBranch (code : List Host.Instr)
  /-- An exit was written while guest registers were in host registers. -/
  | exitWhileMapped (count : Nat)
  /-- A block ended while guest registers were in host registers. -/
  | endWhileMapped (count : Nat)
  /-- A delay slot was opened inside a delay slot. -/
  | slotOpenedTwice (pc : Word)
  /-- A delay slot was closed that was not open. -/
  | slotNotOpen
  /-- A block ended inside a delay slot. -/
  | endInSlot
  /-- The flags were saved twice. -/
  | flagsSavedTwice
  /-- A delay slot was closed while the flags were saved. -/
  | flagsLeftSaved
  /-- The count of guest instructions left its range. -/
  | countOverflow
  /-- An entry point for one family of control instructions was given another word. -/
  | wrongFamily (entryPoint : String) (word : Word)
  /-- A block was not in the table right after it was put there. -/
  | missingBlock (entry : Word)
  /-- Execution ran past the last instruction. -/
  | fellOffEnd (entry : Word) (index : Nat)
  /-- Execution met a branch without a target. -/
  | untargetedBranch (index : Nat)
  /-- Execution did not end within its limit. -/
  | stepLimit
  deriving DecidableEq, Repr, Inhabited

/-- Text of a comparison of a count with zero that came out false. -/
def Fault.notZeroText (what : String) (count : Nat) : String :=
  s!"assertion `left == right` failed: {what}\n  left: {count}\n right: 0"

/-- The text that reports a fault. -/
def Fault.message : Fault → String
  | outsideWindow addr base size =>
    s!"FlatMemory write out of bounds: addr={Text.hexAddress addr.toNat} " ++
      s!"base={Text.hexAddress base.toNat} size={size}"
  | unaligned .read offset => s!"unaligned context read at {Text.hex offset}"
  | unaligned .write offset => s!"unaligned context write at {Text.hex offset}"
  | noField .read offset => s!"context read out of bounds: offset={Text.hex offset}"
  | noField .write offset => s!"context write out of bounds: offset={Text.hex offset}"
  | registersExhausted budget =>
    s!"register cache exhausted: all {budget} host registers are spill-locked"
  | notMapped reg => s!"guest register {reg.name} used without being mapped"
  | boundTwice i => s!"fixup at @{i} bound twice"
  | notABranch i found => s!"fixup at @{i} does not point at a branch: {found.text}"
  | noSuchInstr size i => s!"index out of bounds: the len is {size} but the index is {i}"
  | unboundBranch code => "code taken with an unbound fixup:\n" ++ Host.Instr.listing code
  | exitWhileMapped count => notZeroText "exit with live register mappings" count
  | endWhileMapped count => notZeroText "block ended with live register mappings" count
  | slotOpenedTwice pc => s!"delay slot entered twice at {Text.hexAddress pc.toNat}"
  | slotNotOpen => "assertion failed: self.in_delay_slot"
  | endInSlot => "assertion failed: !self.js.in_delay_slot()"
  | flagsSavedTwice => "host flags saved twice"
  | flagsLeftSaved => "delay slot closed with flags still saved"
  | countOverflow => "attempt to add with overflow"
  | wrongFamily entryPoint word =>
    s!"{entryPoint}: opcode {Text.hexWord word.toNat} is not handled by this entry point"
  | missingBlock entry =>
    "internal error: entered unreachable code: " ++
      s!"block {Text.hexAddress entry.toNat} missing right after insertion"
  | fellOffEnd entry i =>
    s!"block {Text.hexAddress entry.toNat} fell off the end of its code at @{i}"
  | untargetedBranch i => s!"unpatched branch at @{i}"
  | stepLimit => "execution did not end within its step limit"

end MipsOnArm
