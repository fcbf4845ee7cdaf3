import MipsOnArm.Emit
import MipsOnArm.Guest.Instr

/-! How a conditional branch gets the flags that it tests, and whether its delay slot leaves the
    compared values alone. Every comparison is written so that one host condition, the same for all
    operands, says that the branch is not taken. -/

namespace MipsOnArm

/-- What a conditional branch compares. -/
inductive Comparison
  /-- Two registers. -/
  | pair (rs rt : Guest.Reg)
  /-- A register with zero. -/
  | zero (rs : Guest.Reg)
  /-- Bit 0 of the floating-point condition. -/
  | fpu
  /-- One bit of the vector conditions. -/
  | vfpu (bit : BitVec 3)
  deriving DecidableEq, Repr, Inhabited

/-- A conditional branch as it is lowered: what it compares, the host condition under which it is
    not taken, and whether it skips its delay slot then. -/
structure Branch where
  comparison : Comparison
  notTaken : Host.Cond
  likely : Bool
  deriving DecidableEq, Repr, Inhabited

namespace Comparison

/-- Compares a register with zero. -/
def emitZero (r : Guest.Reg) : Emit Unit := do
  let lhs ← Emit.map r .read
  Emit.write [.cmp lhs (.imm 0)]

/-- Compares two registers. -/
def emitPair (rs rt : Guest.Reg) : Emit Unit := do
  let (lhs, rhs) ← Emit.withPinned [rs, rt] do
    let lhs ← Emit.map rs .read
    let rhs ← Emit.map rt .read
    return (lhs, rhs)
  Emit.write [.cmp lhs (.reg rhs)]

/-- Tests one bit of a condition word, which has to be read from the guest state. -/
def emitBit (field : Guest.Field) (bit : Nat) : Emit Unit := do
  Emit.flushAll
  Emit.write [.load Host.Reg.scratch field.offset, .tst Host.Reg.scratch (.imm (1 <<< bit))]

/-- Host code that sets the flags for a condition. Register 0 on the left changes places with the
    register on the right if the condition is the same both ways. -/
def emit (cond : Host.Cond) : Comparison → Emit Unit
  | pair rs rt =>
    if rt = Guest.Reg.zero then emitZero rs
    else if rs = Guest.Reg.zero ∧ (cond = .eq ∨ cond = .ne) then emitZero rt
    else emitPair rs rt
  | zero rs => emitZero rs
  | fpu => emitBit .fpuCond 0
  | vfpu bit => emitBit .vfpuCond bit.toNat

/-- Whether a delay slot leaves the compared values alone. -/
def survives (slot : Guest.InstrWord) : Comparison → Bool
  | pair rs rt => slot.written? ≠ some rs && slot.written? ≠ some rt
  | zero rs => slot.written? ≠ some rs
  | fpu => !slot.changesFpuCond
  | vfpu _ => !slot.changesVfpuCond

/-- Description of the comparison in events. -/
def text : Comparison → String
  | pair rs rt =>
    "RsRt \x7b rs: " ++ rs.name.capitalize ++ ", rt: " ++ rt.name.capitalize ++ " \x7d"
  | zero rs => "Zero \x7b rs: " ++ rs.name.capitalize ++ " \x7d"
  | fpu => "FpuCond"
  | vfpu bit => "VfpuCc \x7b bit: " ++ toString bit.toNat ++ " \x7d"

end Comparison

namespace Guest

/-- The host condition that says that a comparison of two registers fails. -/
def PairTest.fails : PairTest → Host.Cond
  | eq => .ne
  | ne => .eq

/-- The host condition that says that a comparison with zero fails. -/
def ZeroTest.fails : ZeroTest → Host.Cond
  | lez => .gt
  | gtz => .le
  | ltz => .ge
  | gez => .lt

/-- The host condition that says that a tested bit differs from `onTrue`. -/
def bitDiffers (onTrue : Bool) : Host.Cond :=
  if onTrue then .eq else .ne

end Guest

end MipsOnArm
