import MipsOnArm.Emit
import MipsOnArm.Guest.Semantics

/-! Host code for straight-line operations. Every source is brought into a host register before the
    destination is chosen, and the sources are read before the destination is complete, so the three
    may coincide. An operation whose destination is register 0 needs no code. -/

namespace MipsOnArm

/-- Sets `dst` to one if the comparison holds and to zero otherwise. This changes the flags. -/
def compareInto (cond : Host.Cond) (dst lhs : Host.Reg) (rhs : Host.Operand) : List Host.Instr :=
  [.cmp lhs rhs, .movImm dst 0, .movIf cond dst 1]

namespace Guest

/-- Host code that leaves the value of an arithmetic operation in `dst`. -/
def AluOp.code (dst lhs : Host.Reg) (rhs : Host.Operand) : AluOp → List Host.Instr
  | add => [.alu .add dst lhs rhs]
  | sub => [.alu .sub dst lhs rhs]
  | and => [.alu .and dst lhs rhs]
  | or => [.alu .orr dst lhs rhs]
  | xor => [.alu .eor dst lhs rhs]
  | nor => [.alu .orr dst lhs rhs, .mvn dst dst]
  | slt => compareInto .lt dst lhs rhs
  | sltu => compareInto .lo dst lhs rhs

/-- The host operation of a shift by a constant. -/
def ShiftOp.host : ShiftOp → Host.AluOp
  | sll => .lsl
  | srl => .lsr
  | sra => .asr

/-- Loads a constant into the host register of a guest register. -/
def emitConst (r : Reg) (value : Word) : Emit Unit := do
  let dst ← Emit.map r .write
  Emit.write [.movImm dst value]

/-- Arithmetic on two registers. -/
def emitArith (op : AluOp) (rd rs rt : Reg) : Emit Unit := do
  let (lhs, rhs, dst) ← Emit.withPinned [rd, rs, rt] do
    let lhs ← Emit.map rs .read
    let rhs ← Emit.map rt .read
    let dst ← Emit.map rd .write
    return (lhs, rhs, dst)
  Emit.write (op.code dst lhs (.reg rhs))

/-- Arithmetic on a register and an immediate; with register 0 the result is known beforehand. -/
def emitArithImm (op : AluOp) (rt rs : Reg) (imm : Word) : Emit Unit :=
  if rs = Reg.zero then emitConst rt (op.apply 0 imm)
  else do
    let (lhs, dst) ← Emit.withPinned [rt, rs] do
      let lhs ← Emit.map rs .read
      let dst ← Emit.map rt .write
      return (lhs, dst)
    Emit.write (op.code dst lhs (.imm imm))

/-- A shift by a constant. -/
def emitShift (op : ShiftOp) (rd rt : Reg) (sa : BitVec 5) : Emit Unit := do
  let (src, dst) ← Emit.withPinned [rd, rt] do
    let src ← Emit.map rt .read
    let dst ← Emit.map rd .write
    return (src, dst)
  Emit.write [.alu op.host dst src (.imm (sa.zeroExtend 32))]

/-- Host code for an operation whose destination can be written. -/
def Operation.emitEffect : Operation → Emit Unit
  | nop => return ()
  | alu op rd rs rt => emitArith op rd rs rt
  | aluImm op rt rs imm => emitArithImm op rt rs imm
  | shift op rd rt sa => emitShift op rd rt sa
  | lui rt imm => emitConst rt (imm ++ (0 : BitVec 16))

/-- Host code for an operation. -/
def Operation.emit (o : Operation) : Emit Unit :=
  if o.dest? = some Reg.zero then return () else o.emitEffect

end Guest

end MipsOnArm
