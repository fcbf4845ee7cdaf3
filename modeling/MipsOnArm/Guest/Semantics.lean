import MipsOnArm.Guest.Instr
import MipsOnArm.Guest.Cpu

/-! What guest instructions mean. An operation changes at most one register; a branch is decided on
    the state before its delay slot. -/

namespace MipsOnArm.Guest

/-- The word of a truth value. -/
def truth (b : Bool) : Word := if b then 1 else 0

/-- The value that arithmetic computes from its operands. -/
def AluOp.apply (lhs rhs : Word) : AluOp → Word
  | add => lhs + rhs
  | sub => lhs - rhs
  | and => lhs &&& rhs
  | or => lhs ||| rhs
  | xor => lhs ^^^ rhs
  | nor => ~~~ (lhs ||| rhs)
  | slt => truth (lhs.slt rhs)
  | sltu => truth (lhs.ult rhs)

/-- A value shifted by a constant; `sra` keeps the sign. -/
def ShiftOp.apply (value : Word) (sa : BitVec 5) : ShiftOp → Word
  | sll => value <<< sa.toNat
  | srl => value >>> sa.toNat
  | sra => value.sshiftRight sa.toNat

namespace Operation

/-- The register that an operation names as its destination. -/
def dest? : Operation → Option Reg
  | nop => none
  | alu _ rd _ _ => some rd
  | aluImm _ rt _ _ => some rt
  | shift _ rd _ _ => some rd
  | lui rt _ => some rt

/-- The value that an operation computes. -/
def result (s : Cpu) : Operation → Word
  | nop => 0
  | alu op _ rs rt => op.apply (s.gpr rs) (s.gpr rt)
  | aluImm op _ rs imm => op.apply (s.gpr rs) imm
  | shift op _ rt sa => op.apply (s.gpr rt) sa
  | lui _ imm => imm ++ (0 : BitVec 16)

/-- The state after an operation. -/
def perform (o : Operation) (s : Cpu) : Cpu :=
  match o.dest? with
  | none => s
  | some r => s.setGpr r (o.result s)

end Operation

/-- Whether the comparison of two values comes out as the branch asks. -/
def PairTest.holds (a b : Word) : PairTest → Bool
  | eq => a == b
  | ne => a != b

/-- Whether a signed value compares with zero as the branch asks. -/
def ZeroTest.holds (a : Word) : ZeroTest → Bool
  | lez => a.sle 0
  | gtz => BitVec.slt 0 a
  | ltz => a.slt 0
  | gez => BitVec.sle 0 a

/-- Whether a branch is taken; jumps always are, and a system call never is. -/
def Control.taken (w : InstrWord) (s : Cpu) : Control → Bool
  | branchPair test _ => test.holds (s.gpr w.rs) (s.gpr w.rt)
  | branchZero test _ => test.holds (s.gpr w.rs)
  | branchFpu onTrue _ => s.fpuCond.getLsbD 0 == onTrue
  | branchVfpu onTrue _ => s.vfpuCond.getLsbD w.conditionBit.toNat == onTrue
  | jump _ => true
  | jumpReg _ => true
  | syscall => false

end MipsOnArm.Guest
