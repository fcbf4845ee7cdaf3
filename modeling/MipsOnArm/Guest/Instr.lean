import MipsOnArm.Guest.InstrWord

/-! The guest instructions that can be lowered: control instructions, which end a block, and
    straight-line integer operations. `Control.decode` and `Instr.decode` read them off a word;
    every other word is unsupported. `InstrWord.written?` classifies more words than can be lowered,
    since a delay slot is inspected before it is decoded. -/

namespace MipsOnArm.Guest

/-- Comparison of two registers. -/
inductive PairTest
  | eq
  | ne
  deriving DecidableEq, Repr, Inhabited

/-- Signed comparison of a register with zero. -/
inductive ZeroTest
  | lez
  | gtz
  | ltz
  | gez
  deriving DecidableEq, Repr, Inhabited

/-- An instruction that may leave the straight line. A likely branch skips its delay slot when it
    is not taken. -/
inductive Control
  | branchPair (test : PairTest) (likely : Bool)
  | branchZero (test : ZeroTest) (likely : Bool)
  /-- Taken when the floating-point condition has the given value. -/
  | branchFpu (onTrue likely : Bool)
  /-- Taken when the selected vector condition has the given value. -/
  | branchVfpu (onTrue likely : Bool)
  | jump (link : Bool)
  | jumpReg (link : Bool)
  | syscall
  deriving DecidableEq, Repr, Inhabited

inductive AluOp
  | add
  | sub
  | and
  | or
  | xor
  | nor
  | slt
  | sltu
  deriving DecidableEq, Repr, Inhabited

inductive ShiftOp
  | sll
  | srl
  | sra
  deriving DecidableEq, Repr, Inhabited

/-- An instruction that only changes one register. -/
inductive Operation
  | nop
  | alu (op : AluOp) (rd rs rt : Reg)
  /-- The immediate is already extended as the instruction asks. -/
  | aluImm (op : AluOp) (rt rs : Reg) (imm : Word)
  | shift (op : ShiftOp) (rd rt : Reg) (sa : BitVec 5)
  | lui (rt : Reg) (imm : BitVec 16)
  deriving DecidableEq, Repr, Inhabited

inductive Instr
  | control (c : Control)
  | operation (o : Operation)
  deriving DecidableEq, Repr, Inhabited

namespace Control

/-- Assembler name of the instruction. -/
def mnemonic : Control → String
  | branchPair .eq likely => if likely then "beql" else "beq"
  | branchPair .ne likely => if likely then "bnel" else "bne"
  | branchZero .lez likely => if likely then "blezl" else "blez"
  | branchZero .gtz likely => if likely then "bgtzl" else "bgtz"
  | branchZero .ltz likely => if likely then "bltzl" else "bltz"
  | branchZero .gez likely => if likely then "bgezl" else "bgez"
  | branchFpu onTrue likely => (if onTrue then "bc1t" else "bc1f") ++ if likely then "l" else ""
  | branchVfpu onTrue likely => (if onTrue then "bvt" else "bvf") ++ if likely then "l" else ""
  | jump link => if link then "jal" else "j"
  | jumpReg link => if link then "jalr" else "jr"
  | syscall => "syscall"

/-- Every control instruction but a system call is followed by a delay slot. -/
def hasDelaySlot : Control → Bool
  | syscall => false
  | _ => true

/-- Register form: jumps through a register and the system call. -/
def decodeSpecial (w : InstrWord) : Option Control :=
  match w.funct.toNat with
  | 8 => some (jumpReg false)
  | 9 => some (jumpReg true)
  | 12 => some syscall
  | _ => none

/-- Sign branches, told apart by the `rt` field. -/
def decodeSignBranch (w : InstrWord) : Option Control :=
  match w.rtField.toNat with
  | 0 => some (branchZero .ltz false)
  | 1 => some (branchZero .gez false)
  | 2 => some (branchZero .ltz true)
  | 3 => some (branchZero .gez true)
  | _ => none

/-- Floating-point branches: `rs` must name the branch group and `rt` one of its four forms. -/
def decodeFpuBranch (w : InstrWord) : Option Control :=
  if w.rsField = 8 ∧ w.rtField.toNat ≤ 3 then
    some (branchFpu (w.rtField.getLsbD 0) (w.rtField.getLsbD 1))
  else none

/-- Vector branches: the upper bits of `rt` select the condition, so any value names a form. -/
def decodeVfpuBranch (w : InstrWord) : Option Control :=
  if w.rsField = 8 then
    some (branchVfpu (w.rtField.getLsbD 0) (w.rtField.getLsbD 1))
  else none

/-- The control instruction that a word holds, if it holds one. -/
def decode (w : InstrWord) : Option Control :=
  match w.primary.toNat with
  | 0 => decodeSpecial w
  | 1 => decodeSignBranch w
  | 2 => some (jump false)
  | 3 => some (jump true)
  | 4 => some (branchPair .eq false)
  | 5 => some (branchPair .ne false)
  | 6 => some (branchZero .lez false)
  | 7 => some (branchZero .gtz false)
  | 17 => decodeFpuBranch w
  | 18 => decodeVfpuBranch w
  | 20 => some (branchPair .eq true)
  | 21 => some (branchPair .ne true)
  | 22 => some (branchZero .lez true)
  | 23 => some (branchZero .gtz true)
  | _ => none

end Control

namespace Operation

/-- Register form: shifts by a constant and three-register arithmetic. Trapping and non-trapping
    addition and subtraction are the same operation. -/
def decodeSpecial (w : InstrWord) : Option Operation :=
  let alu3 (op : AluOp) := some (alu op w.rd w.rs w.rt)
  let shiftBy (op : ShiftOp) := some (shift op w.rd w.rt w.sa)
  match w.funct.toNat with
  | 0 => shiftBy .sll
  | 2 => shiftBy .srl
  | 3 => shiftBy .sra
  | 32 => alu3 .add
  | 33 => alu3 .add
  | 34 => alu3 .sub
  | 35 => alu3 .sub
  | 36 => alu3 .and
  | 37 => alu3 .or
  | 38 => alu3 .xor
  | 39 => alu3 .nor
  | 42 => alu3 .slt
  | 43 => alu3 .sltu
  | _ => none

/-- The straight-line operation that a word holds, if it holds one. Arithmetic and both
    comparisons extend the sign of the immediate, logic extends with zeros. -/
def decode (w : InstrWord) : Option Operation :=
  let withImm (op : AluOp) (imm : Word) := some (aluImm op w.rt w.rs imm)
  if w.bits = 0 then some nop
  else match w.primary.toNat with
  | 0 => decodeSpecial w
  | 8 => withImm .add w.immSigned
  | 9 => withImm .add w.immSigned
  | 10 => withImm .slt w.immSigned
  | 11 => withImm .sltu w.immSigned
  | 12 => withImm .and w.immUnsigned
  | 13 => withImm .or w.immUnsigned
  | 14 => withImm .xor w.immUnsigned
  | 15 => some (lui w.rt w.imm)
  | _ => none

end Operation

/-- The instruction that a word holds; `none` if it cannot be lowered. -/
def Instr.decode (w : InstrWord) : Option Instr :=
  match Control.decode w with
  | some c => some (.control c)
  | none => (Operation.decode w).map .operation

namespace InstrWord

/-- Register field that a word of the register form writes. -/
def specialDest (w : InstrWord) : Option Reg :=
  let f := w.funct.toNat
  if f ∈ [0, 2, 3, 9, 16, 18] ∨ (4 ≤ f ∧ f ≤ 7) ∨ f = 10 ∨ f = 11 ∨ (32 ≤ f ∧ f ≤ 43) then
    some w.rd
  else none

/-- Register field that a word writes, register 0 included. -/
def destField (w : InstrWord) : Option Reg :=
  let p := w.primary.toNat
  if p = 0 then w.specialDest
  else if p = 3 then some Reg.ra
  else if (8 ≤ p ∧ p ≤ 15) ∨ (32 ≤ p ∧ p ≤ 38) then some w.rt
  else none

/-- The guest register that a word changes, if any. Loads and moves from the multiplier count,
    though they are not lowered. -/
def written? (w : InstrWord) : Option Reg :=
  w.destField.filter (· ≠ Reg.zero)

/-- Single-precision comparisons, which write the floating-point condition. -/
def changesFpuCond (w : InstrWord) : Bool :=
  w.primary = 17 && w.rsField = 16 && 48 ≤ w.funct.toNat

/-- The vector group that updates the vector condition word. -/
def changesVfpuCond (w : InstrWord) : Bool :=
  w.primary = 27

end InstrWord

end MipsOnArm.Guest
