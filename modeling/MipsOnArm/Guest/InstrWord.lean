import MipsOnArm.Word
import MipsOnArm.Guest.Reg

/-! The bit fields of a guest instruction word, and the addresses that branches and jumps compute
    from them.

        31    26 25   21 20   16 15   11 10    6 5      0
        primary |  rs   |  rt   |  rd   |  sa   | funct      register form
        primary |  rs   |  rt   |       immediate            immediate form
        primary |              index                         jump form
    -/

namespace MipsOnArm.Guest

/-- One instruction as it stands in guest memory. -/
structure InstrWord where
  bits : Word
  deriving DecidableEq, Repr, Inhabited

namespace InstrWord

/-- The six bits that select the instruction group. -/
def primary (w : InstrWord) : BitVec 6 := w.bits.extractLsb' 26 6

/-- Bits 25 to 21. -/
def rsField (w : InstrWord) : BitVec 5 := w.bits.extractLsb' 21 5

/-- Bits 20 to 16. -/
def rtField (w : InstrWord) : BitVec 5 := w.bits.extractLsb' 16 5

/-- Bits 15 to 11, a register number or the size of a bit field. -/
def rdField (w : InstrWord) : BitVec 5 := w.bits.extractLsb' 11 5

/-- Shift amount, bits 10 to 6. -/
def sa (w : InstrWord) : BitVec 5 := w.bits.extractLsb' 6 5

/-- Bits 5 to 0, which select within the register form. -/
def funct (w : InstrWord) : BitVec 6 := w.bits.extractLsb' 0 6

/-- The sixteen-bit immediate. -/
def imm (w : InstrWord) : BitVec 16 := w.bits.extractLsb' 0 16

/-- The twenty-six-bit index of an absolute jump. -/
def index (w : InstrWord) : BitVec 26 := w.bits.extractLsb' 0 26

/-- Which bit of the vector condition word a vector branch tests, bits 20 to 18. -/
def conditionBit (w : InstrWord) : BitVec 3 := w.bits.extractLsb' 18 3

/-- First source register. -/
def rs (w : InstrWord) : Reg := w.rsField.toFin

/-- Second source register, or the destination of the immediate form. -/
def rt (w : InstrWord) : Reg := w.rtField.toFin

/-- Destination register of the register form. -/
def rd (w : InstrWord) : Reg := w.rdField.toFin

/-- The immediate, zero-extended to a word. -/
def immUnsigned (w : InstrWord) : Word := w.imm.zeroExtend 32

/-- The immediate, sign-extended to a word. -/
def immSigned (w : InstrWord) : Word := w.imm.signExtend 32

/-- Where a taken branch at `pc` continues: four times the signed immediate past `pc + 4`. -/
def branchTarget (w : InstrWord) (pc : Word) : Word :=
  pc + instrBytes + (w.immSigned <<< 2)

/-- Where an absolute jump at `pc` continues: the 256 MiB region of `pc`, then four times the
    index. -/
def jumpTarget (w : InstrWord) (pc : Word) : Word :=
  (pc &&& 0xf0000000) ||| (w.index.zeroExtend 32 <<< 2)

end InstrWord

end MipsOnArm.Guest
