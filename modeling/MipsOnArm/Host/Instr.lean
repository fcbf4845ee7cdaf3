import MipsOnArm.Host.Reg
import MipsOnArm.Host.Flags
import MipsOnArm.Text.Hex

/-! The instructions of the host, with their assembler text. Only comparisons, bit tests and the
    restoring of saved flags change the flags; loads and stores reach the guest state alone. -/

namespace MipsOnArm.Host

/-- Second operand of arithmetic and comparisons. -/
inductive Operand
  | reg (r : Reg)
  | imm (value : Word)
  deriving DecidableEq, Repr, Inhabited

/-- Arithmetic that leaves the flags alone. -/
inductive AluOp
  | add
  | sub
  | and
  | orr
  | eor
  | lsl
  | lsr
  | asr
  deriving DecidableEq, Repr, Inhabited

/-- One host instruction. -/
inductive Instr
  | movImm (dst : Reg) (imm : Word)
  | mov (dst src : Reg)
  | mvn (dst src : Reg)
  /-- Moves the immediate if the condition holds. -/
  | movIf (cond : Cond) (dst : Reg) (imm : Word)
  /-- Reads the guest state at a byte offset. -/
  | load (dst : Reg) (offset : Nat)
  /-- Writes the guest state at a byte offset. -/
  | store (src : Reg) (offset : Nat)
  | alu (op : AluOp) (dst lhs : Reg) (rhs : Operand)
  | cmp (lhs : Reg) (rhs : Operand)
  | tst (lhs : Reg) (rhs : Operand)
  /-- Copies the flags into a register. -/
  | saveFlags (dst : Reg)
  /-- Copies a register into the flags. -/
  | restoreFlags (src : Reg)
  /-- Continues at an instruction index if the condition holds; `none` until the target is known. -/
  | branch (cond : Cond) (target : Option Nat)
  /-- Calls the native system-call handler with the guest instruction word. -/
  | callSyscall (word : Word)
  /-- Leaves the block for a fixed guest address. -/
  | exit (target : Word) (slot : ExitSlot)
  /-- Leaves the block for the guest address in a register. -/
  | exitToReg (src : Reg)
  /-- Leaves the block after a system call, for the guest address in the guest state. -/
  | exitSyscall
  deriving DecidableEq, Repr, Inhabited

namespace AluOp

/-- The value computed from both operands. Shifts use the low five bits of the right one. -/
def apply (lhs rhs : Word) : AluOp → Word
  | add => lhs + rhs
  | sub => lhs - rhs
  | and => lhs &&& rhs
  | orr => lhs ||| rhs
  | eor => lhs ^^^ rhs
  | lsl => lhs <<< (rhs.toNat % 32)
  | lsr => lhs >>> (rhs.toNat % 32)
  | asr => lhs.sshiftRight (rhs.toNat % 32)

/-- Assembler name. -/
def mnemonic : AluOp → String
  | add => "add"
  | sub => "sub"
  | and => "and"
  | orr => "orr"
  | eor => "eor"
  | lsl => "lsl"
  | lsr => "lsr"
  | asr => "asr"

end AluOp

/-- Assembler text of an operand; immediates in short hexadecimal. -/
def Operand.text : Operand → String
  | .reg r => r.name
  | .imm v => "#" ++ Text.hex v.toNat

namespace Instr

/-- Whether running the instruction may change the flags. -/
def writesFlags : Instr → Bool
  | cmp .. => true
  | tst .. => true
  | restoreFlags .. => true
  | _ => false

/-- Text of a place in the guest state. -/
def placeText (offset : Nat) : String :=
  "[" ++ Reg.base.name ++ ", #" ++ Text.hex offset ++ "]"

/-- Text of an immediate. -/
def immText (v : Word) : String :=
  (Operand.imm v).text

/-- Assembler text of the instruction. -/
def text : Instr → String
  | movImm dst imm => s!"mov {dst.name}, {immText imm}"
  | mov dst src => s!"mov {dst.name}, {src.name}"
  | mvn dst src => s!"mvn {dst.name}, {src.name}"
  | movIf cond dst imm => s!"mov{cond.suffix} {dst.name}, {immText imm}"
  | load dst offset => s!"ldr {dst.name}, {placeText offset}"
  | store src offset => s!"str {src.name}, {placeText offset}"
  | alu op dst lhs rhs => s!"{op.mnemonic} {dst.name}, {lhs.name}, {rhs.text}"
  | cmp lhs rhs => s!"cmp {lhs.name}, {rhs.text}"
  | tst lhs rhs => s!"tst {lhs.name}, {rhs.text}"
  | saveFlags dst => s!"mrs {dst.name}, apsr"
  | restoreFlags src => s!"msr apsr_nzcvq, {src.name}"
  | branch cond (some target) => s!"b{cond.suffix} @{target}"
  | branch cond none => s!"b{cond.suffix} <unpatched>"
  | callSyscall word => s!"call syscall({Text.hexAddress word.toNat})"
  | exit target slot => s!"exit {Text.hexAddress target.toNat} (slot {slot.toNat})"
  | exitToReg src => s!"exit [{src.name}]"
  | exitSyscall => "exit syscall"

/-- Listing of a sequence of instructions: one line each, with its index set to the right in four
    columns. -/
def listing (code : List Instr) : String :=
  String.join (code.zipIdx.map fun (instr, i) =>
    Text.padLeft 4 ' ' (toString i) ++ ": " ++ instr.text ++ "\n")

end Instr

end MipsOnArm.Host
