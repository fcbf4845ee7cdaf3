import MipsOnArm.Departure
import MipsOnArm.Host.Instr

/-! Execution of host code against a guest state. The machine has registers and flags of its own,
    reaches the guest state through loads and stores, and hands system calls to a native handler
    that may change the guest state and an environment. A native call leaves residue in the
    caller-saved registers and in the flags. -/

namespace MipsOnArm.Host

/-- What a native call leaves in the registers it may change and in the flags. -/
structure Residue where
  regs : Reg → Word
  flags : Flags

/-- The value that native calls are made to leave everywhere, so that code relying on a changed
    register is noticed. -/
def Residue.pattern : Word := 0xdeadbeef

/-- The pattern in every register and in the flags. -/
def Residue.standard : Residue :=
  ⟨fun _ => pattern, Flags.ofWord pattern⟩

/-- Host registers and flags, the guest state, the handler's environment, and the calls made so
    far. -/
structure Machine (σ : Type) where
  regs : Vector Word 16
  flags : Flags
  cpu : Guest.Cpu
  env : σ
  calls : List Call

/-- Where execution goes after an instruction. -/
inductive Flow
  | next
  | goto (index : Nat)
  | leave (departure : Departure)
  deriving DecidableEq, Repr, Inhabited

namespace Machine

variable {σ : Type}

/-- Registers zero and flags clear. -/
def start (cpu : Guest.Cpu) (env : σ) : Machine σ :=
  ⟨Vector.replicate 16 0, Flags.clear, cpu, env, []⟩

/-- Value of a register. -/
def reg (m : Machine σ) (r : Reg) : Word := getElem m.regs r.val r.val_lt

/-- Changes a register. -/
def setReg (m : Machine σ) (r : Reg) (value : Word) : Machine σ :=
  { m with regs := m.regs.set r.val value r.val_lt }

/-- Value of an operand. -/
def operand (m : Machine σ) : Operand → Word
  | .reg r => m.reg r
  | .imm v => v

/-- Makes a native call and takes over its residue. -/
def call (handler : Handler σ) (residue : Residue) (word : Word) (m : Machine σ) : Machine σ :=
  let (cpu, env) := handler word m.cpu m.env
  { regs := Reg.callerSaved.foldl (fun regs r => regs.set r.val (residue.regs r) r.val_lt) m.regs
    flags := residue.flags
    cpu := cpu
    env := env
    calls := m.calls ++ [⟨word, m.cpu⟩] }

/-- Runs the instruction at `index`. -/
def perform (handler : Handler σ) (residue : Residue) (index : Nat) (m : Machine σ) :
    Instr → Except Fault (Machine σ × Flow)
  | .movImm dst imm => .ok (m.setReg dst imm, .next)
  | .mov dst src => .ok (m.setReg dst (m.reg src), .next)
  | .mvn dst src => .ok (m.setReg dst (~~~ m.reg src), .next)
  | .movIf cond dst imm => .ok (if cond.holds m.flags then m.setReg dst imm else m, .next)
  | .load dst offset => do
    let value ← m.cpu.readAt offset
    return (m.setReg dst value, .next)
  | .store src offset => do
    let cpu ← m.cpu.writeAt offset (m.reg src)
    return ({ m with cpu := cpu }, .next)
  | .alu op dst lhs rhs => .ok (m.setReg dst (op.apply (m.reg lhs) (m.operand rhs)), .next)
  | .cmp lhs rhs => .ok ({ m with flags := Flags.ofSub (m.reg lhs) (m.operand rhs) }, .next)
  | .tst lhs rhs => .ok ({ m with flags := m.flags.withTest (m.reg lhs) (m.operand rhs) }, .next)
  | .saveFlags dst => .ok (m.setReg dst m.flags.toWord, .next)
  | .restoreFlags src => .ok ({ m with flags := Flags.ofWord (m.reg src) }, .next)
  | .branch cond (some target) =>
    .ok (m, if cond.holds m.flags then .goto target else .next)
  | .branch _ none => .error (.untargetedBranch index)
  | .callSyscall word => .ok (m.call handler residue word, .next)
  | .exit target slot => .ok (m, .leave (.linked target slot))
  | .exitToReg src => .ok (m, .leave (.indirect (m.reg src)))
  | .exitSyscall => .ok (m, .leave (.syscall m.cpu.pc))

/-- Runs `code` from an index until it hands control back, for at most `fuel` instructions. `entry`
    is the guest address that the code was made for. -/
def run (handler : Handler σ) (residue : Residue) (entry : Word) (code : Array Instr) :
    (fuel index : Nat) → Machine σ → Except Fault (Machine σ × Departure)
  | 0, _, _ => .error .stepLimit
  | fuel + 1, index, m =>
    match code[index]? with
    | none => .error (.fellOffEnd entry index)
    | some instr =>
      match m.perform handler residue index instr with
      | .error fault => .error fault
      | .ok (m, .next) => run handler residue entry code fuel (index + 1) m
      | .ok (m, .goto target) => run handler residue entry code fuel target m
      | .ok (m, .leave departure) => .ok (m, departure)

theorem reg_setReg (m : Machine σ) (r x : Reg) (value : Word) :
    (m.setReg r value).reg x = if x = r then value else m.reg x := by
  simp [setReg, reg, Vector.getElem_set, Fin.ext_iff, eq_comm]

end Machine

end MipsOnArm.Host
