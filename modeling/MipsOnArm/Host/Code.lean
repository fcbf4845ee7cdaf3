import MipsOnArm.Fault

/-! Host code while it is being written. Instructions are appended; a forward branch is appended
    without a target, and patched to the end of the code once that is the place it should reach. -/

namespace MipsOnArm.Host

/-- The instructions written so far. -/
structure Code where
  instrs : Array Instr
  deriving DecidableEq, Repr, Inhabited

/-- A forward branch that waits for its target. -/
structure Fixup where
  index : Nat
  deriving DecidableEq, Repr, Inhabited

namespace Code

/-- No instructions. -/
def empty : Code := ⟨#[]⟩

/-- Number of instructions. -/
def size (c : Code) : Nat := c.instrs.size

/-- Listing with one line per instruction. -/
def text (c : Code) : String :=
  Instr.listing c.instrs.toList

/-- Appends one instruction. -/
def push (c : Code) (i : Instr) : Code :=
  ⟨c.instrs.push i⟩

/-- Appends instructions in order. -/
def append (c : Code) (is : List Instr) : Code :=
  ⟨c.instrs ++ is.toArray⟩

/-- Appends a branch whose target is not known yet. -/
def forwardBranch (c : Code) (cond : Cond) : Fixup × Code :=
  (⟨c.size⟩, c.push (.branch cond none))

/-- Lets a waiting branch reach the next instruction to be appended. -/
def patch (c : Code) (f : Fixup) : Except Fault Code :=
  match c.instrs[f.index]? with
  | none => .error (.noSuchInstr c.size f.index)
  | some (.branch cond none) =>
    .ok ⟨c.instrs.setIfInBounds f.index (.branch cond (some c.size))⟩
  | some (.branch _ (some _)) => .error (.boundTwice f.index)
  | some other => .error (.notABranch f.index other)

/-- Whether an instruction is a branch that still waits for its target. -/
def waits : Instr → Bool
  | .branch _ none => true
  | _ => false

/-- Hands out the instructions and leaves no code. No branch may be waiting. -/
def take (c : Code) : Except Fault (Array Instr × Code) :=
  if c.instrs.any waits then .error (.unboundBranch c.instrs.toList)
  else .ok (c.instrs, empty)

@[simp] theorem size_push (c : Code) (i : Instr) : (c.push i).size = c.size + 1 := by
  simp [push, size]

@[simp] theorem size_append (c : Code) (is : List Instr) :
    (c.append is).size = c.size + is.length := by
  simp [append, size]

@[simp] theorem append_nil (c : Code) : c.append [] = c := by
  simp [append]

theorem append_append (c : Code) (is js : List Instr) :
    (c.append is).append js = c.append (is ++ js) := by
  simp [append]

end Code

end MipsOnArm.Host
