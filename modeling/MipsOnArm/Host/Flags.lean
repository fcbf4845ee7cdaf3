import MipsOnArm.Word

/-! The condition flags of the host, the instructions that set them, and the conditions read from
    them. As a word the flags take the four top bits. -/

namespace MipsOnArm.Host

/-- Negative, zero, carry and overflow. -/
structure Flags where
  n : Bool
  z : Bool
  c : Bool
  v : Bool
  deriving DecidableEq, Repr, Inhabited

namespace Flags

/-- No flag set. -/
def clear : Flags := ⟨false, false, false, false⟩

/-- The flags as a word: N, Z, C and V in bits 31 to 28, zeros below. -/
def toWord (f : Flags) : Word :=
  BitVec.ofBool f.n ++ BitVec.ofBool f.z ++ BitVec.ofBool f.c ++ BitVec.ofBool f.v ++
    (0 : BitVec 28)

/-- The flags in the top bits of a word; the other bits are ignored. -/
def ofWord (w : Word) : Flags :=
  ⟨w.getLsbD 31, w.getLsbD 30, w.getLsbD 29, w.getLsbD 28⟩

/-- Flags of the comparison of `lhs` with `rhs`, a subtraction. Carry means that nothing was
    borrowed. -/
def ofSub (lhs rhs : Word) : Flags :=
  let diff := lhs - rhs
  ⟨diff.msb, diff == 0, rhs.ule lhs, ((lhs ^^^ rhs) &&& (lhs ^^^ diff)).msb⟩

/-- Flags after a bit test: N and Z follow the conjunction, C and V stay. -/
def withTest (f : Flags) (lhs rhs : Word) : Flags :=
  let both := lhs &&& rhs
  { f with n := both.msb, z := both == 0 }

/-- Saving the flags in a word and reading them back changes nothing. -/
theorem ofWord_toWord (f : Flags) : ofWord f.toWord = f := by
  obtain ⟨n, z, c, v⟩ := f
  revert n z c v
  decide

end Flags

/-- A condition on the flags. -/
inductive Cond
  | eq
  | ne
  /-- Unsigned higher or same. -/
  | hs
  /-- Unsigned lower. -/
  | lo
  | ge
  | lt
  | gt
  | le
  | always
  deriving DecidableEq, Repr, Inhabited

namespace Cond

/-- All conditions, in the order of their definition. -/
def all : List Cond := [eq, ne, hs, lo, ge, lt, gt, le, always]

/-- Whether the condition is true of the flags. -/
def holds (f : Flags) : Cond → Bool
  | eq => f.z
  | ne => !f.z
  | hs => f.c
  | lo => !f.c
  | ge => f.n == f.v
  | lt => f.n != f.v
  | gt => !f.z && f.n == f.v
  | le => f.z || f.n != f.v
  | always => true

/-- The complementary condition; `always` has none and stays as it is. -/
def invert : Cond → Cond
  | eq => ne
  | ne => eq
  | hs => lo
  | lo => hs
  | ge => lt
  | lt => ge
  | gt => le
  | le => gt
  | always => always

/-- Assembler suffix; `always` is not written. -/
def suffix : Cond → String
  | eq => "eq"
  | ne => "ne"
  | hs => "hs"
  | lo => "lo"
  | ge => "ge"
  | lt => "lt"
  | gt => "gt"
  | le => "le"
  | always => ""

theorem invert_invert (c : Cond) : c.invert.invert = c := by
  cases c <;> rfl

end Cond

end MipsOnArm.Host
