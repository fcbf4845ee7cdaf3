import MipsOnArm.Fault

/-! Guest memory as a window of bytes that starts anywhere in the 32-bit address space. Words are
    little endian and need not be aligned. Reading outside the window gives zero, which is the word
    of an instruction without effect; writing outside it is a fault. -/

namespace MipsOnArm.Guest

/-- The bytes from address `base` on. -/
structure Memory where
  base : Word
  bytes : Array (BitVec 8)
  deriving DecidableEq, Repr, Inhabited

namespace Memory

/-- A window of `size` zero bytes. -/
def zeroed (base : Word) (size : Nat) : Memory :=
  ⟨base, Array.replicate size 0⟩

/-- Number of bytes in the window. -/
def size (m : Memory) : Nat := m.bytes.size

/-- Where the word at `addr` starts in the window, if all four of its bytes are inside. The end of
    the window does not wrap around. -/
def offset? (m : Memory) (addr : Word) : Option Nat :=
  let distance := addr.toNat - m.base.toNat
  if m.base.toNat ≤ addr.toNat ∧ distance + 4 ≤ m.size then some distance else none

/-- The byte at an offset into the window, zero behind its end. -/
def byteAt (m : Memory) (offset : Nat) : BitVec 8 :=
  m.bytes[offset]?.getD 0

/-- The word at `addr`, zero unless it is inside the window. -/
def read (m : Memory) (addr : Word) : Word :=
  match m.offset? addr with
  | some i => m.byteAt (i + 3) ++ m.byteAt (i + 2) ++ m.byteAt (i + 1) ++ m.byteAt i
  | none => 0

/-- Replaces the four bytes from `offset` on by the bytes of `value`, lowest first. -/
def setBytes (bytes : Array (BitVec 8)) (offset : Nat) (value : Word) : Array (BitVec 8) :=
  bytes
    |>.setIfInBounds offset (value.extractLsb' 0 8)
    |>.setIfInBounds (offset + 1) (value.extractLsb' 8 8)
    |>.setIfInBounds (offset + 2) (value.extractLsb' 16 8)
    |>.setIfInBounds (offset + 3) (value.extractLsb' 24 8)

/-- Writes a word at `addr`, which has to be inside the window. -/
def write (m : Memory) (addr : Word) (value : Word) : Except Fault Memory :=
  match m.offset? addr with
  | some i => .ok { m with bytes := setBytes m.bytes i value }
  | none => .error (.outsideWindow addr m.base m.size)

/-- Writes words one after the other from `addr` on; addresses wrap around. -/
def load (m : Memory) (addr : Word) : List Word → Except Fault Memory
  | [] => .ok m
  | w :: ws => do
    let m ← m.write addr w
    m.load (addr + instrBytes) ws

end Memory

end MipsOnArm.Guest
