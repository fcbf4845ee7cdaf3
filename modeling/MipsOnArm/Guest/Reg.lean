/-! The thirty-two general-purpose registers of the guest. Register 0 always reads as zero. -/

namespace MipsOnArm.Guest

/-- A guest register, by its five-bit number. -/
abbrev Reg := Fin 32

namespace Reg

/-- The register that reads as zero and ignores writes. -/
def zero : Reg := 0

/-- The register that holds return addresses. -/
def ra : Reg := 31

theorem val_lt (r : Reg) : r.val < 32 := r.isLt

/-- The register that a field selects: its low five bits count. -/
def ofField (n : Nat) : Reg :=
  ⟨n % 32, Nat.mod_lt n (by decide)⟩

/-- All registers in ascending order. -/
def all : List Reg := List.finRange 32

/-- Assembler names, indexed by register number. -/
def names : Vector String 32 :=
  #v["zero", "at", "v0", "v1", "a0", "a1", "a2", "a3", "t0", "t1", "t2", "t3", "t4", "t5", "t6",
    "t7", "s0", "s1", "s2", "s3", "s4", "s5", "s6", "s7", "t8", "t9", "k0", "k1", "gp", "sp", "fp",
    "ra"]

/-- Assembler name of the register. -/
def name (r : Reg) : String := getElem names r.val r.val_lt

theorem ofField_val (r : Reg) : ofField r.val = r :=
  Fin.ext (Nat.mod_eq_of_lt r.isLt)

theorem mem_all (r : Reg) : r ∈ all := List.mem_finRange r

end Reg

end MipsOnArm.Guest
