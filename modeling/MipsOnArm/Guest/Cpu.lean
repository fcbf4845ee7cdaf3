import MipsOnArm.Fault

/-! The processor state of the guest: thirty-two registers, the program counter, the multiplier pair
    and the two condition words. Lowered code reaches it by byte offset, each field one word: the
    registers first, then the others in the order of `Field`. Register 0 is zero in every state. -/

namespace MipsOnArm.Guest

/-- The processor state that instructions read and change. -/
structure Cpu where
  gprs : Vector Word 32
  pc : Word
  hi : Word
  lo : Word
  /-- Floating-point condition, bit 0. -/
  fpuCond : Word
  /-- Vector conditions, bits 0 to 6. -/
  vfpuCond : Word
  gprs_zero : gprs[0] = 0
  deriving DecidableEq, Repr

/-- A field of the processor state. -/
inductive Field
  | gpr (r : Reg)
  | pc
  | hi
  | lo
  | fpuCond
  | vfpuCond
  deriving DecidableEq, Repr, Inhabited

namespace Field

/-- Byte offset of the field. -/
def offset : Field → Nat
  | gpr r => 4 * r.val
  | pc => 128
  | hi => 132
  | lo => 136
  | fpuCond => 140
  | vfpuCond => 144

/-- Bytes taken by all fields. -/
def totalBytes : Nat := 148

/-- The field at a byte offset. Below the program counter an offset between two registers is
    unaligned; behind it only the offsets of fields are places. -/
def ofOffset (access : Access) (n : Nat) : Except Fault Field :=
  if n < pc.offset then
    if n % 4 = 0 then .ok (gpr (Reg.ofField (n / 4))) else .error (.unaligned access n)
  else if n = pc.offset then .ok pc
  else if n = hi.offset then .ok hi
  else if n = lo.offset then .ok lo
  else if n = fpuCond.offset then .ok fpuCond
  else if n = vfpuCond.offset then .ok vfpuCond
  else .error (.noField access n)

/-- Every field is found again at its offset. -/
theorem ofOffset_offset (access : Access) (f : Field) : ofOffset access f.offset = .ok f := by
  cases f with
  | gpr r =>
    have : 4 * r.val < 128 := by omega
    simp [ofOffset, offset, this, Reg.ofField_val]
  | _ => rfl

end Field

namespace Cpu

/-- All registers zero, about to run the instruction at `pc`. -/
def start (pc : Word) : Cpu where
  gprs := Vector.replicate 32 0
  pc := pc
  hi := 0
  lo := 0
  fpuCond := 0
  vfpuCond := 0
  gprs_zero := by simp

instance : Inhabited Cpu := ⟨start 0⟩

/-- Value of a register. -/
def gpr (s : Cpu) (r : Reg) : Word := getElem s.gprs r.val r.val_lt

/-- Changes a register; a change of register 0 is dropped. -/
def setGpr (s : Cpu) (r : Reg) (value : Word) : Cpu :=
  if h : r = Reg.zero then s
  else
    { s with
      gprs := s.gprs.set r.val value r.val_lt
      gprs_zero := by
        have : r.val ≠ 0 := fun e => h (Fin.ext e)
        simpa [Vector.getElem_set, this] using s.gprs_zero }

/-- Value of a field. -/
def get (s : Cpu) : Field → Word
  | .gpr r => s.gpr r
  | .pc => s.pc
  | .hi => s.hi
  | .lo => s.lo
  | .fpuCond => s.fpuCond
  | .vfpuCond => s.vfpuCond

/-- Changes a field. -/
def set (s : Cpu) (f : Field) (value : Word) : Cpu :=
  match f with
  | .gpr r => s.setGpr r value
  | .pc => { s with pc := value }
  | .hi => { s with hi := value }
  | .lo => { s with lo := value }
  | .fpuCond => { s with fpuCond := value }
  | .vfpuCond => { s with vfpuCond := value }

/-- Reads the field at a byte offset. -/
def readAt (s : Cpu) (offset : Nat) : Except Fault Word := do
  let f ← Field.ofOffset .read offset
  return s.get f

/-- Writes the field at a byte offset. -/
def writeAt (s : Cpu) (offset : Nat) (value : Word) : Except Fault Cpu := do
  let f ← Field.ofOffset .write offset
  return s.set f value

@[simp] theorem gpr_zero (s : Cpu) : s.gpr Reg.zero = 0 := s.gprs_zero

@[simp] theorem gpr_start (pc : Word) (r : Reg) : (start pc).gpr r = 0 := by
  simp [gpr, start]

theorem gpr_setGpr (s : Cpu) (r x : Reg) (value : Word) :
    (s.setGpr r value).gpr x = if x = r ∧ r ≠ Reg.zero then value else s.gpr x := by
  unfold setGpr
  split
  · simp_all
  · simp_all [gpr, Vector.getElem_set, Fin.ext_iff, eq_comm]

/-- A changed field has its new value, unless it is register 0. -/
theorem get_set_self (s : Cpu) (f : Field) (value : Word) (h : f ≠ .gpr Reg.zero) :
    (s.set f value).get f = value := by
  cases f with
  | gpr r => simp_all [set, get, gpr_setGpr]
  | _ => rfl

theorem get_setGpr_of_ne (s : Cpu) (r : Reg) (value : Word) (f : Field) (h : f ≠ .gpr r) :
    (s.setGpr r value).get f = s.get f := by
  cases f with
  | gpr x => simp_all [get, gpr_setGpr]
  | _ => unfold setGpr; split <;> rfl

/-- The other fields keep their values. -/
theorem get_set_of_ne (s : Cpu) (f g : Field) (value : Word) (h : g ≠ f) :
    (s.set f value).get g = s.get g := by
  cases f with
  | gpr r => exact get_setGpr_of_ne s r value g h
  | _ => cases g <;> simp_all [set, get, gpr]

/-- States that agree on all fields are equal. -/
theorem ext_get {s t : Cpu} (h : ∀ f, s.get f = t.get f) : s = t := by
  obtain ⟨sg, _, _, _, _, _, _⟩ := s
  obtain ⟨tg, _, _, _, _, _, _⟩ := t
  have hg : sg = tg := Vector.ext fun i hi => h (.gpr ⟨i, hi⟩)
  have hpc := h .pc
  have hhi := h .hi
  have hlo := h .lo
  have hfpu := h .fpuCond
  have hvfpu := h .vfpuCond
  simp only [get] at hpc hhi hlo hfpu hvfpu
  simp_all

end Cpu

end MipsOnArm.Guest
