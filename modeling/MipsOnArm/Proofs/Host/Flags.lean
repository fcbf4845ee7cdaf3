import MipsOnArm.Host.Flags

/-! What the conditions of the host say after a comparison. The signed ones are read off the sign
    of a wrapping difference, corrected by the overflow flag; the unsigned ones off the borrow. -/

namespace MipsOnArm.Host

/-- The sign of the difference, inverted on overflow, tells whether the left side is smaller. -/
theorem sign_ofSub (a b : Word) :
    ((a - b).msb != ((a ^^^ b) &&& (a ^^^ (a - b))).msb) = a.slt b := by
  simp only [BitVec.msb_and, BitVec.msb_xor]
  by_cases hs : a.msb = b.msb
  · -- equal signs cannot overflow, and the difference is negative exactly after a borrow
    have hborrow : (a - b).msb = a.ult b := by
      simp only [BitVec.msb_eq_decide, BitVec.ult, decide_eq_decide] at hs ⊢
      bv_omega
    rw [BitVec.slt_eq_ult_of_msb_eq hs, hs, hborrow]
    simp
  · rw [BitVec.slt_eq_not_ult_of_msb_neq hs, BitVec.ult_eq_msb_of_msb_neq hs]
    cases ha : a.msb <;> cases hb : b.msb <;> simp_all

theorem sub_beq_zero (a b : Word) : (a - b == 0) = (a == b) := by
  rw [Bool.eq_iff_iff, beq_iff_eq, beq_iff_eq]
  constructor
  · intro h
    bv_omega
  · rintro rfl
    exact BitVec.sub_self a

namespace Cond

/-- The relation between two compared words that a condition asks for. -/
def relates (a b : Word) : Cond → Bool
  | eq => a == b
  | ne => a != b
  | hs => b.ule a
  | lo => a.ult b
  | ge => b.sle a
  | lt => a.slt b
  | gt => b.slt a
  | le => a.sle b
  | always => true

/-- After a comparison, a condition holds if the compared words are in its relation. -/
theorem holds_ofSub (a b : Word) (c : Cond) : c.holds (Flags.ofSub a b) = c.relates a b := by
  have hlt : ((a - b).msb != ((a ^^^ b) &&& (a ^^^ (a - b))).msb) = a.slt b := sign_ofSub a b
  have hge : ((a - b).msb == ((a ^^^ b) &&& (a ^^^ (a - b))).msb) = b.sle a := by
    rw [BitVec.sle_eq_not_slt, ← hlt, bne, Bool.not_not]
  have hz := sub_beq_zero a b
  have hle : (a.sle b) = ((a == b) || a.slt b) := by
    rw [BitVec.sle_eq_slt_or_eq, Bool.or_comm]
  cases c with
  | eq => exact hz
  | ne => exact congrArg not hz
  | hs => rfl
  | lo => simp only [holds, relates, Flags.ofSub, BitVec.ule_eq_not_ult, Bool.not_not]
  | ge => exact hge
  | lt => exact hlt
  | gt =>
    simp only [holds, relates, Flags.ofSub, hz, hge]
    rw [BitVec.slt_eq_sle_and_ne, Bool.and_comm, bne, BEq.comm]
  | le =>
    simp only [holds, relates, Flags.ofSub, hz, hlt, hle]
  | always => rfl

/-- Equality is the same both ways. -/
theorem relates_comm {c : Cond} (hc : c = eq ∨ c = ne) (a b : Word) :
    c.relates a b = c.relates b a := by
  obtain rfl | rfl := hc
  · exact BEq.comm
  · exact congrArg not BEq.comm

/-- The inverse of a condition holds exactly when the condition does not. -/
theorem holds_invert (f : Flags) {c : Cond} (hc : c ≠ always) : c.invert.holds f = !c.holds f := by
  cases c with
  | always => exact absurd rfl hc
  | ne | lo => simp [invert, holds]
  | ge | lt => simp [invert, holds, bne]
  | gt | le => simp [invert, holds, bne]
  | _ => rfl

/-- After a comparison the conditions tell whether the words are equal, and how they compare without
    and with signs. A bit test tells whether the words have no bit in common, and keeps carry and
    overflow. On all flags, the inverse of a condition is its complement. -/
theorem holds_after_comparison (a b : Word) :
    ((eq.holds (.ofSub a b) = true ↔ a = b) ∧
      (ne.holds (.ofSub a b) = true ↔ a ≠ b) ∧
      (hs.holds (.ofSub a b) = true ↔ a.toNat ≥ b.toNat) ∧
      (lo.holds (.ofSub a b) = true ↔ a.toNat < b.toNat) ∧
      (ge.holds (.ofSub a b) = true ↔ a.toInt ≥ b.toInt) ∧
      (lt.holds (.ofSub a b) = true ↔ a.toInt < b.toInt) ∧
      (gt.holds (.ofSub a b) = true ↔ a.toInt > b.toInt) ∧
      (le.holds (.ofSub a b) = true ↔ a.toInt ≤ b.toInt)) ∧
    (∀ f : Flags, (eq.holds (f.withTest a b) = true ↔ a &&& b = 0) ∧
      (f.withTest a b).c = f.c ∧ (f.withTest a b).v = f.v) ∧
    ∀ c : Cond, c ≠ always → ∀ f, c.invert.holds f = !c.holds f := by
  refine ⟨?_, fun f => ⟨beq_iff_eq, rfl, rfl⟩, fun c hc f => holds_invert f hc⟩
  simp only [holds_ofSub]
  exact ⟨beq_iff_eq, bne_iff_ne, BitVec.ule_iff_toNat_le, BitVec.ult_iff_toNat_lt,
    BitVec.sle_iff_toInt_le, BitVec.slt_iff_toInt_lt, BitVec.slt_iff_toInt_lt,
    BitVec.sle_iff_toInt_le⟩

/-- The least signed word is below one, although nothing is borrowed and the difference is
    positive. -/
theorem holds_after_comparison_overflow :
    lt.holds (.ofSub 0x80000000 1) = true ∧ lo.holds (.ofSub 0x80000000 1) = false ∧
      ge.invert.holds ⟨true, false, true, true⟩ = !ge.holds ⟨true, false, true, true⟩ := by
  obtain ⟨⟨-, -, -, hlo, -, hlt, -, -⟩, -, hinvert⟩ := holds_after_comparison 0x80000000 1
  exact ⟨hlt.mpr (by decide), Bool.eq_false_iff.mpr (mt hlo.mp (by decide)),
    hinvert ge nofun ⟨true, false, true, true⟩⟩

end Cond

end MipsOnArm.Host
