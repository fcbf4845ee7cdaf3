import MipsOnArm.Guest.Semantics

/-! Which register a word changes. `InstrWord.written?` finds it on the word itself, by a
    classification that also covers words that are not lowered. On the words that hold an operation
    it is the destination that the operation names, unless that is register 0; nothing else of the
    guest state changes. -/

namespace MipsOnArm.Guest

variable {w : InstrWord} {o : Operation} {s : Cpu}

/-! ### Two classifications of a word -/

theorem Instr.decode_operation (h : Instr.decode w = some (.operation o)) :
    Operation.decode w = some o := by
  unfold Instr.decode at h
  split at h
  · cases h
  · obtain ⟨o', ho, ⟨⟩⟩ := Option.map_eq_some_iff.mp h
    exact ho

namespace Operation

theorem specialDest_eq (h : decodeSpecial w = some o) : w.specialDest = o.dest? := by
  unfold decodeSpecial at h
  unfold InstrWord.specialDest
  split at h <;> cases h <;> next hfunct => simp [hfunct, dest?]

/-- An operation stands in the register form or in one of the eight groups from 8 on, where it names
    `rt` as its destination. -/
theorem primary_cases (hw : w.bits ≠ 0) (h : decode w = some o) :
    (w.primary.toNat = 0 ∧ decodeSpecial w = some o) ∨
      ((8 ≤ w.primary.toNat ∧ w.primary.toNat ≤ 15) ∧ o.dest? = some w.rt) := by
  rw [decode, if_neg hw] at h
  split at h
  case h_1 hprimary => exact .inl ⟨hprimary, h⟩
  case h_10 => cases h
  all_goals
    next hprimary =>
      cases h
      exact .inr ⟨by omega, rfl⟩

/-- The word and the operation that it holds agree on what is changed. -/
theorem written?_eq (h : decode w = some o) : w.written? = o.dest?.filter (· ≠ Reg.zero) := by
  by_cases hw : w.bits = 0
  · rw [decode, if_pos hw] at h
    cases h
    obtain rfl : w = ⟨0⟩ := congrArg InstrWord.mk hw
    rfl
  · rw [InstrWord.written?, InstrWord.destField]
    obtain ⟨hprimary, hspecial⟩ | ⟨hprimary, hdest⟩ := primary_cases hw h
    · simp only [hprimary, if_true, specialDest_eq hspecial]
    · have hzero : w.primary.toNat ≠ 0 := by omega
      have hjump : w.primary.toNat ≠ 3 := by omega
      simp only [hzero, hjump, hprimary, hdest, if_true, if_false, true_or, and_self]

/-- An operation writes neither condition word. -/
theorem changes_conditions (h : decode w = some o) :
    w.changesFpuCond = false ∧ w.changesVfpuCond = false := by
  have hprimary : w.primary.toNat = 0 ∨ 8 ≤ w.primary.toNat ∧ w.primary.toNat ≤ 15 := by
    by_cases hw : w.bits = 0
    · exact .inl (by simp [InstrWord.primary, hw])
    · exact (primary_cases hw h).imp And.left And.left
  have hne : ∀ p : BitVec 6, 15 < p.toNat → w.primary ≠ p := by
    rintro p hp rfl
    omega
  refine ⟨?_, decide_eq_false (hne 27 (by decide))⟩
  rw [InstrWord.changesFpuCond, decide_eq_false (hne 17 (by decide)), Bool.false_and,
    Bool.false_and]

/-! ### What an operation changes -/

/-- Everything but the register that the word writes keeps its value. -/
theorem get_perform (h : decode w = some o) {f : Field}
    (hf : ∀ r, w.written? = some r → f ≠ .gpr r) : (o.perform s).get f = s.get f := by
  rw [written?_eq h] at hf
  unfold perform
  cases hdest : o.dest? with
  | none => rfl
  | some r =>
    by_cases hzero : r = Reg.zero
    · simp [hzero, Cpu.setGpr]
    · exact Cpu.get_setGpr_of_ne s r _ f (hf r (by simp [hdest, hzero]))

theorem gpr_perform (h : decode w = some o) {r : Reg} (hr : w.written? ≠ some r) :
    (o.perform s).gpr r = s.gpr r := by
  refine get_perform h (f := .gpr r) ?_
  rintro q hq ⟨⟩
  exact hr hq

theorem fpuCond_perform (h : decode w = some o) : (o.perform s).fpuCond = s.fpuCond := by
  refine get_perform h (f := .fpuCond) ?_
  rintro q - ⟨⟩

theorem vfpuCond_perform (h : decode w = some o) : (o.perform s).vfpuCond = s.vfpuCond := by
  refine get_perform h (f := .vfpuCond) ?_
  rintro q - ⟨⟩

end Operation

end MipsOnArm.Guest
