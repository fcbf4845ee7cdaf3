import MipsOnArm.Comparison
import MipsOnArm.Guest.Semantics
import MipsOnArm.Proofs.Host.Flags
import MipsOnArm.Proofs.Residency.Requests

/-! Comparisons decide branches. The host code of a comparison leaves flags that tell the compared
    parts of the guest state, whichever registers were mapped before; from them the condition of a
    lowered branch tells that the guest does not take the branch. -/

namespace MipsOnArm
open Guest

/-- The conditional branch that a control instruction is lowered as. -/
def Guest.Control.branch? (w : InstrWord) : Control → Option Branch
  | branchPair test likely => some ⟨.pair w.rs w.rt, test.fails, likely⟩
  | branchZero test likely => some ⟨.zero w.rs, test.fails, likely⟩
  | branchFpu onTrue likely => some ⟨.fpu, bitDiffers onTrue, likely⟩
  | branchVfpu onTrue likely => some ⟨.vfpu w.conditionBit, bitDiffers onTrue, likely⟩
  | _ => none

/-- What the flags tell about the compared parts of the state; of two registers, whether the
    condition relates them. -/
def Comparison.Decided (s : Cpu) (cond : Host.Cond) (f : Host.Flags) : Comparison → Prop
  | pair rs rt => cond.holds f = cond.relates (s.gpr rs) (s.gpr rt)
  | zero rs => f = Host.Flags.ofSub (s.gpr rs) 0
  | fpu => f.z = !s.fpuCond.getLsbD 0
  | vfpu bit => f.z = !s.vfpuCond.getLsbD bit.toNat

/-- A bit test finds the bit clear exactly when the conjunction is zero. -/
theorem and_bit_beq_zero (v : Word) {i : Nat} (hi : i < 32) :
    (v &&& 1 <<< i == 0) = !v.getLsbD i := by
  have hbit : v &&& 1 <<< i = if v.getLsbD i then BitVec.twoPow 32 i else 0 :=
    BitVec.and_twoPow v i
  rw [hbit]
  cases v.getLsbD i with
  | false => rfl
  | true =>
    have hne : BitVec.twoPow 32 i ≠ 0 := fun e => by
      have := congrArg (·.getLsbD i) e
      simp [hi] at this
    simpa using hne

/-- The flags tell that a branch is not taken. -/
theorem notTaken_holds {c : Control} {w : InstrWord} {b : Branch} (hb : c.branch? w = some b)
    {s : Cpu} {f : Host.Flags} (hf : b.comparison.Decided s b.notTaken f) :
    b.notTaken.holds f = !c.taken w s := by
  cases c with
  | branchPair test likely =>
    cases hb
    have hholds : test.fails.holds f = test.fails.relates (s.gpr w.rs) (s.gpr w.rt) := hf
    rw [hholds]
    cases test <;> simp [PairTest.fails, Host.Cond.relates, Control.taken, PairTest.holds, bne]
  | branchZero test likely =>
    cases hb
    have hflags : f = Host.Flags.ofSub (s.gpr w.rs) 0 := hf
    rw [hflags, Host.Cond.holds_ofSub]
    cases test with
    | lez | gtz => simp [ZeroTest.fails, Host.Cond.relates, Control.taken, ZeroTest.holds,
        BitVec.sle_eq_not_slt]
    | ltz | gez => simp [ZeroTest.fails, Host.Cond.relates, Control.taken, ZeroTest.holds,
        BitVec.sle_eq_not_slt]
  | branchFpu onTrue likely =>
    cases hb
    have hz : f.z = !s.fpuCond.getLsbD 0 := hf
    cases onTrue <;> simp [bitDiffers, Host.Cond.holds, Control.taken, hz]
  | branchVfpu onTrue likely =>
    cases hb
    have hz : f.z = !s.vfpuCond.getLsbD w.conditionBit.toNat := hf
    cases onTrue <;> simp [bitDiffers, Host.Cond.holds, Control.taken, hz]
  | _ => cases hb

theorem notTaken_ne_always {c : Control} {w : InstrWord} {b : Branch} (hb : c.branch? w = some b) :
    b.notTaken ≠ .always := by
  cases c with
  | branchPair test likely => cases hb; cases test <;> simp [PairTest.fails]
  | branchZero test likely => cases hb; cases test <;> simp [ZeroTest.fails]
  | branchFpu onTrue likely => cases hb; cases onTrue <;> simp [bitDiffers]
  | branchVfpu onTrue likely => cases hb; cases onTrue <;> simp [bitDiffers]
  | _ => cases hb

/-- A comparison leaves an idle map and the guest state, and flags that tell the comparison. -/
structure Compares (m : RegisterMap) (c : Comparison) (cond : Host.Cond) (e : Emitted Unit) :
    Prop where
  idle : e.map.Idle
  budget : e.map.budget = m.budget
  confined : ∀ i ∈ e.code, Host.Confined m.budget i
  carries : ∀ {σ : Type} (x : Host.Machine σ) (s : Cpu), Represents m x s →
    ∃ y, Host.Follows e.code x y ∧ Represents e.map y s ∧ c.Decided s cond y.flags

namespace Comparison

variable {m : RegisterMap} {cond : Host.Cond}

/-- Comparing a register with zero leaves the flags of that subtraction. -/
theorem exists_run_emitZero (hm : m.Idle) (r : Reg) {c : Comparison}
    (hc : ∀ s, c.Decided s cond (.ofSub (s.gpr r) 0)) :
    ∃ e, (emitZero r).run m = .ok e ∧ Compares m c cond e := by
  obtain ⟨e, hrun, he⟩ := hm.exists_run_map r .read (hm.unpinned.room r)
  refine ⟨⟨(), e.code ++ [.cmp e.value (.imm 0)], e.map⟩, ?_, ?_, he.budget, ?_, ?_⟩
  · simp only [emitZero, Emit.run_bind, hrun, Emit.run_write]
  · exact he.idle hm
  · intro i hi
    rcases List.mem_append.mp hi with hi | hi
    · exact he.confined i hi
    · cases List.mem_singleton.mp hi; exact .cmp _ _
  · intro σ x s hx
    obtain ⟨y, hxy, hy, -⟩ := he.read hx
    refine ⟨{ y with flags := .ofSub (y.reg e.value) 0 }, hxy.append (.single fun _ _ _ => rfl),
      hy.of_regs rfl fun _ _ _ => rfl, ?_⟩
    simpa only [hy.held r _ he.host] using hc s

theorem exists_run_emitPair (hm : m.Idle) (rs rt : Reg) (cond : Host.Cond) :
    ∃ e, (emitPair rs rt).run m = .ok e ∧ Compares m (pair rs rt) cond e := by
  have hs₀ := Sources.none (hm.toWellFormed.pin [rs, rt])
  obtain ⟨e₁, hrun₁, hs₁⟩ := hs₀.exists_run_read hm rs (by simp) (by simp)
  obtain ⟨e₂, hrun₂, hs₂⟩ := hs₁.exists_run_read hm rt (by simp) (by simp)
  refine ⟨⟨(), e₁.code ++ e₂.code ++ [.cmp e₁.value (.reg e₂.value)], e₂.map.unpin⟩, ?_,
    hs₂.wellFormed.idle_unpin, hs₂.budget.trans (m.budget_pin _), fun i hi => ?_, fun x s hx => ?_⟩
  · simp only [emitPair, Emit.run_bind, Emit.run_withPinned, hrun₁, hrun₂, Emit.run_pure,
      Emit.run_write, List.append_nil]
  · rcases List.mem_append.mp hi with hi | hi
    · exact m.budget_pin [rs, rt] ▸ hs₂.confined i hi
    · cases List.mem_singleton.mp hi; exact .cmp _ _
  · obtain ⟨y, hxy, hy⟩ := hs₂.carries x s (hx.pin _)
    have hlhs : y.reg e₁.value = s.gpr rs := hy.held rs _ (hs₂.held (rs, e₁.value) (by simp)).1
    have hrhs : y.reg e₂.value = s.gpr rt := hy.held rt _ (hs₂.held (rt, e₂.value) (by simp)).1
    have hy' : Represents e₂.map
        { y with flags := .ofSub (y.reg e₁.value) (y.reg e₂.value) } s :=
      hy.of_regs rfl fun _ _ _ => rfl
    refine ⟨_, hxy.append (.single fun _ _ _ => rfl), hy'.unpin, ?_⟩
    show cond.holds (Host.Flags.ofSub (y.reg e₁.value) (y.reg e₂.value)) = _
    rw [hlhs, hrhs]
    exact Host.Cond.holds_ofSub _ _ cond

/-- Testing a bit of a condition word, which the flushed state holds. -/
theorem exists_run_emitBit (hm : m.Idle) {f : Field} (hf : f = .fpuCond ∨ f = .vfpuCond) {i : Nat}
    (hi : i < 32) {c : Comparison}
    (hc : ∀ s (fl : Host.Flags), fl.z = !(s.get f).getLsbD i → c.Decided s cond fl) :
    ∃ e, (emitBit f i).run m = .ok e ∧ Compares m c cond e := by
  obtain ⟨e, hrun, he⟩ := hm.exists_run_flushAll
  refine ⟨⟨(), e.code ++ [.load Host.Reg.scratch f.offset,
      .tst Host.Reg.scratch (.imm (1 <<< i))], e.map⟩, ?_, he.idle, he.budget,
    fun j hj => ?_, fun x s hx => ?_⟩
  · simp only [emitBit, Emit.run_bind, hrun, Emit.run_write]
  · rcases List.mem_append.mp hj with hj | hj
    · exact he.confined j hj
    · rcases List.mem_cons.mp hj with rfl | hj
      · exact .loadCondition hf
      · cases List.mem_singleton.mp hj; exact .tst _ _
  · obtain ⟨y, hxy, hy, -⟩ := he.carries x s hx
    have hload := Host.step_load y Host.Reg.scratch f
    refine ⟨_, hxy.append (.step hload (.single fun _ _ _ => rfl)),
      (represents_iff_of_flushed he.flushed).mpr hy, hc s _ ?_⟩
    rw [← and_bit_beq_zero _ hi]
    simp only [Host.Flags.withTest, Host.Machine.reg_setReg, if_true, Host.Machine.operand, hy]

/-- Setting up a comparison never fails, and its code decides it. -/
theorem exists_run_emit (hm : m.Idle) (c : Comparison) (cond : Host.Cond) :
    ∃ e, (c.emit cond).run m = .ok e ∧ Compares m c cond e := by
  cases c with
  | pair rs rt =>
    rw [emit]
    by_cases ht : rt = Reg.zero
    · rw [if_pos ht]
      refine exists_run_emitZero hm rs fun s => ?_
      rw [Decided, ht, s.gpr_zero]
      exact Host.Cond.holds_ofSub _ _ cond
    · rw [if_neg ht]
      by_cases hs : rs = Reg.zero ∧ (cond = .eq ∨ cond = .ne)
      · obtain ⟨hzero, hcond⟩ := hs
        rw [if_pos ⟨hzero, hcond⟩]
        refine exists_run_emitZero hm rt fun s => ?_
        rw [Decided, hzero, s.gpr_zero, Host.Cond.relates_comm hcond]
        exact Host.Cond.holds_ofSub _ _ cond
      · rw [if_neg hs]
        exact exists_run_emitPair hm rs rt cond
  | zero rs => exact exists_run_emitZero hm rs fun _ => rfl
  | fpu => exact exists_run_emitBit hm (.inl rfl) (by decide) fun _ _ h => h
  | vfpu bit =>
    have := bit.isLt
    exact exists_run_emitBit hm (.inr rfl) (by omega) fun _ _ h => h

end Comparison

end MipsOnArm
