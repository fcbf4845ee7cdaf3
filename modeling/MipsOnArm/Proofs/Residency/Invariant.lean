import MipsOnArm.Proofs.Residency.Mapping

/-! The register map through any history of requests. However it is used, its two sides stay inverse
    to each other, and no more host registers are taken than the budget allows. A request gives up
    at most one mapping, never that of a pinned register, and fails only where every host register
    holds a pinned one. -/

namespace MipsOnArm
open Guest

namespace RegisterMap

variable {m : RegisterMap} {r : Reg} {need : Need} {n : Nat}

/-- How many host registers a budget of `n` allows: no less than three, and no more than there
    are. -/
def capacity (n : Nat) : Nat := max 3 (min n Host.Reg.allocatable.length)

theorem budgetOf_eq_take (n : Nat) : budgetOf n = Host.Reg.allocatable.take (capacity n) := by
  have hlength : Host.Reg.allocatable.length = 9 := rfl
  rw [budgetOf, List.take_eq_take_iff, capacity]
  omega

theorem length_budgetOf (n : Nat) : (budgetOf n).length = capacity n := by
  have hlength : Host.Reg.allocatable.length = 9 := rfl
  rw [budgetOf, List.length_take, capacity]
  omega

/-- Each mapped register takes a host register of its own. -/
theorem WellFormed.occupancy_le (hm : m.WellFormed) : m.occupancy ≤ m.budget.length := by
  have hcount : m.occupancy = (Reg.all.filterMap m.host?).length := by
    rw [List.length_filterMap_eq_countP]
    rfl
  have hnodup : (Reg.all.filterMap m.host?).Nodup :=
    (List.nodup_finRange 32).filterMap fun q r h hq hr => hm.host_inj hq hr
  have hsub : Reg.all.filterMap m.host? ⊆ m.budget := by
    intro h hh
    obtain ⟨r, -, hr⟩ := List.mem_filterMap.mp hh
    exact hm.within r h hr
  rw [hcount]
  exact (hnodup.subperm hsub).length_le

/-! ### What a request gives up -/

/-- A request leaves every mapping as it is, but for that of at most one register, which is not
    pinned. -/
theorem WellFormed.exists_evicted (hm : m.WellFormed) {e : Emitted Host.Reg}
    (he : (Emit.map r need).run m = .ok e) : ∃ evicted : Option Reg,
    (∀ v, evicted = some v → (m.residence v).pinned = false) ∧
      ∀ q h, m.host? q = some h → evicted ≠ some q → e.map.host? q = some h := by
  cases hr : m.host? r with
  | some k =>
    rw [Emit.run_map_of_mapped hr] at he
    cases he
    refine ⟨none, nofun, fun q h hq _ => ?_⟩
    rw [host?_touch, host?_tick, hq]
  | none =>
    have hne : ∀ q h, m.host? q = some h → q ≠ r := by
      rintro q h hq rfl
      cases hr.symm.trans hq
    cases hf : m.firstFree? with
    | some k =>
      rw [Emit.run_map_of_free hr hf] at he
      cases he
      refine ⟨none, nofun, fun q h hq _ => ?_⟩
      rw [host?_settle, if_neg (hne q h hq), host?_tick, hq]
    | none =>
      cases hv : m.victim? with
      | none =>
        rw [Emit.run_map_of_exhausted hr hf hv] at he
        cases he
      | some v =>
        obtain ⟨⟨k, -, hown⟩, hpin⟩ := victim?_eq_some hv
        rw [Emit.run_map_of_victim hr hf hv ((hm.inverse v k).mpr hown)] at he
        cases he
        refine ⟨some v, fun w hw => Option.some.inj hw ▸ hpin, fun q h hq hqv => ?_⟩
        have hne' : q ≠ v := fun e => hqv (e ▸ rfl)
        rw [host?_settle, if_neg (hne q h hq), host?_flush, if_neg hne', host?_tick, hq]

/-! ### Any history -/

/-- The maps that come about from a fresh one with a budget of `n`. Any register may be asked for,
    with or without need of its value or of a place to write. -/
inductive Maintained (n : Nat) : RegisterMap → Prop
  | fresh : Maintained n (RegisterMap.fresh n)
  | map {m : RegisterMap} {r : Reg} {need : Need} {e : Emitted Host.Reg} (hm : Maintained n m)
      (he : (Emit.map r need).run m = .ok e) : Maintained n e.map
  | pin {m : RegisterMap} (rs : List Reg) (hm : Maintained n m) : Maintained n (m.pin rs)
  | unpin {m : RegisterMap} (hm : Maintained n m) : Maintained n m.unpin
  | flush {m : RegisterMap} (r : Reg) (hm : Maintained n m) : Maintained n (m.flush r).2
  | flushAll {m : RegisterMap} (hm : Maintained n m) : Maintained n m.flushAll.2
  | reset {m : RegisterMap} (hm : Maintained n m) : Maintained n m.reset

/-- Every way of using a map keeps it well-formed and its budget the same. -/
theorem Maintained.wellFormed (h : Maintained n m) : m.WellFormed ∧ m.budget = budgetOf n := by
  induction h with
  | fresh => exact ⟨wellFormed_fresh n, rfl⟩
  | map _ he ih =>
    have hmapped := ih.1.mapped_of_run he
    exact ⟨hmapped.wellFormed, hmapped.budget.trans ih.2⟩
  | pin rs _ ih => exact ⟨ih.1.pin rs, (budget_pin _ rs).trans ih.2⟩
  | unpin _ ih => exact ⟨ih.1.unpin, ih.2⟩
  | flush r _ ih => exact ⟨ih.1.flush r, (budget_flush _ r).trans ih.2⟩
  | flushAll _ ih => exact ⟨ih.1.flushAll, (budget_flushAll _).trans ih.2⟩
  | reset _ ih =>
    rw [RegisterMap.reset, ih.2]
    exact ⟨wellFormed_fresh n, rfl⟩

/-- From `m` to `m'` the register is taken out of the host register that holds it. -/
def Loses (m m' : RegisterMap) (q : Reg) : Prop :=
  (m.host? q).isSome = true ∧ m'.host? q ≠ m.host? q

/-- However a map is used, guest and host registers are assigned to each other one to one, within
    the budget and apart from the registers with a part of their own, and only registers that have
    to be stored are dirty. A request takes at most one register out of its host register, and no
    pinned one; it fails exactly when its register is nowhere and every host register of the budget
    holds a pinned register. -/
theorem inverse_of_maintained (h : Maintained n m) :
    (∀ r k, m.host? r = some k ↔ m.owner k = some r) ∧
      (∀ q r k, m.host? q = some k → m.host? r = some k → q = r) ∧
      (∀ k r, m.owner k = some r → k ∈ Host.Reg.allocatable.take (capacity n) ∧
        k ≠ Host.Reg.scratch ∧ k ≠ Host.Reg.savedFlags ∧ k ≠ Host.Reg.jumpDest ∧
          k ≠ Host.Reg.base) ∧
      m.occupancy ≤ capacity n ∧
      (∀ r, (m.residence r).dirty = true → (m.host? r).isSome = true ∧ r ≠ Reg.zero) ∧
      (∀ r need e, (Emit.map r need).run m = .ok e →
        (∀ q, (m.residence q).pinned = true → ¬ m.Loses e.map q) ∧
          ∀ q q', m.Loses e.map q → m.Loses e.map q' → q = q') ∧
      ∀ r need fault, (Emit.map r need).run m = .error fault ↔
        fault = .registersExhausted (capacity n) ∧ m.host? r = none ∧
          ∀ k ∈ Host.Reg.allocatable.take (capacity n),
            ∃ q, m.owner k = some q ∧ (m.residence q).pinned = true := by
  obtain ⟨hm, hbudget⟩ := h.wellFormed
  have htake : m.budget = Host.Reg.allocatable.take (capacity n) :=
    hbudget.trans (budgetOf_eq_take n)
  have hlength : m.budget.length = capacity n := hbudget ▸ length_budgetOf n
  refine ⟨hm.inverse, fun q r k hq hr => hm.host_inj hq hr, fun k r hk => ?_,
    hlength ▸ hm.occupancy_le, fun r hr => ?_, fun r need e he => ?_, fun r need fault => ?_⟩
  · have hmem : k ∈ m.budget := hm.within r k ((hm.inverse r k).mpr hk)
    obtain ⟨hscratch, hsaved, hbase⟩ := hm.ne_reserved hmem
    exact ⟨htake ▸ hmem, hscratch, hsaved, hsaved, hbase⟩
  · refine ⟨hm.dirtyMapped r hr, ?_⟩
    rintro rfl
    cases hm.zeroClean.symm.trans hr
  · obtain ⟨evicted, hpin, hkept⟩ := hm.exists_evicted he
    have hlost : ∀ q, m.Loses e.map q → evicted = some q := by
      rintro q ⟨hmapped, hmoved⟩
      obtain ⟨k, hk⟩ := Option.isSome_iff_exists.mp hmapped
      by_contra hne
      exact hmoved ((hkept q k hk hne).trans hk.symm)
    refine ⟨fun q hq hloses => ?_, fun q q' hq hq' => ?_⟩
    · cases (hpin q (hlost q hloses)).symm.trans hq
    · exact Option.some.inj ((hlost q hq).symm.trans (hlost q' hq'))
  · rw [hm.run_map_eq_error_iff, hlength, htake]

/-- With the least budget, four pinned registers do not fit. -/
theorem inverse_of_maintained_pinned : ∃ m, Maintained 0 m ∧ m.occupancy ≤ 3 ∧
    (Emit.map 11 .read).run m = .error (.registersExhausted 3) := by
  have h₀ : Maintained 0 _ := .pin [8, 9, 10, 11] .fresh
  have h₁ : Maintained 0 _ := h₀.map (show (Emit.map 8 .read).run _ = .ok _ from rfl)
  have h₂ : Maintained 0 _ := h₁.map (show (Emit.map 9 .write).run _ = .ok _ from rfl)
  have h₃ : Maintained 0 _ := h₂.map (show (Emit.map 10 ⟨false, false⟩).run _ = .ok _ from rfl)
  obtain ⟨-, -, -, hfit, -, -, hfail⟩ := inverse_of_maintained h₃
  exact ⟨_, h₃, hfit, (hfail 11 .read _).mpr ⟨rfl, rfl, by decide⟩⟩

end RegisterMap

end MipsOnArm
