import MipsOnArm.Proofs.Residency.Invariant

/-! Which register gives way to another. The times of last use that a map keeps stand for the order
    of the requests, as long as the clock has not come round. So a request for a mapped register
    costs nothing, one for another register takes the first host register that is free, and where
    none is free it takes that of the register which was asked for longest ago. -/

namespace MipsOnArm
open Guest

namespace RegisterMap

variable {m m' : RegisterMap} {r : Reg} {need : Need} {n : Nat} {asked : List Reg}

/-- The maps that come about from a fresh one with a budget of `n`, each with the registers that
    were asked for since the map was fresh or was last reset, the latest first. -/
inductive Asked (n : Nat) : (asked : List Reg) → RegisterMap → Prop
  | fresh : Asked n [] (RegisterMap.fresh n)
  | reset {asked : List Reg} {m : RegisterMap} (hm : Asked n asked m) : Asked n [] m.reset
  | map {asked : List Reg} {m : RegisterMap} {r : Reg} {need : Need} {e : Emitted Host.Reg}
      (hm : Asked n asked m) (he : (Emit.map r need).run m = .ok e) : Asked n (r :: asked) e.map
  | pin {asked : List Reg} {m : RegisterMap} (rs : List Reg) (hm : Asked n asked m) :
      Asked n asked (m.pin rs)
  | unpin {asked : List Reg} {m : RegisterMap} (hm : Asked n asked m) : Asked n asked m.unpin
  | flush {asked : List Reg} {m : RegisterMap} (r : Reg) (hm : Asked n asked m) :
      Asked n asked (m.flush r).2
  | flushAll {asked : List Reg} {m : RegisterMap} (hm : Asked n asked m) :
      Asked n asked m.flushAll.2

theorem Asked.maintained (h : Asked n asked m) : Maintained n m := by
  induction h with
  | fresh => exact .fresh
  | reset _ ih => exact .reset ih
  | map _ he ih => exact .map ih he
  | pin rs _ ih => exact .pin rs ih
  | unpin _ ih => exact .unpin ih
  | flush r _ ih => exact .flush r ih
  | flushAll _ ih => exact .flushAll ih

/-! ### Times of last use -/

theorem clock_pin (m : RegisterMap) (rs : List Reg) : (m.pin rs).clock = m.clock := by
  induction rs generalizing m with
  | nil => rfl
  | cons x xs ih => exact ih _

theorem clock_flush (m : RegisterMap) (r : Reg) : (m.flush r).2.clock = m.clock := by
  cases hr : m.host? r with
  | none => rw [flush_of_unmapped hr]
  | some h => rw [flush_of_mapped hr]; rfl

theorem lastUse_flush (m : RegisterMap) (r q : Reg) :
    ((m.flush r).2.residence q).lastUse = (m.residence q).lastUse := by
  rw [residence_flush]
  split
  · next hq => rw [hq.1]
  · rfl

theorem clock_flushEach (m : RegisterMap) (rs : List Reg) :
    (m.flushEach rs).2.clock = m.clock := by
  induction rs generalizing m with
  | nil => rfl
  | cons r rs ih => exact (ih (m.flush r).2).trans (clock_flush m r)

theorem lastUse_flushEach (m : RegisterMap) (rs : List Reg) (q : Reg) :
    ((m.flushEach rs).2.residence q).lastUse = (m.residence q).lastUse := by
  induction rs generalizing m with
  | nil => rfl
  | cons r rs ih => exact (ih (m.flush r).2).trans (lastUse_flush m r q)

theorem clock_flushAll (m : RegisterMap) : m.flushAll.2.clock = m.clock := by
  rw [flushAll, clock_flushEach]

theorem lastUse_flushAll (m : RegisterMap) (q : Reg) :
    (m.flushAll.2.residence q).lastUse = (m.residence q).lastUse := by
  rw [flushAll, lastUse_flushEach]

/-- A request takes one unit of time, which is noted for its register only. -/
theorem WellFormed.times_of_run (hm : m.WellFormed) {e : Emitted Host.Reg}
    (he : (Emit.map r need).run m = .ok e) :
    e.map.clock = m.clock + 1 ∧ (e.map.residence r).lastUse = m.clock + 1 ∧
      ∀ q, q ≠ r → (e.map.host? q).isSome = true →
        (m.host? q).isSome = true ∧ (e.map.residence q).lastUse = (m.residence q).lastUse := by
  cases hr : m.host? r with
  | some k =>
    rw [Emit.run_map_of_mapped hr] at he
    cases he
    refine ⟨rfl, by rw [residence_touch, if_pos rfl]; rfl, fun q hq hmapped => ?_⟩
    rw [residence_touch, if_neg hq]
    exact ⟨by simpa using hmapped, rfl⟩
  | none =>
    cases hf : m.firstFree? with
    | some k =>
      rw [Emit.run_map_of_free hr hf] at he
      cases he
      refine ⟨rfl, by rw [residence_settle, if_pos rfl]; rfl, fun q hq hmapped => ?_⟩
      rw [host?_settle, if_neg hq] at hmapped
      rw [residence_settle, if_neg hq]
      exact ⟨hmapped, rfl⟩
    | none =>
      cases hv : m.victim? with
      | none =>
        rw [Emit.run_map_of_exhausted hr hf hv] at he
        cases he
      | some v =>
        obtain ⟨⟨k, -, hown⟩, -⟩ := victim?_eq_some hv
        rw [Emit.run_map_of_victim hr hf hv ((hm.inverse v k).mpr hown)] at he
        cases he
        have hclock : (m.tick.flush v).2.clock = m.clock + 1 := clock_flush m.tick v
        refine ⟨hclock, by rw [residence_settle, if_pos rfl]; exact hclock, fun q hq hmapped => ?_⟩
        rw [host?_settle, if_neg hq, host?_flush] at hmapped
        rw [residence_settle, if_neg hq, lastUse_flush]
        split at hmapped
        · cases hmapped
        · exact ⟨hmapped, rfl⟩

/-- The clock counts the requests, and the time of last use of a mapped register is that of the
    latest request for it. -/
structure Recorded (asked : List Reg) (m : RegisterMap) : Prop where
  clock : m.clock.toNat = asked.length
  lastUse : ∀ q, (m.host? q).isSome = true →
    q ∈ asked ∧ (m.residence q).lastUse.toNat + asked.idxOf q = asked.length

namespace Recorded

/-- Mappings may be dropped. -/
theorem mono (h : Recorded asked m) (hclock : m'.clock = m.clock)
    (hmapped : ∀ q, (m'.host? q).isSome = true → (m.host? q).isSome = true)
    (hlast : ∀ q, (m'.residence q).lastUse = (m.residence q).lastUse) : Recorded asked m' where
  clock := by rw [hclock, h.clock]
  lastUse q hq := by rw [hlast]; exact h.lastUse q (hmapped q hq)

/-- A request puts its register in front. -/
theorem ask (h : Recorded asked m) (hm : m.WellFormed) (hlength : asked.length < 0xffffffff)
    {e : Emitted Host.Reg} (he : (Emit.map r need).run m = .ok e) :
    Recorded (r :: asked) e.map := by
  obtain ⟨hclock, hlast, hothers⟩ := hm.times_of_run he
  have hnow : (m.clock + 1).toNat = asked.length + 1 := by
    have := h.clock
    rw [BitVec.toNat_add, this]
    exact Nat.mod_eq_of_lt (Nat.succ_lt_succ hlength)
  refine ⟨by rw [hclock, hnow, List.length_cons], fun q hq => ?_⟩
  by_cases hqr : q = r
  · rw [hqr, hlast, hnow, List.idxOf_cons_self, List.length_cons]
    exact ⟨List.mem_cons_self, rfl⟩
  · obtain ⟨hmapped, hsame⟩ := hothers q hqr hq
    obtain ⟨hmem, hsum⟩ := h.lastUse q hmapped
    rw [hsame, List.idxOf_cons_ne _ (Ne.symm hqr), List.length_cons]
    exact ⟨List.mem_cons_of_mem r hmem, by omega⟩

/-- Of two mapped registers the one that was used earlier was asked for longer ago. -/
theorem idxOf_lt (h : Recorded asked m) {q v : Reg} (hq : (m.host? q).isSome = true)
    (hv : (m.host? v).isSome = true) (hne : q ≠ v)
    (hle : (m.residence v).lastUse ≤ (m.residence q).lastUse) :
    asked.idxOf q < asked.idxOf v := by
  obtain ⟨hmemq, hsumq⟩ := h.lastUse q hq
  obtain ⟨-, hsumv⟩ := h.lastUse v hv
  have htimes : (m.residence v).lastUse.toNat ≤ (m.residence q).lastUse.toNat := hle
  have hdistinct : asked.idxOf q ≠ asked.idxOf v := fun e => hne ((List.idxOf_inj hmemq).mp e)
  omega

end Recorded

/-- As long as the clock has not come round, its times tell the order of the requests. -/
theorem Asked.recorded (h : Asked n asked m) (hlength : asked.length ≤ 0xffffffff) :
    Recorded asked m := by
  induction h with
  | fresh => exact ⟨rfl, fun q hq => by simp [RegisterMap.fresh] at hq⟩
  | reset => exact ⟨rfl, fun q hq => by simp [RegisterMap.reset] at hq⟩
  | @map asked m r need e hm he ih =>
    have hshorter : asked.length < 0xffffffff := by
      rw [List.length_cons] at hlength
      omega
    exact (ih (Nat.le_of_lt hshorter)).ask hm.maintained.wellFormed.1 hshorter he
  | pin rs _ ih => exact (ih hlength).mono (clock_pin _ rs) (fun q => by simp) fun q => by simp
  | unpin _ ih => exact (ih hlength).mono rfl (fun q => by simp) fun q => by simp
  | flush r _ ih =>
    refine (ih hlength).mono (clock_flush _ r) (fun q hq => ?_) fun q => lastUse_flush _ r q
    rw [host?_flush] at hq
    split at hq
    · cases hq
    · exact hq
  | @flushAll asked m _ ih =>
    refine (ih hlength).mono m.clock_flushAll (fun q hq => ?_) m.lastUse_flushAll
    rw [flushed_flushAll] at hq
    cases hq

/-! ### The victim -/

/-- The register that is chosen was used no later than any other. -/
theorem lastUse_le_of_leastRecent? {rs : List Reg} {v : Reg} (hv : m.leastRecent? rs = some v) :
    ∀ q ∈ rs, (m.residence v).lastUse ≤ (m.residence q).lastUse := by
  induction rs generalizing v with
  | nil => exact fun q hq => absurd hq List.not_mem_nil
  | cons x xs ih =>
    rw [leastRecent?] at hv
    cases hxs : m.leastRecent? xs with
    | none =>
      rw [hxs] at hv
      cases hv
      rw [leastRecent?_eq_none hxs]
      intro q hq
      rw [List.mem_singleton.mp hq]
      exact BitVec.le_refl _
    | some w =>
      rw [hxs] at hv
      dsimp only at hv
      split at hv
      · next hlt =>
        cases hv
        exact List.forall_mem_cons.mpr ⟨BitVec.le_of_lt hlt, ih hxs⟩
      · next hle =>
        cases hv
        have hfirst : (m.residence x).lastUse ≤ (m.residence w).lastUse := BitVec.not_lt.mp hle
        exact List.forall_mem_cons.mpr
          ⟨BitVec.le_refl _, fun q hq => BitVec.le_trans hfirst (ih hxs q hq)⟩

/-- If some mapped register is not pinned, the victim is the one of those that was asked for longest
    ago. -/
theorem WellFormed.exists_victim_of_recorded (hm : m.WellFormed) (h : Recorded asked m)
    {q : Reg} (hq : (m.host? q).isSome = true) (hpin : (m.residence q).pinned = false) :
    ∃ v, m.victim? = some v ∧ (m.host? v).isSome = true ∧ (m.residence v).pinned = false ∧
      ∀ q, q ≠ v → (m.host? q).isSome = true → (m.residence q).pinned = false →
        asked.idxOf q < asked.idxOf v := by
  have hcandidate : ∀ {q : Reg}, (m.host? q).isSome = true →
      ∃ k ∈ m.budget, m.owner k = some q := by
    intro q hq
    obtain ⟨k, hk⟩ := Option.isSome_iff_exists.mp hq
    exact ⟨k, hm.within q k hk, (hm.inverse q k).mp hk⟩
  cases hv : m.victim? with
  | none =>
    obtain ⟨k, hk, hown⟩ := hcandidate hq
    cases hpin.symm.trans (pinned_of_victim?_none hv hk hown)
  | some v =>
    obtain ⟨⟨k, -, hown⟩, hvpin⟩ := victim?_eq_some hv
    have hvmapped : (m.host? v).isSome = true := by
      rw [(hm.inverse v k).mpr hown]
      rfl
    refine ⟨v, rfl, hvmapped, hvpin, fun x hne hx hxpin => ?_⟩
    obtain ⟨l, hl, hxown⟩ := hcandidate hx
    have hmem : x ∈ (m.budget.filterMap m.owner).filter fun r => !(m.residence r).pinned :=
      List.mem_filter.mpr ⟨List.mem_filterMap.mpr ⟨l, hl, hxown⟩, by rw [hxpin]; rfl⟩
    exact h.idxOf_lt hx hvmapped hne (lastUse_le_of_leastRecent? hv x hmem)

/-- What a request does, however the map was used before. For a mapped register it writes no code
    and keeps all mappings. For another one it takes the first host register of the budget that is
    free and gives up no mapping; where none is free but some mapped register is not pinned, it
    takes that of the one of those that was asked for longest ago, which is stored first just if it
    is dirty. The code after that gives register 0 its constant, or loads the value if it is
    needed. -/
theorem run_map_of_asked (h : Asked n asked m) (hlength : asked.length < 0xffffffff) (r : Reg)
    (need : Need) :
    (∀ k, m.host? r = some k → ∃ e, (Emit.map r need).run m = .ok e ∧ e.value = k ∧ e.code = [] ∧
      ∀ q, e.map.host? q = m.host? q) ∧
    (∀ k, m.host? r = none →
      (Host.Reg.allocatable.take (capacity n)).find? (fun k => (m.owner k).isNone) = some k →
      ∃ e, (Emit.map r need).run m = .ok e ∧ e.value = k ∧
        e.code = (if r = Reg.zero then [.movImm k 0]
          else if need.value then [.load k (Field.gpr r).offset] else []) ∧
        ∀ q, e.map.host? q = if q = r then some k else m.host? q) ∧
    (m.host? r = none →
      (∀ k ∈ Host.Reg.allocatable.take (capacity n), (m.owner k).isSome = true) →
      (∃ q, (m.host? q).isSome = true ∧ (m.residence q).pinned = false) →
      ∃ v k e, m.host? v = some k ∧ (m.residence v).pinned = false ∧ v ∈ asked ∧
        (∀ q, q ≠ v → (m.host? q).isSome = true → (m.residence q).pinned = false →
          asked.idxOf q < asked.idxOf v) ∧
        (Emit.map r need).run m = .ok e ∧ e.value = k ∧
        e.code = (if (m.residence v).dirty then [.store k (Field.gpr v).offset] else []) ++
          (if r = Reg.zero then [.movImm k 0]
            else if need.value then [.load k (Field.gpr r).offset] else []) ∧
        ∀ q, e.map.host? q = if q = r then some k else if q = v then none else m.host? q) := by
  obtain ⟨hm, hbudget⟩ := h.maintained.wellFormed
  have htake : m.budget = Host.Reg.allocatable.take (capacity n) :=
    hbudget.trans (budgetOf_eq_take n)
  refine ⟨fun k hk => ?_, fun k hr hk => ?_, fun hr howned hsome => ?_⟩
  · exact ⟨_, Emit.run_map_of_mapped hk, rfl, rfl, fun q => host?_touch m.tick r q _⟩
  · have hfree : m.firstFree? = some k := by rw [firstFree?, htake, hk]
    exact ⟨_, Emit.run_map_of_free hr hfree, rfl, rfl, fun q => host?_settle m.tick r q k _⟩
  · have hrecorded := h.recorded (Nat.le_of_lt hlength)
    have hfree : m.firstFree? = none := by
      rw [firstFree?, htake, List.find?_eq_none]
      intro k hk
      rw [← Option.not_isSome, howned k hk]
      decide
    obtain ⟨q, hq, hpin⟩ := hsome
    obtain ⟨v, hv, hvmapped, hvpin, hlongest⟩ := hm.exists_victim_of_recorded hrecorded hq hpin
    obtain ⟨k, hk⟩ := Option.isSome_iff_exists.mp hvmapped
    have hk' : m.tick.host? v = some k := hk
    refine ⟨v, k, _, hk, hvpin, (hrecorded.lastUse v hvmapped).1, hlongest,
      Emit.run_map_of_victim hr hfree hv hk, rfl, ?_, fun q => ?_⟩
    · rw [flush_of_mapped hk']
      rfl
    · rw [host?_settle, host?_flush, host?_tick]

/-- The register that was asked for twice stays, and the next one in line is stored. -/
theorem run_map_of_asked_twice : ∃ m e, Asked 0 [8, 10, 9, 8] m ∧
    (Emit.map 11 .read).run m = .ok e ∧ e.code = [.store 5 36, .load 5 44] ∧
      e.map.host? 9 = none ∧ e.map.host? 8 = some 4 := by
  have h₁ : Asked 0 [8] _ := .map .fresh (show (Emit.map 8 .read).run _ = .ok _ from rfl)
  have h₂ : Asked 0 [9, 8] _ := h₁.map (show (Emit.map 9 .write).run _ = .ok _ from rfl)
  have h₃ : Asked 0 [10, 9, 8] _ := h₂.map (show (Emit.map 10 .read).run _ = .ok _ from rfl)
  have h₄ : Asked 0 [8, 10, 9, 8] _ := h₃.map (show (Emit.map 8 .read).run _ = .ok _ from rfl)
  obtain ⟨v, k, e, hk, -, hmem, hlongest, hrun, -, hcode, hhost⟩ :=
    (run_map_of_asked h₄ (by decide) 11 .read).2.2 rfl (by decide) ⟨8, by decide⟩
  have hlast : ∀ q : Reg, List.idxOf 9 [8, 10, 9, 8] < List.idxOf q [8, 10, 9, 8] →
      q ∉ [8, 10, 9, 8] := by decide
  have hv : v = 9 := by
    by_contra hne
    exact hlast v (hlongest 9 (Ne.symm hne) rfl rfl) hmem
  subst hv
  cases (show some 5 = some k from hk)
  exact ⟨_, e, h₄, hrun, hcode, hhost 9, hhost 8⟩

end RegisterMap

end MipsOnArm
