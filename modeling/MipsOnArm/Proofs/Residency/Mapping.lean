import MipsOnArm.Proofs.Residency.Represents
import Mathlib.Data.List.Perm.Subperm
import Mathlib.Data.List.Nodup

/-! Bringing a guest register into a host register. A request finds the register mapped, or takes a
    free host register, or evicts the guest register used longest ago; while at most two others are
    pinned one of these always works. `Mapped` says what holds afterwards. -/

namespace MipsOnArm
open Guest

namespace RegisterMap

variable {m : RegisterMap} {r : Reg}

/-! ### Which host register is taken -/

theorem firstFree?_eq_some {h : Host.Reg} (hf : m.firstFree? = some h) :
    h ∈ m.budget ∧ m.owner h = none :=
  ⟨List.mem_of_find?_eq_some hf, by simpa using List.find?_some hf⟩

theorem exists_owner_of_firstFree?_none (hf : m.firstFree? = none) {h : Host.Reg}
    (hh : h ∈ m.budget) : ∃ q, m.owner h = some q := by
  have := List.find?_eq_none.mp hf h hh
  rwa [Option.isNone_iff_eq_none, ← Ne, Option.ne_none_iff_exists'] at this

theorem mem_of_leastRecent? {rs : List Reg} {v : Reg} (hv : m.leastRecent? rs = some v) :
    v ∈ rs := by
  induction rs generalizing v with
  | nil => simp [leastRecent?] at hv
  | cons q qs ih =>
    rw [leastRecent?] at hv
    cases hqs : m.leastRecent? qs with
    | none =>
      rw [hqs] at hv
      cases hv
      exact List.mem_cons_self
    | some w =>
      rw [hqs] at hv
      dsimp only at hv
      split at hv
      · cases hv; exact List.mem_cons_of_mem _ (ih hqs)
      · cases hv; exact List.mem_cons_self

theorem leastRecent?_eq_none {rs : List Reg} (hv : m.leastRecent? rs = none) : rs = [] := by
  cases rs with
  | nil => rfl
  | cons q qs =>
    rw [leastRecent?] at hv
    cases hqs : m.leastRecent? qs with
    | none => simp [hqs] at hv
    | some w =>
      rw [hqs] at hv
      dsimp only at hv
      split at hv <;> cases hv

theorem leastRecent?_tick (m : RegisterMap) (rs : List Reg) :
    m.tick.leastRecent? rs = m.leastRecent? rs := by
  induction rs with
  | nil => rfl
  | cons q qs ih =>
    simp only [leastRecent?, ih]
    rfl

theorem victim?_tick (m : RegisterMap) : m.tick.victim? = m.victim? := leastRecent?_tick m _

/-- The victim holds a host register of the budget and is not pinned. -/
theorem victim?_eq_some {v : Reg} (hv : m.victim? = some v) :
    (∃ h ∈ m.budget, m.owner h = some v) ∧ (m.residence v).pinned = false := by
  have hmem := mem_of_leastRecent? hv
  simpa using hmem

theorem pinned_of_victim?_none (hv : m.victim? = none) {h : Host.Reg} {q : Reg}
    (hh : h ∈ m.budget) (hq : m.owner h = some q) : (m.residence q).pinned = true := by
  have hmem : q ∈ m.budget.filterMap m.owner := List.mem_filterMap.mpr ⟨h, hh, hq⟩
  by_contra hp
  have : q ∈ (m.budget.filterMap m.owner).filter fun r => !(m.residence r).pinned :=
    List.mem_filter.mpr ⟨hmem, by simpa using hp⟩
  rw [leastRecent?_eq_none hv] at this
  exact List.not_mem_nil this

/-- At most two registers besides `r` are pinned. -/
def Room (m : RegisterMap) (r : Reg) : Prop :=
  ∃ others : List Reg, others.length ≤ 2 ∧
    ∀ q, (m.residence q).pinned = true → q = r ∨ q ∈ others

theorem Unpinned.room (hm : m.Unpinned) (r : Reg) : m.Room r :=
  ⟨[], by simp, fun q hq => by simp [hm q] at hq⟩

/-- Three host registers cannot all be held by two pinned guest registers. -/
theorem WellFormed.exists_victim (hm : m.WellFormed) (hroom : m.Room r) (hr : m.host? r = none)
    (hf : m.firstFree? = none) : ∃ v, m.victim? = some v := by
  obtain ⟨others, hlen, hothers⟩ := hroom
  rw [← Option.ne_none_iff_exists']
  intro hv
  obtain ⟨n, hn⟩ := hm.budgeted
  have howner : ∀ h ∈ m.budget, ∃ q ∈ others, m.owner h = some q := fun h hh => by
    obtain ⟨q, hq⟩ := exists_owner_of_firstFree?_none hf hh
    rcases hothers q (pinned_of_victim?_none hv hh hq) with rfl | hmem
    · rw [← hm.inverse, hr] at hq
      cases hq
    · exact ⟨q, hmem, hq⟩
  have hinj : ∀ h ∈ m.budget, ∀ k ∈ m.budget, m.owner h = m.owner k → h = k := fun h hh k _ e => by
    obtain ⟨q, -, hq⟩ := howner h hh
    have hk := e ▸ hq
    rw [← hm.inverse] at hq hk
    exact Option.some.inj (hq.symm.trans hk)
  have hnodup : (m.budget.map m.owner).Nodup :=
    List.Nodup.map_on hinj (hn ▸ budgetOf_nodup n)
  have hsub : m.budget.map m.owner ⊆ others.map some := fun o ho => by
    obtain ⟨h, hh, rfl⟩ := List.mem_map.mp ho
    obtain ⟨q, hq, e⟩ := howner h hh
    exact List.mem_map.mpr ⟨q, hq, e.symm⟩
  have hle := (hnodup.subperm hsub).length_le
  have hthree := three_le_length_budgetOf n
  simp only [List.length_map, hn] at hle
  omega

end RegisterMap

namespace Emit

variable {m : RegisterMap} {r : Reg} {need : Need}

theorem run_getMap (m : RegisterMap) : getMap.run m = .ok ⟨m, [], m⟩ := rfl

theorem run_modifyMap (f : RegisterMap → RegisterMap) (m : RegisterMap) :
    (modifyMap f).run m = .ok ⟨(), [], f m⟩ := rfl

theorem run_write (code : List Host.Instr) (m : RegisterMap) :
    (write code).run m = .ok ⟨(), code, m⟩ := rfl

theorem run_flush (r : Reg) (m : RegisterMap) :
    (flush r).run m = .ok ⟨(), (m.flush r).1, (m.flush r).2⟩ := rfl

theorem run_flushAll (m : RegisterMap) :
    flushAll.run m = .ok ⟨(), m.flushAll.1, m.flushAll.2⟩ := by
  simp only [run, flushAll]

/-! ### The ways of a request -/

/-- Whether a request makes the register dirty. -/
def soils (r : Reg) (need : Need) : Bool := need.place && r ≠ Reg.zero

theorem run_map_of_mapped {h : Host.Reg} (hr : m.host? r = some h) :
    (map r need).run m = .ok ⟨h, [], m.tick.touch r (soils r need)⟩ := by
  simp only [map, run_bind, run_modifyMap, run_getMap, RegisterMap.host?_tick, hr, run_pure]
  rfl

theorem run_map_of_free {h : Host.Reg} (hr : m.host? r = none) (hf : m.firstFree? = some h) :
    (map r need).run m = .ok ⟨h, fill r h need, m.tick.settle r h (soils r need)⟩ := by
  have hf' : m.tick.firstFree? = some h := hf
  simp only [map, run_bind, run_modifyMap, run_getMap, RegisterMap.host?_tick, hr, allocate, hf',
    run_write, run_pure, List.nil_append, List.append_nil]
  rfl

theorem run_map_of_victim {v : Reg} {h : Host.Reg} (hr : m.host? r = none)
    (hf : m.firstFree? = none) (hv : m.victim? = some v) (hh : m.host? v = some h) :
    (map r need).run m = .ok ⟨h, (m.tick.flush v).1 ++ fill r h need,
      (m.tick.flush v).2.settle r h (soils r need)⟩ := by
  have hf' : m.tick.firstFree? = none := hf
  simp only [map, run_bind, run_modifyMap, run_getMap, RegisterMap.host?_tick, hr, allocate, hf',
    RegisterMap.victim?_tick, hv, holder, hh, run_flush, run_write, run_pure, List.nil_append,
    List.append_nil]
  rfl

theorem run_map_of_exhausted (hr : m.host? r = none) (hf : m.firstFree? = none)
    (hv : m.victim? = none) :
    (map r need).run m = .error (.registersExhausted m.budget.length) := by
  have hf' : m.tick.firstFree? = none := hf
  simp only [map, run_bind, run_modifyMap, run_getMap, RegisterMap.host?_tick, hr, allocate, hf',
    RegisterMap.victim?_tick, hv]
  rfl

end Emit

/-! ### What a request leaves behind -/

/-- A newly mapped register has the value that its host register has, under a new name if the map
    now knows better than the stored state. -/
theorem Represents.settle {σ : Type} {m : RegisterMap} {x y : Host.Machine σ} {s : Cpu} {r : Reg}
    {h : Host.Reg} {d : Bool} {v : Word} (hx : Represents m x s) (hm : m.WellFormed)
    (hr : m.host? r = none) (hfree : m.owner h = none) (hcpu : y.cpu = x.cpu)
    (hregs : ∀ k, k ≠ h → y.reg k = x.reg k) (hv : y.reg h = (s.setGpr r v).gpr r)
    (hd : d = true ∨ v = s.gpr r) : Represents (m.settle r h d) y (s.setGpr r v) where
  held q k hq := by
    rw [RegisterMap.host?_settle] at hq
    split at hq
    · next hqr =>
      cases hq
      rw [hqr]; exact hv
    · next hqr =>
      have hk : k ≠ h := fun e => hm.owner_none hfree q (e ▸ hq)
      rw [Cpu.gpr_setGpr, if_neg (fun e => hqr e.1), hregs k hk]
      exact hx.held q k hq
  stored q hq := by
    rw [hcpu]
    by_cases hqr : q = r
    · subst q
      have hd' : d = false := by
        simpa [RegisterMap.host?_settle, RegisterMap.residence_settle] using hq
      have hv' : v = s.gpr r := hd.resolve_left (by simp [hd'])
      rw [hv', Cpu.setGpr_gpr]
      exact hx.stored r (.inl hr)
    · rw [Cpu.gpr_setGpr, if_neg (fun e => hqr e.1)]
      simp only [RegisterMap.host?_settle, RegisterMap.residence_settle, hqr, if_false] at hq
      exact hx.stored q hq
  rest f hf := by
    rw [hcpu, Cpu.get_setGpr_of_ne s r v f (hf r)]
    exact hx.rest f hf

/-- The code that fills a newly mapped register. -/
theorem Represents.fill {σ : Type} {m : RegisterMap} {x : Host.Machine σ} {s : Cpu} {r : Reg}
    {h : Host.Reg} {need : Need} (hx : Represents m x s) (hm : m.WellFormed)
    (hr : m.host? r = none) (hfree : m.owner h = none)
    (hneed : need.value = true ∨ need.place = true) : ∃ y v,
    Host.Follows (Emit.fill r h need) x y ∧
    Represents (m.settle r h (Emit.soils r need)) y (s.setGpr r v) ∧
    (need.value = true → v = s.gpr r) ∧ y.flags = x.flags := by
  have hset : ∀ w k, k ≠ h → (x.setReg h w).reg k = x.reg k := fun w k hk => by
    rw [Host.Machine.reg_setReg, if_neg hk]
  by_cases hz : r = Reg.zero
  · subst hz
    refine ⟨x.setReg h 0, 0, ?_, hx.settle hm hr hfree rfl (hset 0) ?_ (.inr ?_), ?_, rfl⟩
    · rw [Emit.fill, if_pos rfl]
      exact .single fun _ _ _ => rfl
    · simp [Host.Machine.reg_setReg]
    · simp
    · simp
  · by_cases hval : need.value = true
    · refine ⟨x.setReg h (x.cpu.gpr r), s.gpr r, ?_,
        hx.settle hm hr hfree rfl (hset _) ?_ (.inr rfl), fun _ => rfl, rfl⟩
      · rw [Emit.fill, if_neg hz, if_pos hval]
        exact .single (Host.step_load x h (.gpr r))
      · simp [Host.Machine.reg_setReg, Cpu.setGpr_gpr, hx.stored r (.inl hr)]
    · have hplace : need.place = true := hneed.resolve_left hval
      refine ⟨x, x.reg h, ?_, hx.settle hm hr hfree rfl (fun _ _ => rfl) ?_ (.inl ?_),
        fun e => absurd e hval, rfl⟩
      · rw [Emit.fill, if_neg hz, if_neg hval]
        exact .done x
      · simp [Cpu.gpr_setGpr, hz]
      · simp [Emit.soils, hplace, hz]

/-- What holds after a request for `r`: it is mapped, pinned registers stayed where they were, and
    the code changes no more of the guest state than the value of `r`, and that only if the value
    was not asked for. -/
structure Mapped (m : RegisterMap) (r : Reg) (need : Need) (e : Emitted Host.Reg) : Prop where
  wellFormed : e.map.WellFormed
  budget : e.map.budget = m.budget
  pinned : ∀ q, (e.map.residence q).pinned = (m.residence q).pinned
  host : e.map.host? r = some e.value
  keeps : ∀ q h, (m.residence q).pinned = true → m.host? q = some h → e.map.host? q = some h
  dirty : need.place = true → r ≠ Reg.zero → (e.map.residence r).dirty = true
  confined : ∀ i ∈ e.code, Host.Confined m.budget i
  carries : ∀ {σ : Type} (x : Host.Machine σ) (s : Cpu), Represents m x s →
    need.value = true ∨ need.place = true → ∃ y v, Host.Follows e.code x y ∧
      Represents e.map y (s.setGpr r v) ∧
      (need.value = true ∨ (m.host? r).isSome = true → v = s.gpr r) ∧ y.flags = x.flags

namespace RegisterMap.WellFormed

variable {m : RegisterMap} {r : Reg} {need : Need}

theorem confined_fill {h : Host.Reg} (hh : h ∈ m.budget) :
    ∀ i ∈ Emit.fill r h need, Host.Confined m.budget i := by
  intro i hi
  rw [Emit.fill] at hi
  split at hi
  · cases List.mem_singleton.mp hi; exact .movImm hh 0
  · next hz =>
    split at hi
    · cases List.mem_singleton.mp hi; exact .load hh hz
    · exact absurd hi List.not_mem_nil

theorem mapped_of_mapped (hm : m.WellFormed) {h : Host.Reg} (hr : m.host? r = some h) :
    Mapped m r need ⟨h, [], m.tick.touch r (Emit.soils r need)⟩ where
  wellFormed := hm.tick.touch (by simp [hr]) (by simp [Emit.soils])
  budget := rfl
  pinned q := by
    rw [residence_touch]
    split
    · next hq => rw [hq]; rfl
    · rfl
  host := by simp [hr]
  keeps q k _ hq := by simpa using hq
  dirty hp hz := by simp [residence_touch, Emit.soils, hp, hz]
  confined := by simp
  carries x s hx _ := by
    refine ⟨x, s.gpr r, .done x, ?_, fun _ => rfl, rfl⟩
    rw [Cpu.setGpr_gpr]
    refine ⟨fun q k hq => hx.held q k (by simpa using hq), fun q hq => hx.stored q ?_, hx.rest⟩
    refine hq.imp (fun e => by simpa using e) fun e => ?_
    rw [residence_touch] at e
    split at e
    · next hqr => rw [hqr]; exact (Bool.or_eq_false_iff.mp e).1
    · exact e

theorem mapped_of_free (hm : m.WellFormed) {h : Host.Reg} (hr : m.host? r = none)
    (hh : h ∈ m.budget) (hfree : m.owner h = none) :
    Mapped m r need ⟨h, Emit.fill r h need, m.settle r h (Emit.soils r need)⟩ where
  wellFormed := hm.settle hr hfree hh (by simp [Emit.soils])
  budget := rfl
  pinned q := by
    rw [residence_settle]
    split
    · next hq => rw [hq]
    · rfl
  host := by simp [host?_settle]
  keeps q k _ hq := by
    have hqr : q ≠ r := fun e => by simp [e, hr] at hq
    simpa [host?_settle, hqr] using hq
  dirty hp hz := by simp [residence_settle, Emit.soils, hp, hz]
  confined := confined_fill hh
  carries x s hx hneed := by
    obtain ⟨y, v, hxy, hy, hv, hflags⟩ := hx.fill hm hr hfree hneed
    exact ⟨y, v, hxy, hy, fun e => hv (e.resolve_right (by simp [hr])), hflags⟩

/-- Another register that is not pinned may be flushed before. -/
theorem mapped_of_flush (hm : m.WellFormed) {v : Reg} {e : Emitted Host.Reg}
    (hr : m.host? r = none) (hpin : (m.residence v).pinned = false)
    (he : Mapped (m.flush v).2 r need e) :
    Mapped m r need ⟨e.value, (m.flush v).1 ++ e.code, e.map⟩ where
  wellFormed := he.wellFormed
  budget := he.budget.trans (budget_flush m v)
  pinned q := (he.pinned q).trans (pinned_flush m v q)
  host := he.host
  keeps q k hq hk := by
    have hqv : q ≠ v := by
      rintro rfl
      simp [hpin] at hq
    refine he.keeps q k ?_ ?_
    · rw [pinned_flush]; exact hq
    · rw [host?_flush, if_neg hqv, hk]
  dirty := he.dirty
  confined i hi := by
    rcases List.mem_append.mp hi with hi | hi
    · exact confined_flush hm v i hi
    · exact budget_flush m v ▸ he.confined i hi
  carries x s hx hneed := by
    obtain ⟨y, hxy, hy, honly⟩ := hx.flush v
    obtain ⟨z, w, hyz, hz, hw, hflags⟩ := he.carries y s hy hneed
    exact ⟨z, w, hxy.append hyz, hz, fun e => hw (e.imp id (by simp [hr])),
      hflags.trans honly.flags⟩

theorem mapped_of_tick {e : Emitted Host.Reg} (he : Mapped m.tick r need e) :
    Mapped m r need e where
  wellFormed := he.wellFormed
  budget := he.budget
  pinned := he.pinned
  host := he.host
  keeps := he.keeps
  dirty := he.dirty
  confined := he.confined
  carries x s hx := he.carries x s (hx.congr (fun _ => rfl) (fun _ => rfl))

/-- A request leaves the map as `Mapped` says, unless all host registers hold pinned registers. -/
theorem run_map_cases (hm : m.WellFormed) (r : Reg) (need : Need) :
    (∃ e, (Emit.map r need).run m = .ok e ∧ Mapped m r need e) ∨
      m.host? r = none ∧ m.firstFree? = none ∧ m.victim? = none ∧
        (Emit.map r need).run m = .error (.registersExhausted m.budget.length) := by
  cases hr : m.host? r with
  | some h => exact .inl ⟨_, Emit.run_map_of_mapped hr, hm.mapped_of_mapped hr⟩
  | none =>
    cases hf : m.firstFree? with
    | some h =>
      obtain ⟨hh, hfree⟩ := firstFree?_eq_some hf
      exact .inl ⟨_, Emit.run_map_of_free hr hf,
        mapped_of_tick (hm.tick.mapped_of_free hr hh hfree)⟩
    | none =>
      cases hv : m.victim? with
      | none => exact .inr ⟨rfl, rfl, rfl, Emit.run_map_of_exhausted hr hf hv⟩
      | some v =>
        obtain ⟨⟨h, -, hown⟩, hpin⟩ := victim?_eq_some hv
        have hh : m.host? v = some h := (hm.inverse v h).mpr hown
        -- flushing the victim frees its host register
        have hr' : (m.tick.flush v).2.host? r = none := by
          rw [host?_flush, host?_tick, hr, ite_self]
        have hmem : h ∈ (m.tick.flush v).2.budget := by
          rw [budget_flush]; exact hm.within v h hh
        have hfree : (m.tick.flush v).2.owner h = none := by
          rw [flush_of_mapped (m := m.tick) hh, owner_setOwner, if_pos rfl]
        have hkept : Mapped (m.tick.flush v).2 r need _ :=
          (hm.tick.flush v).mapped_of_free hr' hmem hfree
        exact .inl ⟨_, Emit.run_map_of_victim hr hf hv hh,
          mapped_of_tick (hm.tick.mapped_of_flush hr hpin hkept)⟩

/-- With room for it, a register can always be mapped. -/
theorem exists_run_map (hm : m.WellFormed) (r : Reg) (need : Need) (hroom : m.Room r) :
    ∃ e, (Emit.map r need).run m = .ok e ∧ Mapped m r need e := by
  rcases hm.run_map_cases r need with hrun | ⟨hr, hf, hv, -⟩
  · exact hrun
  · obtain ⟨v, hv'⟩ := hm.exists_victim hroom hr hf
    cases hv.symm.trans hv'

theorem mapped_of_run (hm : m.WellFormed) {e : Emitted Host.Reg}
    (he : (Emit.map r need).run m = .ok e) : Mapped m r need e := by
  rcases hm.run_map_cases r need with ⟨e', hrun, hmapped⟩ | ⟨-, -, -, hrun⟩
  · cases he.symm.trans hrun
    exact hmapped
  · cases he.symm.trans hrun

/-- A request fails just when its register is nowhere and every host register of the budget holds a
    pinned register. -/
theorem run_map_eq_error_iff (hm : m.WellFormed) (r : Reg) (need : Need)
    (fault : Fault) : (Emit.map r need).run m = .error fault ↔
      fault = .registersExhausted m.budget.length ∧ m.host? r = none ∧
        ∀ h ∈ m.budget, ∃ q, m.owner h = some q ∧ (m.residence q).pinned = true := by
  constructor
  · intro he
    rcases hm.run_map_cases r need with ⟨e, hrun, -⟩ | ⟨hr, hfree, hvictim, hrun⟩
    · cases hrun.symm.trans he
    · cases hrun.symm.trans he
      refine ⟨rfl, hr, fun h hh => ?_⟩
      obtain ⟨q, hq⟩ := exists_owner_of_firstFree?_none hfree hh
      exact ⟨q, hq, pinned_of_victim?_none hvictim hh hq⟩
  · rintro ⟨rfl, hr, hpinned⟩
    have hfree : m.firstFree? = none := by
      rw [firstFree?, List.find?_eq_none]
      intro h hh
      obtain ⟨q, hq, -⟩ := hpinned h hh
      simp [hq]
    cases hvictim : m.victim? with
    | none => exact Emit.run_map_of_exhausted hr hfree hvictim
    | some v =>
      -- a victim holds a host register of the budget without being pinned
      obtain ⟨⟨h, hh, hown⟩, hpin⟩ := victim?_eq_some hvictim
      obtain ⟨q, hq, hqpin⟩ := hpinned h hh
      cases hown.symm.trans hq
      cases hpin.symm.trans hqpin

end RegisterMap.WellFormed

end MipsOnArm
