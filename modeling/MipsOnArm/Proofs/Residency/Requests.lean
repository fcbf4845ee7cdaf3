import MipsOnArm.Proofs.Residency.Mapping

/-! Several requests in a row, as one instruction makes them: the registers it names are pinned, its
    sources are read, and its destination is written last. A source stays in its host register until
    the computation, even where it is the destination. -/

namespace MipsOnArm
open Guest

variable {σ : Type} {m : RegisterMap} {x : Host.Machine σ} {s : Cpu} {r : Reg}

/-- A map between two instructions: nothing is pinned. -/
structure RegisterMap.Idle (m : RegisterMap) : Prop extends m.WellFormed where
  unpinned : m.Unpinned

/-- Only registers of `rs` are pinned. -/
def RegisterMap.PinsIn (m : RegisterMap) (rs : List Reg) : Prop :=
  ∀ q, (m.residence q).pinned = true → q ∈ rs

namespace RegisterMap

theorem idle_fresh (n : Nat) : (fresh n).Idle :=
  ⟨wellFormed_fresh n, fun r => by simp [fresh, Residence.none]⟩

theorem Idle.pinsIn_pin (hm : m.Idle) (rs : List Reg) : (m.pin rs).PinsIn rs := fun q hq => by
  simpa [hm.unpinned q] using hq

theorem PinsIn.room {rs : List Reg} (hm : m.PinsIn rs) (hlen : rs.length ≤ 3) (hr : r ∈ rs) :
    m.Room r := by
  refine ⟨rs.erase r, ?_, fun q hq => ?_⟩
  · rw [List.length_erase_of_mem hr]; omega
  · by_cases hqr : q = r
    · exact .inl hqr
    · exact .inr ((List.mem_erase_of_ne hqr).mpr (hm q hq))

theorem WellFormed.idle_unpin (hm : m.WellFormed) : m.unpin.Idle :=
  ⟨hm.unpin, unpinned_unpin m⟩

theorem Idle.flushAll (hm : m.Idle) : m.flushAll.2.Idle := by
  refine ⟨hm.toWellFormed.flushAll, fun q => ?_⟩
  rw [pinned_flushAll]
  exact hm.unpinned q

end RegisterMap

namespace Represents

theorem pin (hx : Represents m x s) (rs : List Reg) : Represents (m.pin rs) x s :=
  hx.congr (by simp) (by simp)

theorem unpin (hx : Represents m x s) : Represents m.unpin x s :=
  hx.congr (by simp) (by simp)

end Represents

namespace Mapped

variable {need : Need} {e : Emitted Host.Reg}

theorem idle (he : Mapped m r need e) (hm : m.Idle) : e.map.Idle :=
  ⟨he.wellFormed, fun q => (he.pinned q).trans (hm.unpinned q)⟩

/-- A pinned register is where it was, and still pinned. -/
theorem keeps_pinned (he : Mapped m r need e) {q : Reg} {h : Host.Reg}
    (hq : m.host? q = some h ∧ (m.residence q).pinned = true) :
    e.map.host? q = some h ∧ (e.map.residence q).pinned = true :=
  ⟨he.keeps q h hq.2 hq.1, (he.pinned q).trans hq.2⟩

/-- A request to read changes nothing of the guest state. -/
theorem read (he : Mapped m r .read e) (hx : Represents m x s) :
    ∃ y, Host.Follows e.code x y ∧ Represents e.map y s ∧ y.flags = x.flags := by
  obtain ⟨y, v, hxy, hy, hv, hflags⟩ := he.carries x s hx (.inl rfl)
  rw [hv (.inl rfl), Cpu.setGpr_gpr] at hy
  exact ⟨y, hxy, hy, hflags⟩

/-- A request to write changes at most the register itself, and no source that is pinned. -/
theorem write (he : Mapped m r .write e) (hx : Represents m x s) :
    ∃ y v, Host.Follows e.code x y ∧ Represents e.map y (s.setGpr r v) ∧
      ∀ q h, m.host? q = some h ∧ (m.residence q).pinned = true → y.reg h = s.gpr q := by
  obtain ⟨y, v, hxy, hy, hv, -⟩ := he.carries x s hx (.inr rfl)
  refine ⟨y, v, hxy, hy, fun q h hq => ?_⟩
  rw [hy.held q h (he.keeps_pinned hq).1]
  by_cases hqr : q = r
  · subst q
    rw [hv (.inr (by simp [hq.1])), Cpu.setGpr_gpr]
  · rw [Cpu.gpr_setGpr, if_neg (fun e => hqr e.1)]

/-- The computed value becomes the value of the register that was asked for. -/
theorem finish (he : Mapped m r .write e) (hz : r ≠ Reg.zero) {y : Host.Machine σ} {v w : Word}
    {f : Host.Flags} (hy : Represents e.map y (s.setGpr r v)) :
    Represents e.map { y.setReg e.value w with flags := f } (s.setGpr r w) := by
  have hset := hy.setReg he.wellFormed he.host (he.dirty rfl hz) w
  rw [Cpu.setGpr_setGpr] at hset
  exact hset.of_regs rfl fun _ _ _ => rfl

end Mapped

/-- After `code` the map is `m₁`, and each register of `places` is pinned to its host register; the
    guest state is the same as before. -/
structure Sources (m : RegisterMap) (code : List Host.Instr) (m₁ : RegisterMap)
    (places : List (Reg × Host.Reg)) : Prop where
  wellFormed : m₁.WellFormed
  budget : m₁.budget = m.budget
  pinned : ∀ q, (m₁.residence q).pinned = (m.residence q).pinned
  held : ∀ p ∈ places, m₁.host? p.1 = some p.2 ∧ (m₁.residence p.1).pinned = true
  confined : ∀ i ∈ code, Host.Confined m.budget i
  carries : ∀ {σ : Type} (x : Host.Machine σ) (s : Cpu), Represents m x s →
    ∃ y, Host.Follows code x y ∧ Represents m₁ y s

namespace Sources

variable {code : List Host.Instr} {m₁ : RegisterMap} {places : List (Reg × Host.Reg)}

theorem none (hm : m.WellFormed) : Sources m [] m [] :=
  ⟨hm, rfl, fun _ => rfl, by simp, by simp, fun x _ hx => ⟨x, .done x, hx⟩⟩

/-- One more register is read. -/
theorem read (hs : Sources m code m₁ places) {e : Emitted Host.Reg} (he : Mapped m₁ r .read e)
    (hr : (m.residence r).pinned = true) :
    Sources m (code ++ e.code) e.map ((r, e.value) :: places) where
  wellFormed := he.wellFormed
  budget := he.budget.trans hs.budget
  pinned q := (he.pinned q).trans (hs.pinned q)
  held p hp := by
    rcases List.mem_cons.mp hp with rfl | hp
    · exact ⟨he.host, (he.pinned r).trans ((hs.pinned r).trans hr)⟩
    · exact he.keeps_pinned (hs.held p hp)
  confined i hi := by
    rcases List.mem_append.mp hi with hi | hi
    · exact hs.confined i hi
    · exact hs.budget ▸ he.confined i hi
  carries x s hx := by
    obtain ⟨y, hxy, hy⟩ := hs.carries x s hx
    obtain ⟨z, hyz, hz, -⟩ := he.read hy
    exact ⟨z, hxy.append hyz, hz⟩

theorem room (hs : Sources m code m₁ places) {rs : List Reg} (hm : m.PinsIn rs)
    (hlen : rs.length ≤ 3) (hr : r ∈ rs) : m₁.Room r :=
  RegisterMap.PinsIn.room (fun q hq => hm q (hs.pinned q ▸ hq)) hlen hr

section
variable {rs : List Reg} (hs : Sources (m.pin rs) code m₁ places) (hm : m.Idle) (r : Reg)
  (hlen : rs.length ≤ 3) (hr : r ∈ rs)
include hs hm hlen hr

/-- With no more than three registers pinned, each of them can be read. -/
theorem exists_run_read : ∃ e, (Emit.map r .read).run m₁ = .ok e ∧
    Sources (m.pin rs) (code ++ e.code) e.map ((r, e.value) :: places) := by
  obtain ⟨e, hrun, he⟩ :=
    hs.wellFormed.exists_run_map r .read (hs.room (hm.pinsIn_pin rs) hlen hr)
  exact ⟨e, hrun, hs.read he (by simp [hr])⟩

theorem exists_run_write : ∃ e, (Emit.map r .write).run m₁ = .ok e ∧ Mapped m₁ r .write e :=
  hs.wellFormed.exists_run_map r .write (hs.room (hm.pinsIn_pin rs) hlen hr)

end

end Sources

namespace Emit

theorem run_withPinned {α : Type} (rs : List Reg) (e : Emit α) (m : RegisterMap) :
    (withPinned rs e).run m =
      match e.run (m.pin rs) with
      | .error fault => .error fault
      | .ok a => .ok ⟨a.value, a.code, a.map.unpin⟩ := by
  simp only [withPinned, run_bind, run_modifyMap]
  cases e.run (m.pin rs) with
  | error => rfl
  | ok a => simp only [run_pure, List.nil_append, List.append_nil]

end Emit

/-! ### Writing everything back -/

/-- Nothing is mapped any more, and the stored state has become the whole state. -/
structure Flushes (m : RegisterMap) (e : Emitted Unit) : Prop where
  idle : e.map.Idle
  flushed : e.map.Flushed
  budget : e.map.budget = m.budget
  confined : ∀ i ∈ e.code, Host.Confined m.budget i
  carries : ∀ {σ : Type} (x : Host.Machine σ) (s : Cpu), Represents m x s →
    ∃ y, Host.Follows e.code x y ∧ y.cpu = s ∧ OnlyStores x y
  again : m.Flushed → e.code = [] ∧ e.map = m

theorem RegisterMap.Idle.exists_run_flushAll (hm : m.Idle) :
    ∃ e, Emit.flushAll.run m = .ok e ∧ Flushes m e := by
  have hrun := Emit.run_flushAll m
  have hidle := hm.flushAll
  have hflushed := m.flushed_flushAll
  have hbudget := m.budget_flushAll
  have hconfined := RegisterMap.confined_flushAll hm.toWellFormed
  have hcarries : ∀ {σ : Type} (x : Host.Machine σ) (s : Cpu), Represents m x s →
      ∃ y, Host.Follows m.flushAll.1 x y ∧ y.cpu = s ∧ OnlyStores x y :=
    fun _ _ hx => hx.flushAll
  have hagain : m.Flushed → m.flushAll = ([], m) := fun h => h.flushAll
  generalize m.flushAll = p at hrun hidle hflushed hbudget hconfined hcarries hagain
  exact ⟨_, hrun, hidle, hflushed, hbudget, hconfined, hcarries, fun h => by simp [hagain h]⟩

/-- The code that was written to write all back is what writes all back. -/
theorem RegisterMap.Idle.flushes_of_run (hm : m.Idle) {e : Emitted Unit}
    (hrun : Emit.flushAll.run m = .ok e) : Flushes m e := by
  obtain ⟨e', hrun', he'⟩ := hm.exists_run_flushAll
  cases hrun.symm.trans hrun'
  exact he'

end MipsOnArm
