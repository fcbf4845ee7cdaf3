import MipsOnArm.RegisterMap
import Mathlib.Data.List.Basic

/-! The invariant of a register map. Its two sides are inverse to each other, it hands out registers
    of its budget only, and a dirty register is a mapped one other than register 0. Every update of
    the map keeps it. -/

namespace MipsOnArm
open Guest

namespace RegisterMap

/-- Both sides agree, the budget is kept, and only what has to be stored is dirty. -/
structure WellFormed (m : RegisterMap) : Prop where
  inverse : ∀ r h, m.host? r = some h ↔ m.owner h = some r
  within : ∀ r h, m.host? r = some h → h ∈ m.budget
  dirtyMapped : ∀ r, (m.residence r).dirty = true → (m.host? r).isSome = true
  zeroClean : (m.residence Reg.zero).dirty = false
  budgeted : ∃ n, m.budget = budgetOf n

/-- Nothing is in a host register. -/
def Flushed (m : RegisterMap) : Prop := ∀ r, m.host? r = none

/-- Nothing is pinned. -/
def Unpinned (m : RegisterMap) : Prop := ∀ r, (m.residence r).pinned = false

variable {m : RegisterMap}

/-! ### Budgets -/

theorem budgetOf_nodup (n : Nat) : (budgetOf n).Nodup :=
  (show Host.Reg.allocatable.Nodup by decide).sublist (List.take_sublist ..)

theorem three_le_length_budgetOf (n : Nat) : 3 ≤ (budgetOf n).length := by
  have : Host.Reg.allocatable.length = 9 := rfl
  simp only [budgetOf, List.length_take]
  omega

/-- The budget leaves out the registers with a part of their own. -/
theorem mem_budgetOf {n : Nat} {h : Host.Reg} (hh : h ∈ budgetOf n) :
    h ≠ Host.Reg.scratch ∧ h ≠ Host.Reg.savedFlags ∧ h ≠ Host.Reg.base := by
  have hall : ∀ k ∈ Host.Reg.allocatable,
      k ≠ Host.Reg.scratch ∧ k ≠ Host.Reg.savedFlags ∧ k ≠ Host.Reg.base := by decide
  exact hall h (List.mem_of_mem_take hh)

namespace WellFormed

theorem ne_reserved (hm : m.WellFormed) {h : Host.Reg} (hh : h ∈ m.budget) :
    h ≠ Host.Reg.scratch ∧ h ≠ Host.Reg.savedFlags ∧ h ≠ Host.Reg.base := by
  obtain ⟨n, hn⟩ := hm.budgeted
  exact mem_budgetOf (hn ▸ hh)

/-- No two guest registers share a host register. -/
theorem host_inj (hm : m.WellFormed) {q r : Reg} {h : Host.Reg} (hq : m.host? q = some h)
    (hr : m.host? r = some h) : q = r := by
  rw [hm.inverse] at hq hr
  exact Option.some.inj (hq.symm.trans hr)

theorem owner_none (hm : m.WellFormed) {h : Host.Reg} (hh : m.owner h = none) (r : Reg) :
    m.host? r ≠ some h := by
  rw [Ne, hm.inverse, hh]
  exact fun e => nomatch e

end WellFormed

/-! ### Views of the updates -/

@[simp] theorem host?_empty (budget : List Host.Reg) (r : Reg) : (empty budget).host? r = none := by
  simp [host?, Residence.none]

theorem host?_setResidence (m : RegisterMap) (r x : Reg) (s : Residence) :
    (m.setResidence r s).host? x = if x = r then s.host else m.host? x := by
  simp only [host?, residence_setResidence]
  split <;> rfl

@[simp] theorem host?_setOwner (m : RegisterMap) (h : Host.Reg) (o : Option Reg) (r : Reg) :
    (m.setOwner h o).host? r = m.host? r := rfl

@[simp] theorem budget_setOwner (m : RegisterMap) (h : Host.Reg) (o : Option Reg) :
    (m.setOwner h o).budget = m.budget := rfl

@[simp] theorem budget_setResidence (m : RegisterMap) (r : Reg) (s : Residence) :
    (m.setResidence r s).budget = m.budget := rfl

@[simp] theorem residence_tick (m : RegisterMap) (r : Reg) :
    m.tick.residence r = m.residence r := rfl

@[simp] theorem host?_tick (m : RegisterMap) (r : Reg) : m.tick.host? r = m.host? r := rfl

@[simp] theorem owner_tick (m : RegisterMap) (h : Host.Reg) : m.tick.owner h = m.owner h := rfl

@[simp] theorem budget_tick (m : RegisterMap) : m.tick.budget = m.budget := rfl

@[simp] theorem residence_unpin (m : RegisterMap) (r : Reg) :
    m.unpin.residence r = { m.residence r with pinned := false } := by
  simp [unpin, residence]

@[simp] theorem host?_unpin (m : RegisterMap) (r : Reg) : m.unpin.host? r = m.host? r := by
  simp [host?]

@[simp] theorem owner_unpin (m : RegisterMap) (h : Host.Reg) : m.unpin.owner h = m.owner h := rfl

@[simp] theorem budget_unpin (m : RegisterMap) : m.unpin.budget = m.budget := rfl

theorem unpinned_unpin (m : RegisterMap) : m.unpin.Unpinned := fun r => by simp

@[simp] theorem residence_pin (m : RegisterMap) (rs : List Reg) (r : Reg) :
    (m.pin rs).residence r =
      { m.residence r with pinned := (m.residence r).pinned || rs.contains r } := by
  induction rs generalizing m with
  | nil => simp [pin]
  | cons x xs ih =>
    have hstep : m.pin (x :: xs) =
        (m.setResidence x { m.residence x with pinned := true }).pin xs := rfl
    rw [hstep, ih, residence_setResidence]
    by_cases hx : r = x
    · subst hx; simp
    · simp [hx]

@[simp] theorem host?_pin (m : RegisterMap) (rs : List Reg) (r : Reg) :
    (m.pin rs).host? r = m.host? r := by
  simp [host?]

@[simp] theorem owner_pin (m : RegisterMap) (rs : List Reg) (h : Host.Reg) :
    (m.pin rs).owner h = m.owner h := by
  induction rs generalizing m with
  | nil => rfl
  | cons x xs ih => exact ih _

@[simp] theorem budget_pin (m : RegisterMap) (rs : List Reg) : (m.pin rs).budget = m.budget := by
  induction rs generalizing m with
  | nil => rfl
  | cons x xs ih => exact ih _

theorem residence_touch (m : RegisterMap) (r x : Reg) (d : Bool) :
    (m.touch r d).residence x =
      if x = r then
        { m.residence r with dirty := (m.residence r).dirty || d, lastUse := m.clock }
      else m.residence x := by
  simp [touch, residence_setResidence]

@[simp] theorem host?_touch (m : RegisterMap) (r x : Reg) (d : Bool) :
    (m.touch r d).host? x = m.host? x := by
  simp only [host?, residence_touch]
  split
  · subst x; rfl
  · rfl

@[simp] theorem owner_touch (m : RegisterMap) (r : Reg) (d : Bool) (h : Host.Reg) :
    (m.touch r d).owner h = m.owner h := rfl

@[simp] theorem budget_touch (m : RegisterMap) (r : Reg) (d : Bool) :
    (m.touch r d).budget = m.budget := rfl

theorem residence_settle (m : RegisterMap) (r x : Reg) (h : Host.Reg) (d : Bool) :
    (m.settle r h d).residence x =
      if x = r then { m.residence r with host := some h, dirty := d, lastUse := m.clock }
      else m.residence x := by
  simp [settle, residence_setResidence]

theorem host?_settle (m : RegisterMap) (r x : Reg) (h : Host.Reg) (d : Bool) :
    (m.settle r h d).host? x = if x = r then some h else m.host? x := by
  simp only [host?, residence_settle]
  split <;> rfl

theorem owner_settle (m : RegisterMap) (r : Reg) (h x : Host.Reg) (d : Bool) :
    (m.settle r h d).owner x = if x = h then some r else m.owner x := by
  simp [settle, owner_setOwner]

@[simp] theorem budget_settle (m : RegisterMap) (r : Reg) (h : Host.Reg) (d : Bool) :
    (m.settle r h d).budget = m.budget := rfl

/-! ### Flushing -/

theorem flush_of_unmapped {r : Reg} (hr : m.host? r = none) : m.flush r = ([], m) := by
  simp [flush, hr]

theorem flush_of_mapped {r : Reg} {h : Host.Reg} (hr : m.host? r = some h) :
    m.flush r = (if (m.residence r).dirty then [storeBack r h] else [],
      (m.setResidence r { m.residence r with host := none, dirty := false }).setOwner h none) := by
  simp [flush, hr]

theorem residence_flush (m : RegisterMap) (r x : Reg) :
    (m.flush r).2.residence x =
      if x = r ∧ (m.host? r).isSome then { m.residence r with host := none, dirty := false }
      else m.residence x := by
  cases hr : m.host? r with
  | none => simp [flush_of_unmapped hr]
  | some h => simp [flush_of_mapped hr, residence_setResidence]

theorem host?_flush (m : RegisterMap) (r x : Reg) :
    (m.flush r).2.host? x = if x = r then none else m.host? x := by
  cases hr : m.host? r with
  | none =>
    rw [flush_of_unmapped hr]
    split
    · subst x; exact hr
    · rfl
  | some h => rw [flush_of_mapped hr, host?_setOwner, host?_setResidence]

@[simp] theorem pinned_flush (m : RegisterMap) (r x : Reg) :
    ((m.flush r).2.residence x).pinned = (m.residence x).pinned := by
  rw [residence_flush]
  split
  · next hx => rw [hx.1]
  · rfl

@[simp] theorem budget_flush (m : RegisterMap) (r : Reg) : (m.flush r).2.budget = m.budget := by
  cases hr : m.host? r with
  | none => rw [flush_of_unmapped hr]
  | some h => rw [flush_of_mapped hr]; rfl

theorem host?_flushEach (m : RegisterMap) (rs : List Reg) (x : Reg) :
    (m.flushEach rs).2.host? x = if rs.contains x then none else m.host? x := by
  induction rs generalizing m with
  | nil => simp [flushEach]
  | cons r rs ih =>
    rw [show (m.flushEach (r :: rs)).2 = ((m.flush r).2.flushEach rs).2 from rfl, ih, host?_flush]
    by_cases hx : x = r <;> simp [hx]

@[simp] theorem pinned_flushEach (m : RegisterMap) (rs : List Reg) (x : Reg) :
    ((m.flushEach rs).2.residence x).pinned = (m.residence x).pinned := by
  induction rs generalizing m with
  | nil => rfl
  | cons r rs ih => exact (ih (m.flush r).2).trans (pinned_flush m r x)

@[simp] theorem pinned_flushAll (m : RegisterMap) (x : Reg) :
    (m.flushAll.2.residence x).pinned = (m.residence x).pinned := by
  rw [flushAll, pinned_flushEach]

@[simp] theorem budget_flushEach (m : RegisterMap) (rs : List Reg) :
    (m.flushEach rs).2.budget = m.budget := by
  induction rs generalizing m with
  | nil => rfl
  | cons r rs ih => exact (ih (m.flush r).2).trans (budget_flush m r)

@[simp] theorem budget_flushAll (m : RegisterMap) : m.flushAll.2.budget = m.budget := by
  rw [flushAll, budget_flushEach]

theorem flushed_flushAll (m : RegisterMap) : m.flushAll.2.Flushed := fun r => by
  rw [flushAll, host?_flushEach, if_pos (List.contains_iff_mem.mpr (Reg.mem_all r))]

theorem flushed_fresh (n : Nat) : (fresh n).Flushed := host?_empty _

/-- Where nothing is mapped there is nothing to write back. -/
theorem Flushed.flushEach (hm : m.Flushed) (rs : List Reg) : m.flushEach rs = ([], m) := by
  induction rs with
  | nil => rfl
  | cons r rs ih => simp [RegisterMap.flushEach, flush_of_unmapped (hm r), ih]

theorem Flushed.flushAll (hm : m.Flushed) : m.flushAll = ([], m) := hm.flushEach _

theorem occupancy_eq_zero_iff : m.occupancy = 0 ↔ m.Flushed := by
  simp [occupancy, Flushed, Reg.mem_all]

/-! ### The updates keep the invariant -/

theorem wellFormed_fresh (n : Nat) : (fresh n).WellFormed where
  inverse r h := by simp [fresh]
  within r h := by simp [fresh]
  dirtyMapped r := by simp [fresh, Residence.none]
  zeroClean := by simp [fresh, Residence.none]
  budgeted := ⟨n, rfl⟩

namespace WellFormed

/-- The invariant does not depend on pins, the clock and the times of last use. -/
theorem congr {m' : RegisterMap} (hm : m.WellFormed) (hhost : ∀ r, m'.host? r = m.host? r)
    (hdirty : ∀ r, (m'.residence r).dirty = (m.residence r).dirty)
    (howner : ∀ h, m'.owner h = m.owner h) (hbudget : m'.budget = m.budget) : m'.WellFormed where
  inverse r h := by rw [hhost, howner]; exact hm.inverse r h
  within r h := by rw [hhost, hbudget]; exact hm.within r h
  dirtyMapped r := by rw [hhost, hdirty]; exact hm.dirtyMapped r
  zeroClean := by rw [hdirty]; exact hm.zeroClean
  budgeted := by rw [hbudget]; exact hm.budgeted

theorem tick (hm : m.WellFormed) : m.tick.WellFormed :=
  hm.congr (fun _ => rfl) (fun _ => rfl) (fun _ => rfl) rfl

theorem pin (hm : m.WellFormed) (rs : List Reg) : (m.pin rs).WellFormed :=
  hm.congr (by simp) (by simp) (by simp) (by simp)

theorem unpin (hm : m.WellFormed) : m.unpin.WellFormed :=
  hm.congr (by simp) (by simp) (by simp) (by simp)

theorem flush (hm : m.WellFormed) (r : Reg) : (m.flush r).2.WellFormed := by
  cases hr : m.host? r with
  | none => rw [flush_of_unmapped hr]; exact hm
  | some h =>
    have howner : ∀ k, (m.flush r).2.owner k = if k = h then none else m.owner k := fun k => by
      rw [flush_of_mapped hr]; exact owner_setOwner ..
    refine ⟨fun q k => ?_, fun q k hq => ?_, fun q hq => ?_, ?_, ?_⟩
    · rw [host?_flush, howner]
      -- `k` is the register that becomes free, or `q` the one that leaves it, or neither changes
      by_cases hq : q = r
      · subst q
        by_cases hk : k = h
        · simp [hk]
        · have : m.owner k ≠ some r := fun e =>
            hk (Option.some.inj (((hm.inverse r k).mpr e).symm.trans hr))
          simp [hk, this]
      · by_cases hk : k = h
        · have : m.host? q ≠ some h := fun e => hq (hm.host_inj e hr)
          simp [hq, hk, this]
        · simpa [hq, hk] using hm.inverse q k
    · rw [host?_flush] at hq
      split at hq
      · cases hq
      · rw [budget_flush]; exact hm.within q k hq
    · rw [residence_flush, hr] at hq
      rw [host?_flush]
      by_cases hqr : q = r
      · simp [hqr] at hq
      · simp only [hqr, false_and, if_false] at hq ⊢
        exact hm.dirtyMapped q hq
    · rw [residence_flush]
      split
      · rfl
      · exact hm.zeroClean
    · rw [budget_flush]; exact hm.budgeted

theorem flushEach (hm : m.WellFormed) (rs : List Reg) : (m.flushEach rs).2.WellFormed := by
  induction rs generalizing m with
  | nil => exact hm
  | cons r rs ih => exact ih (hm.flush r)

theorem flushAll (hm : m.WellFormed) : m.flushAll.2.WellFormed := hm.flushEach _

theorem touch (hm : m.WellFormed) {r : Reg} {d : Bool} (hr : (m.host? r).isSome = true)
    (hd : d = true → r ≠ Reg.zero) : (m.touch r d).WellFormed where
  inverse q h := by rw [host?_touch, owner_touch]; exact hm.inverse q h
  within q h := by rw [host?_touch, budget_touch]; exact hm.within q h
  dirtyMapped q hq := by
    rw [host?_touch]
    rw [residence_touch] at hq
    split at hq
    · next hqr => rw [hqr]; exact hr
    · exact hm.dirtyMapped q hq
  zeroClean := by
    rw [residence_touch]
    split
    · next hz =>
      subst hz
      have : d = false := by cases d <;> simp_all
      simp [hm.zeroClean, this]
    · exact hm.zeroClean
  budgeted := hm.budgeted

/-- A free host register of the budget may take an unmapped guest register. -/
theorem settle (hm : m.WellFormed) {r : Reg} {h : Host.Reg} {d : Bool} (hr : m.host? r = none)
    (hfree : m.owner h = none) (hh : h ∈ m.budget) (hd : d = true → r ≠ Reg.zero) :
    (m.settle r h d).WellFormed where
  inverse q k := by
    rw [host?_settle, owner_settle]
    by_cases hq : q = r
    · subst q
      by_cases hk : k = h
      · simp [hk]
      · have : m.owner k ≠ some r := fun e => by simp [← hm.inverse, hr] at e
        simp [hk, Ne.symm hk, this]
    · by_cases hk : k = h
      · simp [hq, hk, hm.owner_none hfree q, Ne.symm hq]
      · simpa [hq, hk] using hm.inverse q k
  within q k hq := by
    rw [host?_settle] at hq
    split at hq
    · exact Option.some.inj hq ▸ hh
    · exact hm.within q k hq
  dirtyMapped q hq := by
    rw [host?_settle]
    rw [residence_settle] at hq
    split
    · rfl
    · next hqr => rw [if_neg hqr] at hq; exact hm.dirtyMapped q hq
  zeroClean := by
    rw [residence_settle]
    split
    · next hz =>
      subst hz
      cases d <;> simp_all
    · exact hm.zeroClean
  budgeted := hm.budgeted

end WellFormed

end RegisterMap

end MipsOnArm
