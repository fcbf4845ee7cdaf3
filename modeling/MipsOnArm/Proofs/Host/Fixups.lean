import Mathlib.Data.List.Infix
import MipsOnArm.Host.Code

/-! Forward branches in code that is being written. Several of them may wait at a time, and they may
    be bound in any order. As long as no fixup is bound twice, binding one of them reaches the
    branch that it was returned for, and changes no other instruction. -/

namespace MipsOnArm.Host.Code

/-! ### Uses of code -/

/-- A use of code that is being written. -/
inductive Use
  | push (i : Instr)
  | forwardBranch (cond : Cond)
  | patch (f : Fixup)
  deriving DecidableEq, Repr

/-- The instruction that a use appends, if it appends one. -/
def Use.instr? : Use → Option Instr
  | push i => some i
  | forwardBranch cond => some (.branch cond none)
  | patch _ => none

/-- The instructions that are appended, in order. -/
def emitted (uses : List Use) : List Instr := uses.filterMap Use.instr?

/-- Uses the code once. -/
def use (c : Code) : Use → Except Fault Code
  | .push i => .ok (c.push i)
  | .forwardBranch cond => .ok (c.forwardBranch cond).2
  | .patch f => c.patch f

/-- Uses the code several times, one after the other. -/
def useAll (c : Code) (uses : List Use) : Except Fault Code := uses.foldlM use c

/-- Writes code from nothing. -/
def written (uses : List Use) : Except Fault Code := empty.useAll uses

/-- The fixup was returned by one of the uses. -/
def Returned (uses : List Use) (f : Fixup) : Prop :=
  ∃ before cond c, before ++ [.forwardBranch cond] <+: uses ∧ written before = .ok c ∧
    (c.forwardBranch cond).1 = f

/-- Every fixup that is bound was returned before, and it was not bound before. -/
inductive BoundOnce : List Use → Prop
  | nil : BoundOnce []
  | push {uses : List Use} (h : BoundOnce uses) (i : Instr) : BoundOnce (uses ++ [.push i])
  | forwardBranch {uses : List Use} (h : BoundOnce uses) (cond : Cond) :
      BoundOnce (uses ++ [.forwardBranch cond])
  | patch {uses : List Use} {f : Fixup} (h : BoundOnce uses) (hreturned : Returned uses f)
      (hfree : .patch f ∉ uses) : BoundOnce (uses ++ [.patch f])

variable {uses : List Use} {u : Use} {c d : Code} {i : Instr} {f : Fixup} {cond : Cond}

theorem emitted_cons (u : Use) (uses : List Use) :
    emitted (u :: uses) = u.instr?.toList ++ emitted uses := by
  cases u <;> rfl

theorem emitted_append (uses later : List Use) :
    emitted (uses ++ later) = emitted uses ++ emitted later := List.filterMap_append ..

theorem emitted_concat (uses : List Use) (u : Use) :
    emitted (uses ++ [u]) = emitted uses ++ u.instr?.toList := by
  rw [emitted_append, emitted_cons]
  exact congrArg (emitted uses ++ ·) (List.append_nil _)

theorem useAll_append (c : Code) (uses later : List Use) :
    c.useAll (uses ++ later) = c.useAll uses >>= (·.useAll later) := List.foldlM_append

theorem getElem?_push_of_lt {j : Nat} (hj : j < c.size) (i : Instr) :
    (c.push i).instrs[j]? = c.instrs[j]? := by
  have hne : j ≠ c.instrs.size := Nat.ne_of_lt hj
  rw [push, Array.getElem?_push, if_neg hne]

theorem getElem?_push_size (c : Code) (i : Instr) : (c.push i).instrs[c.size]? = some i :=
  Array.getElem?_push_size

/-- A branch that waits can be patched. -/
theorem patch_of_waiting (h : c.instrs[f.index]? = some (.branch cond none)) :
    c.patch f = .ok ⟨c.instrs.setIfInBounds f.index (.branch cond (some c.size))⟩ := by
  simp only [patch, h]

theorem size_of_patch (h : c.patch f = .ok d) : d.size = c.size := by
  unfold patch at h
  split at h
  · cases h
  · cases h
    exact Array.size_setIfInBounds
  · cases h
  · cases h

theorem size_of_use (h : c.use u = .ok d) : d.size = c.size + u.instr?.toList.length := by
  cases u with
  | push i => cases h; exact size_push c i
  | forwardBranch cond => cases h; exact size_push c _
  | patch f => exact size_of_patch h

/-- The code grows by what is appended. -/
theorem size_of_useAll (h : c.useAll uses = .ok d) : d.size = c.size + (emitted uses).length := by
  induction uses generalizing c with
  | nil => cases h; rfl
  | cons u uses ih =>
    rw [useAll, List.foldlM_cons] at h
    cases hu : c.use u with
    | error fault => rw [hu] at h; cases h
    | ok e =>
      rw [hu] at h
      rw [ih h, size_of_use hu, emitted_cons, List.length_append, Nat.add_assoc]

theorem size_of_written (h : written uses = .ok c) : c.size = (emitted uses).length :=
  (size_of_useAll h).trans (Nat.zero_add _)

theorem written_concat (h : written uses = .ok c) (u : Use) : written (uses ++ [u]) = c.use u := by
  rw [written, useAll_append, show empty.useAll uses = .ok c from h]
  exact bind_pure (c.use u)

/-- What was written on the way. -/
theorem exists_written_before {before : List Use} (hstart : before <+: uses)
    (h : written uses = .ok c) : ∃ d, written before = .ok d := by
  obtain ⟨later, rfl⟩ := hstart
  rw [written, useAll_append] at h
  cases hbefore : empty.useAll before with
  | error fault => rw [hbefore] at h; cases h
  | ok d => exact ⟨d, hbefore⟩

/-! ### What stands in the code -/

/-- A fixup leads to the branch that was appended when it was returned. -/
theorem Returned.getElem?_emitted (h : Returned uses f) :
    ∃ cond, (emitted uses)[f.index]? = some (.branch cond none) := by
  obtain ⟨before, cond, c, ⟨later, rfl⟩, hc, rfl⟩ := h
  refine ⟨cond, ?_⟩
  rw [show (c.forwardBranch cond).1.index = (emitted before).length from size_of_written hc,
    List.append_assoc, emitted_append, List.getElem?_append_right (Nat.le_refl _), Nat.sub_self]
  rfl

/-- An instruction stands where it was appended. It is as it was, unless it is a branch whose fixup
    was bound; then its target is where the code ended by then. -/
structure Records (uses : List Use) (c : Code) : Prop where
  kept : ∀ j i, (emitted uses)[j]? = some i → .patch ⟨j⟩ ∉ uses → c.instrs[j]? = some i
  bound : ∀ before f, before ++ [.patch f] <+: uses →
    ∃ cond, (emitted uses)[f.index]? = some (.branch cond none) ∧
      f.index < (emitted before).length ∧
      c.instrs[f.index]? = some (.branch cond (some (emitted before).length))

namespace Records

theorem nil : Records [] .empty := by
  refine ⟨?_, ?_⟩
  · intro j i hj
    cases hj
  · intro before f h
    cases before <;> cases List.prefix_nil.mp h

/-- Appending changes nothing that stands already. -/
theorem append (h : Records uses c) (hsize : c.size = (emitted uses).length)
    (hu : u.instr? = some i) : Records (uses ++ [u]) (c.push i) := by
  have hemitted : emitted (uses ++ [u]) = emitted uses ++ [i] := by
    rw [emitted_concat, hu, Option.toList_some]
  refine ⟨?_, ?_⟩
  · intro j k hj hfree
    rw [hemitted] at hj
    rcases Nat.lt_or_ge j c.size with hlt | hge
    · rw [List.getElem?_append_left (hsize ▸ hlt)] at hj
      rw [getElem?_push_of_lt hlt]
      exact h.kept j k hj fun hmem => hfree (List.mem_append_left _ hmem)
    · rw [List.getElem?_append_right (hsize ▸ hge), List.getElem?_singleton] at hj
      split at hj
      · next hzero =>
        cases hj
        rw [show j = c.size by omega]
        exact getElem?_push_size c i
      · cases hj
  · intro before f hstart
    rcases List.prefix_concat_iff.mp hstart with heq | hstart
    · -- the last use binds nothing
      obtain ⟨-, rfl⟩ : before = uses ∧ .patch f = u := by simpa using heq
      cases hu
    · obtain ⟨cond, hbranch, hlt, hc⟩ := h.bound before f hstart
      refine ⟨cond, ?_, hlt, ?_⟩
      · rw [hemitted, List.getElem?_append_left (List.getElem?_eq_some_iff.mp hbranch).1, hbranch]
      · rw [getElem?_push_of_lt (Array.getElem?_eq_some_iff.mp hc).1, hc]

/-- A fixup that is bound for the first time changes its own branch alone. -/
theorem patch (h : Records uses c) (hsize : c.size = (emitted uses).length)
    (hreturned : Returned uses f) (hfree : .patch f ∉ uses) :
    ∃ d, c.patch f = .ok d ∧ Records (uses ++ [.patch f]) d := by
  obtain ⟨cond, hemitted⟩ := hreturned.getElem?_emitted
  have hwaits : c.instrs[f.index]? = some (.branch cond none) := h.kept f.index _ hemitted hfree
  have hlt : f.index < c.instrs.size := (Array.getElem?_eq_some_iff.mp hwaits).1
  have hsame : emitted (uses ++ [.patch f]) = emitted uses := by
    rw [emitted_concat]
    exact List.append_nil _
  refine ⟨_, patch_of_waiting hwaits, ?_, ?_⟩
  · intro j k hj hbound
    rw [hsame] at hj
    have hne : f.index ≠ j := by
      rintro rfl
      exact hbound (List.mem_append_right _ (List.mem_singleton_self _))
    rw [Array.getElem?_setIfInBounds_ne hne]
    exact h.kept j k hj fun hmem => hbound (List.mem_append_left _ hmem)
  · intro before g hstart
    rw [hsame]
    rcases List.prefix_concat_iff.mp hstart with heq | hstart
    · obtain ⟨rfl, rfl⟩ : before = uses ∧ g = f := by simpa using heq
      refine ⟨cond, hemitted, hsize ▸ hlt, ?_⟩
      rw [Array.getElem?_setIfInBounds_self_of_lt hlt, hsize]
    · obtain ⟨cond', hbranch, hlt', hc⟩ := h.bound before g hstart
      have hne : f.index ≠ g.index := by
        -- the other fixup is among those bound already
        intro heq
        have hmem : Use.patch g ∈ uses := hstart.subset (by simp)
        exact hfree (show Use.patch f ∈ uses from (congrArg (Use.patch ⟨·⟩) heq) ▸ hmem)
      refine ⟨cond', hbranch, hlt', ?_⟩
      rw [Array.getElem?_setIfInBounds_ne hne, hc]

end Records

theorem BoundOnce.exists_records (h : BoundOnce uses) :
    ∃ c, written uses = .ok c ∧ Records uses c := by
  induction h with
  | nil => exact ⟨.empty, rfl, .nil⟩
  | push _ i ih =>
    obtain ⟨c, hc, hrecords⟩ := ih
    exact ⟨_, written_concat hc (.push i), hrecords.append (size_of_written hc) rfl⟩
  | forwardBranch _ cond ih =>
    obtain ⟨c, hc, hrecords⟩ := ih
    exact ⟨_, written_concat hc (.forwardBranch cond), hrecords.append (size_of_written hc) rfl⟩
  | @patch uses f _ hreturned hfree ih =>
    obtain ⟨c, hc, hrecords⟩ := ih
    obtain ⟨d, hd, hpatched⟩ := hrecords.patch (size_of_written hc) hreturned hfree
    exact ⟨d, (written_concat hc (.patch f)).trans hd, hpatched⟩

/-- Code can be taken just when no branch waits. -/
theorem take_eq (c : Code) :
    ((∀ cond, .branch cond none ∉ c.instrs) → c.take = .ok (c.instrs, .empty)) ∧
      ∀ cond, .branch cond none ∈ c.instrs → c.take = .error (.unboundBranch c.instrs.toList) := by
  have hwaits : c.instrs.any waits = true ↔ ∃ cond, .branch cond none ∈ c.instrs := by
    rw [Array.any_eq_true']
    constructor
    · rintro ⟨i, hi, hwaits⟩
      unfold waits at hwaits
      split at hwaits
      · exact ⟨_, hi⟩
      · cases hwaits
    · rintro ⟨cond, hi⟩
      exact ⟨_, hi, rfl⟩
  constructor
  · intro h
    rw [take, if_neg]
    rw [hwaits]
    rintro ⟨cond, hi⟩
    exact h cond hi
  · intro cond hi
    rw [take, if_pos (hwaits.mpr ⟨cond, hi⟩)]

/-- Forward branches reach where they were bound. Whatever is appended and in whatever order fixups
    are bound, binding never fails. The code then holds all instructions in order, each as it was
    appended, except that a branch whose fixup was bound has as its target the length of the code by
    then, which lies behind it. The code can be taken just when no branch in it waits, and all of it
    is. -/
theorem written_of_boundOnce (h : BoundOnce uses) :
    ∃ c, written uses = .ok c ∧ c.size = (emitted uses).length ∧
      (∀ j i, (emitted uses)[j]? = some i → .patch ⟨j⟩ ∉ uses → c.instrs[j]? = some i) ∧
      (∀ before f, before ++ [.patch f] <+: uses → ∃ cond d, written before = .ok d ∧
        (emitted uses)[f.index]? = some (.branch cond none) ∧ f.index < d.size ∧
        c.instrs[f.index]? = some (.branch cond (some d.size))) ∧
      (∀ before cond, before ++ [.forwardBranch cond] <+: uses → ∃ d, written before = .ok d ∧
        (d.forwardBranch cond).1 = ⟨(emitted before).length⟩) ∧
      ((∀ cond, .branch cond none ∉ c.instrs) → c.take = .ok (c.instrs, .empty)) ∧
      ∀ cond, .branch cond none ∈ c.instrs → c.take = .error (.unboundBranch c.instrs.toList) := by
  obtain ⟨c, hc, hrecords⟩ := h.exists_records
  have hbefore : ∀ before u, before ++ [u] <+: uses → ∃ d, written before = .ok d := by
    intro before u hstart
    exact exists_written_before ((List.prefix_append before [u]).trans hstart) hc
  refine ⟨c, hc, size_of_written hc, hrecords.kept, ?_, ?_, c.take_eq⟩
  · intro before f hstart
    obtain ⟨d, hd⟩ := hbefore before _ hstart
    obtain ⟨cond, hbranch, hlt, hbound⟩ := hrecords.bound before f hstart
    rw [← size_of_written hd] at hlt hbound
    exact ⟨cond, d, hd, hbranch, hlt, hbound⟩
  · intro before cond hstart
    obtain ⟨d, hd⟩ := hbefore before _ hstart
    exact ⟨d, hd, congrArg Fixup.mk (size_of_written hd)⟩

/-- Two branches, of which the first one is bound first. -/
def crossing : List Use :=
  [.forwardBranch .ne, .forwardBranch .eq, .patch ⟨0⟩, .push .exitSyscall, .patch ⟨1⟩]

theorem written_of_boundOnce_crossing : ∃ c, written crossing = .ok c ∧
    c.instrs = #[.branch .ne (some 2), .branch .eq (some 3), .exitSyscall] ∧
      c.take = .ok (c.instrs, .empty) := by
  have hfirst : BoundOnce [.forwardBranch .ne, .forwardBranch .eq, .patch ⟨0⟩] :=
    ((BoundOnce.nil.forwardBranch .ne).forwardBranch .eq).patch
      ⟨[], .ne, .empty, ⟨_, rfl⟩, rfl, rfl⟩ (by decide)
  have hboth : BoundOnce crossing :=
    (hfirst.push .exitSyscall).patch
      ⟨[.forwardBranch .ne], .eq, _, ⟨_, rfl⟩, rfl, rfl⟩ (by decide)
  obtain ⟨c, hc, -, -, -, -, htake, -⟩ := written_of_boundOnce hboth
  cases (show written crossing = .ok ⟨#[.branch .ne (some 2), .branch .eq (some 3),
    .exitSyscall]⟩ from rfl).symm.trans hc
  exact ⟨_, hc, rfl, htake (by simp)⟩

end MipsOnArm.Host.Code
