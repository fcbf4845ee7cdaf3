import MipsOnArm.BlockTable

/-! Which blocks are in a table after it has changed. Making links moves no block. -/

namespace MipsOnArm.BlockTable

/-- Addresses that compare as equal are equal. -/
theorem compare_eq_iff (entry x : Word) : compare entry x = .eq ↔ x = entry :=
  Std.LawfulEqCmp.compare_eq_iff_eq.trans eq_comm

variable (t : BlockTable)

theorem get?_empty (x : Word) : empty.get? x = none :=
  Std.TreeMap.getElem?_emptyc

theorem get?_link (entry x : Word) : (t.link entry).get? x = t.get? x := by
  rw [link]
  split <;> rfl

theorem get?_foldl_link (entries : List Word) (x : Word) :
    (entries.foldl link t).get? x = t.get? x := by
  induction entries generalizing t with
  | nil => rfl
  | cons entry entries ih => rw [List.foldl_cons, ih, get?_link]

theorem contains_eq_isSome (x : Word) : t.contains x = (t.get? x).isSome :=
  Std.TreeMap.contains_eq_isSome_getElem?

theorem get?_erase (entry x : Word) :
    (t.erase entry).get? x = if x = entry then none else t.get? x := by
  rw [erase]
  by_cases hc : t.contains entry = true
  · rw [if_pos hc, get?, get?, Std.TreeMap.getElem?_erase]
    simp only [compare_eq_iff]
  · rw [if_neg hc]
    by_cases hx : x = entry
    · rw [if_pos hx, hx]
      rw [contains_eq_isSome] at hc
      simpa using hc
    · rw [if_neg hx]

/-- A new block takes the place of the one with the same start. -/
theorem get?_insert (b : Block) (x : Word) :
    (t.insert b).get? x = if x = b.entry then some b else t.get? x := by
  rw [insert]
  simp only [get?_foldl_link, get?_link]
  rw [get?, Std.TreeMap.getElem?_insert]
  simp only [compare_eq_iff]
  by_cases hx : x = b.entry
  · rw [if_pos hx, if_pos hx]
  · have herase := t.get?_erase b.entry x
    rw [if_neg hx] at herase
    rw [if_neg hx, if_neg hx]
    exact herase

end MipsOnArm.BlockTable
