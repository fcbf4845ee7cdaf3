import MipsOnArm.Proofs.BlockTable

/-! Links in a table are exact. A link goes from an exit of a block in the table to the start of a
    block in the table, and where the exits of every block have different numbers, every exit that
    leads to a block in the table is linked. Both hold however the table came about, and whatever
    the order in which the sources of a new block are linked. -/

namespace MipsOnArm

/-- Exits that compare as equal are equal. -/
instance : Std.LawfulEqCmp ExitKey.compare where
  eq_of_compare {a b} h := by
    obtain ⟨entry, slot⟩ := a
    obtain ⟨entry', slot'⟩ := b
    obtain ⟨hentry, hslot⟩ : compare entry entry' = .eq ∧ compare slot slot' = .eq :=
      compareLex_eq_eq.mp h
    rw [Std.LawfulEqCmp.eq_of_compare hentry, Std.LawfulEqCmp.eq_of_compare hslot]

namespace BlockTable

variable {t : BlockTable} {entry x target : Word} {slot : ExitSlot} {b : Block}

/-! ### Making links -/

/-- Puts links for exits of the block at `entry`, of which the last one for a number counts. -/
def putLinks (entry : Word) (links : Std.TreeMap ExitKey Word ExitKey.compare)
    (exits : List Exit) : Std.TreeMap ExitKey Word ExitKey.compare :=
  exits.foldl (fun links e => links.insert ⟨entry, e.slot⟩ e.target) links

theorem getElem?_putLinks_of_ne (links : Std.TreeMap ExitKey Word ExitKey.compare)
    {exits : List Exit} (h : ∀ e ∈ exits, ExitKey.mk x slot ≠ ⟨entry, e.slot⟩) :
    (putLinks entry links exits)[ExitKey.mk x slot]? = links[ExitKey.mk x slot]? := by
  induction exits generalizing links with
  | nil => rfl
  | cons e exits ih =>
    have hne : ExitKey.compare ⟨entry, e.slot⟩ ⟨x, slot⟩ ≠ .eq := fun heq =>
      h e List.mem_cons_self (Std.LawfulEqCmp.eq_of_compare heq).symm
    rw [putLinks, List.foldl_cons]
    refine (ih _ fun e' he' => h e' (List.mem_cons_of_mem _ he')).trans ?_
    rw [Std.TreeMap.getElem?_insert, if_neg hne]

/-- A link that is found was put, or was there before. -/
theorem of_getElem?_putLinks {links : Std.TreeMap ExitKey Word ExitKey.compare}
    {exits : List Exit} (h : (putLinks entry links exits)[ExitKey.mk x slot]? = some target) :
    (x = entry ∧ ∃ e ∈ exits, e.slot = slot ∧ e.target = target) ∨
      links[ExitKey.mk x slot]? = some target := by
  induction exits generalizing links with
  | nil => exact .inr h
  | cons e exits ih =>
    rw [putLinks, List.foldl_cons] at h
    rcases ih h with ⟨hx, e', he', hlink⟩ | hold
    · exact .inl ⟨hx, e', List.mem_cons_of_mem _ he', hlink⟩
    · rw [Std.TreeMap.getElem?_insert] at hold
      split at hold
      · next heq =>
        cases Std.LawfulEqCmp.eq_of_compare heq
        cases hold
        exact .inl ⟨rfl, e, List.mem_cons_self, rfl, rfl⟩
      · exact .inr hold

/-- With different numbers no link is overwritten. -/
theorem getElem?_putLinks_of_mem (links : Std.TreeMap ExitKey Word ExitKey.compare)
    {exits : List Exit} (hnodup : (exits.map Exit.slot).Nodup) {e : Exit} (he : e ∈ exits) :
    (putLinks entry links exits)[ExitKey.mk entry e.slot]? = some e.target := by
  induction exits generalizing links with
  | nil => exact absurd he List.not_mem_nil
  | cons e' exits ih =>
    rw [List.map_cons, List.nodup_cons] at hnodup
    rw [putLinks, List.foldl_cons]
    rcases List.mem_cons.mp he with rfl | he
    · refine (getElem?_putLinks_of_ne _ fun e' he' heq => ?_).trans
        Std.TreeMap.getElem?_insert_self
      have hslot : e.slot = e'.slot := congrArg ExitKey.slot heq
      exact hnodup.1 (List.mem_map.mpr ⟨e', he', hslot.symm⟩)
    · exact ih _ hnodup.2 he

theorem link_of_get? (hb : t.get? entry = some b) :
    t.link entry = { t with links := putLinks entry t.links (t.resolved b) } := by
  rw [link, hb]
  rfl

theorem link_of_get?_none (hb : t.get? entry = none) : t.link entry = t := by
  rw [link, hb]

theorem mem_resolved {e : Exit} :
    e ∈ t.resolved b ↔ e ∈ b.exits ∧ (t.get? e.target).isSome = true := by
  rw [resolved, List.mem_filter, contains_eq_isSome]

theorem linked?_link_of_ne (t : BlockTable) (hx : x ≠ entry) :
    (t.link entry).linked? x slot = t.linked? x slot := by
  cases hb : t.get? entry with
  | none => rw [link_of_get?_none hb]
  | some b =>
    rw [link_of_get? hb]
    exact getElem?_putLinks_of_ne _ fun e _ heq => hx (congrArg ExitKey.entry heq)

/-! ### Links that may be there -/

/-- Blocks stand at their own starts, and a link goes from an exit of a block in the table to the
    start of a block in the table. -/
structure Sound (t : BlockTable) : Prop where
  start : ∀ x b, t.get? x = some b → b.entry = x
  link : ∀ x slot target, t.linked? x slot = some target →
    ∃ b, t.get? x = some b ∧ (∃ e ∈ b.exits, e.slot = slot ∧ e.target = target) ∧
      (t.get? target).isSome = true

theorem linked?_empty : empty.linked? x slot = none :=
  Std.TreeMap.getElem?_emptyc

theorem sound_empty : empty.Sound where
  start x b hb := by simp [get?_empty] at hb
  link x slot target h := by simp [linked?_empty] at h

namespace Sound

theorem afterLink (ht : t.Sound) (entry : Word) : (t.link entry).Sound where
  start x b hb := ht.start x b (get?_link t entry x ▸ hb)
  link x slot target h := by
    simp only [get?_link]
    cases hb : t.get? entry with
    | none =>
      rw [link_of_get?_none hb] at h
      exact ht.link x slot target h
    | some b =>
      rw [link_of_get? hb] at h
      rcases of_getElem?_putLinks h with ⟨rfl, e, he, hlink⟩ | hold
      · obtain ⟨hmem, htarget⟩ := mem_resolved.mp he
        exact ⟨b, hb, ⟨e, hmem, hlink⟩, hlink.2 ▸ htarget⟩
      · exact ht.link x slot target hold

theorem foldl_link (ht : t.Sound) (order : List Word) : (order.foldl BlockTable.link t).Sound := by
  induction order generalizing t with
  | nil => exact ht
  | cons entry order ih => exact ih (ht.afterLink entry)

/-- What is left of the links when a block goes: those that have it at neither end. -/
theorem linked?_erase (ht : t.Sound) (entry x : Word) (slot : ExitSlot) :
    (t.erase entry).linked? x slot =
      (t.linked? x slot).filter fun target => x ≠ entry && target ≠ entry := by
  rw [BlockTable.erase]
  by_cases hc : t.contains entry = true
  · rw [if_pos hc]
    exact Std.TreeMap.getElem?_filter'
  · rw [if_neg hc]
    rw [contains_eq_isSome] at hc
    cases hlink : t.linked? x slot with
    | none => rfl
    | some target =>
      -- a link has blocks at both of its ends, and there is none at `entry`
      obtain ⟨b, hb, -, htarget⟩ := ht.link x slot target hlink
      have hx : x ≠ entry := fun e => hc (by rw [← e, hb]; rfl)
      have hne : target ≠ entry := fun e => hc (e ▸ htarget)
      exact (Option.filter_eq_some_iff.mpr ⟨rfl, by simp [hx, hne]⟩).symm

theorem of_linked?_erase (ht : t.Sound)
    (h : (t.erase entry).linked? x slot = some target) :
    t.linked? x slot = some target ∧ x ≠ entry ∧ target ≠ entry := by
  rw [ht.linked?_erase, Option.filter_eq_some_iff] at h
  simpa using h

theorem erase (ht : t.Sound) (entry : Word) : (t.erase entry).Sound where
  start x b hb := by
    rw [get?_erase] at hb
    split at hb
    · cases hb
    · exact ht.start x b hb
  link x slot target h := by
    obtain ⟨hlink, hx, hne⟩ := ht.of_linked?_erase h
    simp only [get?_erase, hx, hne, if_false]
    exact ht.link x slot target hlink

end Sound

/-! ### A new block -/

/-- The table with `b` in the place of any block with the same start, and no new links. -/
def replace (t : BlockTable) (b : Block) : BlockTable :=
  { t.erase b.entry with blocks := (t.erase b.entry).blocks.insert b.entry b }

/-- The table with `b` in it, linked to the blocks that it leads to. -/
def place (t : BlockTable) (b : Block) : BlockTable :=
  (t.replace b).link b.entry

theorem insert_eq (t : BlockTable) (b : Block) :
    t.insert b = ((t.place b).sources b.entry).foldl link (t.place b) := rfl

theorem get?_replace (t : BlockTable) (b : Block) (x : Word) :
    (t.replace b).get? x = if x = b.entry then some b else t.get? x := by
  rw [← get?_insert, insert_eq, get?_foldl_link, place, get?_link]

theorem get?_place (t : BlockTable) (b : Block) (x : Word) :
    (t.place b).get? x = if x = b.entry then some b else t.get? x := by
  rw [place, get?_link, get?_replace]

theorem linked?_replace (t : BlockTable) (b : Block) (x : Word) (slot : ExitSlot) :
    (t.replace b).linked? x slot = (t.erase b.entry).linked? x slot := rfl

namespace Sound

theorem replace (ht : t.Sound) (b : Block) : (t.replace b).Sound where
  start x c hc := by
    rw [get?_replace] at hc
    split at hc
    · next hx => cases hc; exact hx.symm
    · exact ht.start x c hc
  link x slot target h := by
    rw [linked?_replace] at h
    obtain ⟨hlink, hx, hne⟩ := ht.of_linked?_erase h
    simp only [get?_replace, hx, hne, if_false]
    exact ht.link x slot target hlink

theorem place (ht : t.Sound) (b : Block) : (t.place b).Sound := (ht.replace b).afterLink b.entry

theorem mem_sources (ht : t.Sound) :
    x ∈ t.sources entry ↔
      x ≠ entry ∧ ∃ b, t.get? x = some b ∧ ∃ e ∈ b.exits, e.target = entry := by
  rw [sources, List.mem_filterMap]
  constructor
  · rintro ⟨⟨y, b⟩, hmem, h⟩
    have hb : t.get? y = some b := Std.TreeMap.mem_toList_iff_getElem?_eq_some.mp hmem
    have hstart := ht.start y b hb
    simp only [Option.ite_none_right_eq_some, Option.some.injEq, List.any_eq_true,
      decide_eq_true_eq] at h
    obtain ⟨⟨hne, hexit⟩, rfl⟩ := h
    exact ⟨hne, b, hstart ▸ hb, hexit⟩
  · rintro ⟨hne, b, hb, hexit⟩
    have hstart := ht.start x b hb
    refine ⟨(x, b), Std.TreeMap.mem_toList_iff_getElem?_eq_some.mpr hb, ?_⟩
    simp only [Option.ite_none_right_eq_some, Option.some.injEq, List.any_eq_true,
      decide_eq_true_eq]
    exact ⟨⟨hstart ▸ hne, hexit⟩, hstart⟩

end Sound

/-! ### Links that have to be there -/

/-- The exits of the block at `x`, if there is one, are linked wherever their targets are in the
    table. -/
def Linked (t : BlockTable) (x : Word) : Prop :=
  ∀ b e, t.get? x = some b → e ∈ b.exits → (t.get? e.target).isSome = true →
    t.linked? x e.slot = some e.target

/-- The exits of every block have different numbers. -/
def Distinct (t : BlockTable) : Prop :=
  ∀ x b, t.get? x = some b → (b.exits.map Exit.slot).Nodup

theorem Distinct.link (ht : t.Distinct) (entry : Word) : (t.link entry).Distinct := fun x b hb =>
  ht x b (get?_link t entry x ▸ hb)

theorem Distinct.linked_link (ht : t.Distinct) (entry : Word) : (t.link entry).Linked entry := by
  intro b e hb he htarget
  rw [get?_link] at hb htarget
  rw [link_of_get? hb]
  refine getElem?_putLinks_of_mem _ ?_ (mem_resolved.mpr ⟨he, htarget⟩)
  exact (ht entry b hb).sublist (List.Sublist.map _ List.filter_sublist)

theorem Distinct.linked_link_of_linked (ht : t.Distinct) (hx : t.Linked x) (entry : Word) :
    (t.link entry).Linked x := by
  by_cases heq : x = entry
  · exact heq ▸ ht.linked_link x
  · intro b e hb he htarget
    rw [get?_link] at hb htarget
    rw [linked?_link_of_ne t heq]
    exact hx b e hb he htarget

/-- Linking several blocks links each of them, and takes no link away. -/
theorem Distinct.linked_foldl (ht : t.Distinct) {order : List Word} (hx : x ∈ order ∨ t.Linked x) :
    (order.foldl BlockTable.link t).Linked x := by
  induction order generalizing t with
  | nil => exact hx.resolve_left List.not_mem_nil
  | cons entry order ih =>
    refine ih (ht.link entry) ?_
    rcases hx with hx | hx
    · rcases List.mem_cons.mp hx with rfl | hx
      · exact .inr (ht.linked_link x)
      · exact .inl hx
    · exact .inr (ht.linked_link_of_linked hx entry)

/-- The other blocks keep their links, and only those that lead to the new one lack any. -/
theorem linked_replace (ht : t.Sound) (hx : t.Linked x) (hne : x ≠ b.entry)
    (hsource : x ∉ (t.replace b).sources b.entry) : (t.replace b).Linked x := by
  intro c e hc he htarget
  have hother : e.target ≠ b.entry := fun heq =>
    hsource ((ht.replace b).mem_sources.mpr ⟨hne, c, hc, e, he, heq⟩)
  rw [get?_replace, if_neg hne] at hc
  rw [get?_replace, if_neg hother] at htarget
  rw [linked?_replace, ht.linked?_erase, hx c e hc he htarget]
  exact Option.filter_eq_some_iff.mpr ⟨rfl, by simp [hne, hother]⟩

/-- Making links does not change which blocks lead to a block. -/
theorem mem_sources_place (ht : t.Sound) :
    x ∈ (t.place b).sources b.entry ↔ x ∈ (t.replace b).sources b.entry := by
  rw [(ht.place b).mem_sources, (ht.replace b).mem_sources]
  simp only [get?_place, get?_replace]

/-- A new block and all blocks that lead to it are linked, in whatever order. -/
theorem linked_insert (ht : t.Sound) (hlinked : ∀ x, t.Linked x)
    (hdistinct : (t.place b).Distinct) {order : List Word}
    (horder : order.Perm ((t.place b).sources b.entry)) (x : Word) :
    (order.foldl link (t.place b)).Linked x := by
  have hreplace : (t.replace b).Distinct := fun y c hc =>
    hdistinct y c (by rwa [place, get?_link])
  refine hdistinct.linked_foldl ?_
  by_cases hsource : x ∈ (t.place b).sources b.entry
  · exact .inl (horder.mem_iff.mpr hsource)
  · refine .inr ?_
    by_cases hx : x = b.entry
    · exact hx ▸ hreplace.linked_link x
    · rw [mem_sources_place ht] at hsource
      exact hreplace.linked_link_of_linked (linked_replace ht (hlinked x) hx hsource) b.entry

/-! ### Tables as they come about -/

/-- The tables that come about from the empty one, each with the blocks that were inserted on the
    way. The sources of a new block may be linked in any order. -/
inductive Built : List Block → BlockTable → Prop
  | empty : Built [] empty
  | insert {inserted : List Block} {t : BlockTable} (b : Block) {order : List Word}
      (ht : Built inserted t) (horder : order.Perm ((t.place b).sources b.entry)) :
      Built (b :: inserted) (order.foldl link (t.place b))
  | erase {inserted : List Block} {t : BlockTable} (entry : Word) (ht : Built inserted t) :
      Built inserted (t.erase entry)
  | link {inserted : List Block} {t : BlockTable} (entry : Word) (ht : Built inserted t) :
      Built inserted (t.link entry)
  | clear {inserted : List Block} {t : BlockTable} (ht : Built inserted t) :
      Built inserted BlockTable.empty

namespace Built

variable {inserted : List Block}

/-- The table's own insertion takes the sources in ascending order. -/
theorem afterInsert (ht : Built inserted t) (b : Block) : Built (b :: inserted) (t.insert b) :=
  insert_eq t b ▸ ht.insert b (.refl _)

theorem sound (ht : Built inserted t) : t.Sound := by
  induction ht with
  | empty => exact sound_empty
  | insert b _ _ ih => exact (ih.place b).foldl_link _
  | erase entry _ ih => exact ih.erase entry
  | link entry _ ih => exact ih.afterLink entry
  | clear => exact sound_empty

theorem mem_inserted (ht : Built inserted t) (hb : t.get? x = some b) : b ∈ inserted := by
  induction ht with
  | empty => simp [get?_empty] at hb
  | insert c _ _ ih =>
    rw [get?_foldl_link, get?_place] at hb
    split at hb
    · cases hb; exact List.mem_cons_self
    · exact List.mem_cons_of_mem _ (ih hb)
  | erase entry _ ih =>
    rw [get?_erase] at hb
    split at hb
    · cases hb
    · exact ih hb
  | link entry _ ih => exact ih (get?_link _ entry x ▸ hb)
  | clear => simp [get?_empty] at hb

theorem linked (ht : Built inserted t) (hslots : ∀ b ∈ inserted, (b.exits.map Exit.slot).Nodup)
    (x : Word) : t.Linked x := by
  induction ht generalizing x with
  | empty => exact fun b e hb => by simp [get?_empty] at hb
  | @insert inserted t b order ht horder ih =>
    refine linked_insert ht.sound (ih fun c hc => hslots c (List.mem_cons_of_mem _ hc)) ?_ horder x
    intro y c hc
    have hbuilt := ht.insert b horder
    exact hslots c (hbuilt.mem_inserted (by rw [get?_foldl_link]; exact hc))
  | @erase inserted t entry ht ih =>
    intro b e hb he htarget
    rw [get?_erase] at hb htarget
    split at hb
    · cases hb
    · next hx =>
      split at htarget
      · cases htarget
      · next hne =>
        rw [ht.sound.linked?_erase, ih hslots x b e hb he htarget]
        exact Option.filter_eq_some_iff.mpr ⟨rfl, by simp [hx, hne]⟩
  | @link inserted t entry ht ih =>
    exact Distinct.linked_link_of_linked (fun y c hc => hslots c (ht.mem_inserted hc))
      (ih hslots x) entry
  | clear => exact fun b e hb => by simp [get?_empty] at hb

end Built

/-- Links are exact. Every block stands at its own start; a link leads from an exit of a block in
    the table to the start of a block in the table; and if the exits of every inserted block have
    different numbers, each exit whose target is in the table is linked to it. -/
theorem links_of_built {inserted : List Block} {t : BlockTable} (h : Built inserted t) :
    (∀ entry b, t.get? entry = some b → b.entry = entry) ∧
      (∀ entry slot target, t.linked? entry slot = some target →
        ∃ b, t.get? entry = some b ∧ (∃ e ∈ b.exits, e.slot = slot ∧ e.target = target) ∧
          t.contains target = true) ∧
      ((∀ b ∈ inserted, (b.exits.map Exit.slot).Nodup) →
        ∀ entry b, t.get? entry = some b → ∀ e ∈ b.exits, t.contains e.target = true →
          t.linked? b.entry e.slot = some e.target) := by
  refine ⟨h.sound.start, fun entry slot target hlink => ?_, fun hslots entry b hb e he hc => ?_⟩
  · rw [contains_eq_isSome]
    exact h.sound.link entry slot target hlink
  · rw [contains_eq_isSome] at hc
    rw [h.sound.start entry b hb]
    exact h.linked hslots entry b e hb he hc

/-- A block that leads to another one and to itself. -/
def loopBlock : Block := ⟨0x1000, 2, #[], [⟨0x2000, 0, 0⟩, ⟨0x1000, 1, 0⟩]⟩

/-- A block that leads back. -/
def backBlock : Block := ⟨0x2000, 2, #[], [⟨0x1000, 0, 0⟩]⟩

/-- Removing a block and inserting it again brings the links in both directions back. -/
theorem links_of_built_loop :
    ∃ t, Built [backBlock, backBlock, loopBlock] t ∧ t.linked? 0x1000 0 = some 0x2000 ∧
      t.linked? 0x1000 1 = some 0x1000 ∧ t.linked? 0x2000 0 = some 0x1000 := by
  have hbuilt := (((Built.empty.afterInsert loopBlock).afterInsert backBlock).erase
    0x2000).afterInsert backBlock
  refine ⟨_, hbuilt, ?_⟩
  have hlinked := (links_of_built hbuilt).2.2 (by decide)
  exact ⟨hlinked 0x1000 loopBlock rfl ⟨0x2000, 0, 0⟩ (by decide) rfl,
    hlinked 0x1000 loopBlock rfl ⟨0x1000, 1, 0⟩ (by decide) rfl,
    hlinked 0x2000 backBlock rfl ⟨0x1000, 0, 0⟩ (by decide) rfl⟩

end BlockTable

end MipsOnArm
