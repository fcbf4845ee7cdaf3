import Mathlib.Algebra.GroupWithZero.Nat
import MipsOnArm.Guest.Memory
import MipsOnArm.Proofs.Guest.Extent

/-! What guest memory holds after any changes. A byte of the window is the one that was last put
    there by the words written so far, and a word that is read is made of four of them. Words that
    are loaded together do not overlap, even where their addresses wrap around, so each of them is
    read back. -/

namespace MipsOnArm.Guest

/-! ### Bytes of words -/

/-- The word of four bytes, the lowest first. -/
def wordOf (b : Nat → BitVec 8) : Word := b 3 ++ b 2 ++ b 1 ++ b 0

/-- Byte number `k` of a word, counted from the lowest. -/
def byteOf (value : Word) (k : Nat) : BitVec 8 := value.extractLsb' (8 * k) 8

theorem wordOf_byteOf (value : Word) : wordOf (byteOf value) = value := by
  apply BitVec.eq_of_getLsbD_eq
  intro i hi
  simp only [wordOf, byteOf, BitVec.getLsbD_append, BitVec.getLsbD_extractLsb']
  grind

theorem wordOf_congr {b c : Nat → BitVec 8} (h : ∀ k < 4, b k = c k) : wordOf b = wordOf c := by
  simp only [wordOf, h 0 (by omega), h 1 (by omega), h 2 (by omega), h 3 (by omega)]

/-- The byte that a word at `addr` puts at the address `x`, if it reaches there. Addresses do not
    wrap around within a word. -/
def putAt? (x : Nat) (addr value : Word) : Option (BitVec 8) :=
  if addr.toNat ≤ x ∧ x < addr.toNat + 4 then some (byteOf value (x - addr.toNat)) else none

/-- The byte that was last put at the address `x`, and zero if none was. -/
def lastPut (writes : List (Word × Word)) (x : Nat) : BitVec 8 :=
  (writes.reverse.findSome? fun p => putAt? x p.1 p.2).getD 0

theorem lastPut_concat (writes : List (Word × Word)) (addr value : Word) (x : Nat) :
    lastPut (writes ++ [(addr, value)]) x = (putAt? x addr value).getD (lastPut writes x) := by
  rw [lastPut, List.reverse_append, List.reverse_singleton, List.singleton_append,
    List.findSome?_cons]
  cases putAt? x addr value with
  | none => rfl
  | some b => rfl

/-- Words that do not reach an address leave it alone. -/
theorem lastPut_append {writes late : List (Word × Word)} {x : Nat}
    (h : ∀ p ∈ late, putAt? x p.1 p.2 = none) : lastPut (writes ++ late) x = lastPut writes x := by
  have hlate : (late.reverse.findSome? fun p => putAt? x p.1 p.2) = none := by
    rw [List.findSome?_eq_none_iff]
    intro p hp
    exact h p (List.mem_reverse.mp hp)
  rw [lastPut, List.reverse_append, List.findSome?_append, hlate, Option.none_or, lastPut]

/-- The words that a load writes, each with its address. -/
def loaded (addr : Word) (values : List Word) : List (Word × Word) :=
  values.mapIdx fun i value => (addrAt addr i, value)

theorem loaded_cons (addr value : Word) (values : List Word) :
    loaded addr (value :: values) = (addr, value) :: loaded (addr + instrBytes) values := by
  rw [loaded, List.mapIdx_cons, addrAt_zero, loaded]
  simp only [addrAt_next]

/-- Among fewer than 2^30 words that are loaded together, no other reaches a byte of the one with
    number `i`. -/
theorem putAt?_addrAt_eq_none {addr value : Word} {i j k : Nat} (hij : i ≠ j) (hi : i < 2 ^ 30)
    (hj : j < 2 ^ 30) (hk : k < 4) :
    putAt? ((addrAt addr i).toNat + k) (addrAt addr j) value = none := by
  have haddr : ∀ n, (addrAt addr n).toNat = (addr.toNat + 4 * n) % 2 ^ 32 := by
    intro n
    rw [addrAt, BitVec.toNat_add, BitVec.toNat_ofNat]
    omega
  rw [putAt?, if_neg]
  rw [haddr, haddr]
  omega

theorem putAt?_self {addr value : Word} {k : Nat} (hk : k < 4) :
    putAt? (addr.toNat + k) addr value = some (byteOf value k) := by
  rw [putAt?, if_pos (by omega), Nat.add_sub_cancel_left]

/-- The last word to reach a byte of a loaded word is that word itself. -/
theorem lastPut_loaded {writes : List (Word × Word)} {addr : Word} {values : List Word}
    (hlen : values.length ≤ 2 ^ 30) {i k : Nat} (hi : i < values.length) (hk : k < 4) :
    lastPut (writes ++ loaded addr values) ((addrAt addr i).toNat + k) = byteOf values[i] k := by
  induction values generalizing writes addr i with
  | nil => cases hi
  | cons value values ih =>
    rw [List.length_cons] at hlen hi
    rw [loaded_cons, List.append_cons]
    cases i with
    | zero =>
      have hlate : ∀ p ∈ loaded (addr + instrBytes) values,
          putAt? ((addrAt addr 0).toNat + k) p.1 p.2 = none := by
        intro p hp
        obtain ⟨j, hj, rfl⟩ := List.mem_mapIdx.mp hp
        rw [addrAt_next]
        exact putAt?_addrAt_eq_none (by omega) (by omega) (by omega) hk
      rw [lastPut_append hlate, lastPut_concat, addrAt_zero, putAt?_self hk]
      rfl
    | succ i =>
      rw [← addrAt_next]
      exact ih (by omega) (by omega)

/-! ### The window -/

namespace Memory

/-- Not all four bytes of the word at `addr` are in the window. -/
def Outside (base : Word) (size : Nat) (addr : Word) : Prop :=
  addr < base ∨ size < (addr - base).toNat + 4

variable {m m' : Memory} {base addr value : Word} {size : Nat}

theorem offset?_of_outside (h : Outside m.base m.size addr) : m.offset? addr = none := by
  unfold offset?
  rw [if_neg]
  rintro ⟨hle, hsize⟩
  cases h with
  | inl hlt => exact absurd (BitVec.lt_def.mp hlt) (by omega)
  | inr h =>
    rw [BitVec.toNat_sub_of_le (BitVec.le_def.mpr hle)] at h
    omega

theorem offset?_of_inside (h : ¬ Outside m.base m.size addr) :
    m.offset? addr = some (addr - m.base).toNat ∧ (addr - m.base).toNat + 4 ≤ m.size ∧
      m.base.toNat + (addr - m.base).toNat = addr.toNat := by
  simp only [Outside, not_or, BitVec.not_lt, Nat.not_lt] at h
  obtain ⟨hle, hsize⟩ := h
  have hsub := BitVec.toNat_sub_of_le hle
  have hle' := BitVec.le_def.mp hle
  refine ⟨?_, hsize, by omega⟩
  unfold offset?
  rw [if_pos ⟨hle', by omega⟩, hsub]

theorem size_setBytes (bytes : Array (BitVec 8)) (offset : Nat) (value : Word) :
    (setBytes bytes offset value).size = bytes.size := by
  simp only [setBytes, Array.size_setIfInBounds]

/-- Four bytes are replaced, and no others. -/
theorem getElem?_setBytes {bytes : Array (BitVec 8)} {offset : Nat} (h : offset + 4 ≤ bytes.size)
    (value : Word) (i : Nat) :
    (setBytes bytes offset value)[i]? =
      if offset ≤ i ∧ i < offset + 4 then some (byteOf value (i - offset)) else bytes[i]? := by
  simp only [setBytes, Array.getElem?_setIfInBounds, Array.size_setIfInBounds]
  grind [byteOf]

/-- The byte at an offset into the window of a memory is one of those put there. -/
structure Holds (base : Word) (size : Nat) (writes : List (Word × Word)) (m : Memory) : Prop where
  base_eq : m.base = base
  size_eq : m.size = size
  byteAt_eq : ∀ i < size, m.byteAt i = lastPut writes (base.toNat + i)

theorem holds_zeroed (base : Word) (size : Nat) : (zeroed base size).Holds base size [] := by
  refine ⟨rfl, Array.size_replicate, fun i hi => ?_⟩
  simp [zeroed, byteAt, lastPut, hi]

theorem write_of_outside (h : Outside m.base m.size addr) (value : Word) :
    m.write addr value = .error (.outsideWindow addr m.base m.size) := by
  rw [write, offset?_of_outside h]

/-- A word inside the window can be written; it replaces its four bytes and no others. -/
theorem exists_write_of_inside (h : ¬ Outside m.base m.size addr) (value : Word) :
    ∃ m', m.write addr value = .ok m' ∧ m'.base = m.base ∧ m'.size = m.size ∧
      ∀ i, m'.byteAt i = (putAt? (m.base.toNat + i) addr value).getD (m.byteAt i) := by
  obtain ⟨hoffset, hsize, haddr⟩ := offset?_of_inside h
  refine ⟨{ m with bytes := setBytes m.bytes (addr - m.base).toNat value }, ?_, rfl,
    size_setBytes .., fun i => ?_⟩
  · rw [write, hoffset]
  · rw [byteAt, getElem?_setBytes hsize, putAt?, ← haddr, Nat.add_sub_add_left]
    by_cases hreach : (addr - m.base).toNat ≤ i ∧ i < (addr - m.base).toNat + 4
    · rw [if_pos hreach, if_pos (by omega)]
      rfl
    · rw [if_neg hreach, if_neg (by omega)]
      rfl

theorem not_outside_of_write (h : m.write addr value = .ok m') : ¬ Outside m.base m.size addr := by
  intro hout
  rw [write_of_outside hout] at h
  cases h

theorem not_outside_of_load {values : List Word} (h : m.load addr values = .ok m') {i : Nat}
    (hi : i < values.length) : ¬ Outside m.base m.size (addrAt addr i) := by
  induction values generalizing m addr i with
  | nil => cases hi
  | cons value values ih =>
    rw [load] at h
    cases hwrite : m.write addr value with
    | error fault => rw [hwrite] at h; cases h
    | ok n =>
      rw [hwrite] at h
      have hin := not_outside_of_write hwrite
      cases i with
      | zero => rwa [addrAt_zero]
      | succ i =>
        obtain ⟨n', hn', hbase, hsize, -⟩ := exists_write_of_inside hin value
        cases hwrite.symm.trans hn'
        rw [← hbase, ← hsize, ← addrAt_next]
        exact ih h (Nat.lt_of_succ_lt_succ hi)

namespace Holds

variable {writes : List (Word × Word)}

theorem write (h : m.Holds base size writes) (hrun : m.write addr value = .ok m') :
    m'.Holds base size (writes ++ [(addr, value)]) := by
  obtain ⟨n, hn, hbase, hsize, hbytes⟩ :=
    exists_write_of_inside (not_outside_of_write hrun) value
  cases hrun.symm.trans hn
  refine ⟨hbase.trans h.base_eq, hsize.trans h.size_eq, fun i hi => ?_⟩
  rw [hbytes, lastPut_concat, h.base_eq, h.byteAt_eq i hi]

/-- A load writes its words one after the other. -/
theorem load {values : List Word} (h : m.Holds base size writes)
    (hrun : m.load addr values = .ok m') : m'.Holds base size (writes ++ loaded addr values) := by
  induction values generalizing m addr writes with
  | nil =>
    cases hrun
    rw [loaded, List.mapIdx_nil, List.append_nil]
    exact h
  | cons value values ih =>
    rw [Memory.load] at hrun
    cases hwrite : m.write addr value with
    | error fault => rw [hwrite] at hrun; cases hrun
    | ok n =>
      rw [hwrite] at hrun
      rw [loaded_cons, List.append_cons]
      exact ih (h.write hwrite) hrun

/-- A word inside the window is made of the bytes last put at its four addresses. -/
theorem read (h : m.Holds base size writes) (addr : Word) :
    (Outside base size addr → m.read addr = 0) ∧
      (¬ Outside base size addr →
        m.read addr = wordOf fun k => lastPut writes (addr.toNat + k)) := by
  obtain ⟨rfl, rfl, hbytes⟩ := h
  constructor
  · intro hout
    rw [Memory.read, offset?_of_outside hout]
  · intro hin
    obtain ⟨hoffset, hsize, haddr⟩ := offset?_of_inside hin
    rw [Memory.read, hoffset]
    refine wordOf_congr (b := fun k => m.byteAt ((addr - m.base).toNat + k)) fun k hk => ?_
    rw [hbytes _ (by omega), ← Nat.add_assoc, haddr]

end Holds

/-! ### Histories -/

/-- A change of guest memory. -/
inductive Change
  | word (addr value : Word)
  | words (addr : Word) (values : List Word)

/-- The words that a change writes, each with its address. -/
def Change.writes : Change → List (Word × Word)
  | word addr value => [(addr, value)]
  | words addr values => loaded addr values

/-- Makes a change. -/
def change (m : Memory) : Change → Except Fault Memory
  | .word addr value => m.write addr value
  | .words addr values => m.load addr values

/-- Makes changes one after the other. -/
def changeAll (m : Memory) : List Change → Except Fault Memory
  | [] => .ok m
  | c :: cs => do
    let m ← m.change c
    m.changeAll cs

theorem Holds.change {writes : List (Word × Word)} {c : Change} (h : m.Holds base size writes)
    (hrun : m.change c = .ok m') : m'.Holds base size (writes ++ c.writes) := by
  cases c with
  | word addr value => exact h.write hrun
  | words addr values => exact h.load hrun

theorem Holds.changeAll {writes : List (Word × Word)} {cs : List Change}
    (h : m.Holds base size writes) (hrun : m.changeAll cs = .ok m') :
    m'.Holds base size (writes ++ cs.flatMap Change.writes) := by
  induction cs generalizing m writes with
  | nil =>
    cases hrun
    rw [List.flatMap_nil, List.append_nil]
    exact h
  | cons c cs ih =>
    rw [Memory.changeAll] at hrun
    cases hchange : m.change c with
    | error fault => rw [hchange] at hrun; cases hrun
    | ok n =>
      rw [hchange] at hrun
      rw [List.flatMap_cons, ← List.append_assoc]
      exact ih (h.change hchange) hrun

/-- After any changes that have succeeded, a word is read as zero unless all of it is inside the
    window, and else as its four bytes, lowest first, each as it was last put there. A word is
    written just where it could be read, and replaces its four bytes alone. Words loaded together
    are all read back, also where the addresses wrap around. -/
theorem read_of_changeAll {base : Word} {size : Nat} {cs : List Change} {m : Memory}
    (h : (zeroed base size).changeAll cs = .ok m) :
    (∀ addr, (Outside base size addr → m.read addr = 0) ∧
      (¬ Outside base size addr →
        m.read addr = wordOf fun k => lastPut (cs.flatMap Change.writes) (addr.toNat + k))) ∧
    (∀ addr value, (Outside base size addr →
        m.write addr value = .error (.outsideWindow addr base size)) ∧
      (¬ Outside base size addr →
        ∃ m', m.write addr value = .ok m' ∧ m'.base = base ∧ m'.size = size ∧
          ∀ i, m'.byteAt i = (putAt? (base.toNat + i) addr value).getD (m.byteAt i))) ∧
    ∀ addr values m', values.length ≤ 2 ^ 30 → m.load addr values = .ok m' →
      ∀ i (hi : i < values.length), m'.read (addrAt addr i) = values[i] := by
  have hm := (holds_zeroed base size).changeAll h
  refine ⟨hm.read, fun addr value => ?_, fun addr values m' hlen hload i hi => ?_⟩
  · rw [← hm.base_eq, ← hm.size_eq]
    exact ⟨fun hout => write_of_outside hout value, fun hin => exists_write_of_inside hin value⟩
  · have hin := not_outside_of_load hload hi
    rw [hm.base_eq, hm.size_eq] at hin
    rw [((hm.load hload).read _).2 hin, ← wordOf_byteOf values[i]]
    exact wordOf_congr fun k hk => lastPut_loaded hlen hi hk

/-- Words that overlap, in a window that reaches past the last address. -/
def overlapping : List Change :=
  [.word 0xfffffff1 0x11223344, .words 0xfffffff3 [0xaabbccdd, 0x55667788]]

theorem read_of_changeAll_overlapping : ∃ m m',
    (zeroed 0xfffffff0 18).changeAll overlapping = .ok m ∧ m.load 0xfffffff1 [7, 9] = .ok m' ∧
      m.read 0xfffffff2 = 0xbbccdd33 ∧ m.read 0xffffffff = 0 ∧
      m.write 0xffffffff 1 = .error (.outsideWindow 0xffffffff 0xfffffff0 18) ∧
      (∃ n, m.write 0xfffffff2 1 = .ok n) ∧ m'.read 0xfffffff5 = 9 := by
  obtain ⟨m, m', hm, hm'⟩ : ∃ m m', (zeroed 0xfffffff0 18).changeAll overlapping = .ok m ∧
      m.load 0xfffffff1 [7, 9] = .ok m' := ⟨_, _, rfl, rfl⟩
  have hout : Outside 0xfffffff0 18 0xffffffff := .inr (by decide)
  have hin : ¬ Outside 0xfffffff0 18 0xfffffff2 := by
    rintro (h | h) <;> revert h <;> decide
  obtain ⟨hread, hwrite, hload⟩ := read_of_changeAll hm
  obtain ⟨n, hn, -⟩ := (hwrite _ 1).2 hin
  exact ⟨m, m', hm, hm', ((hread _).2 hin).trans (by decide), (hread _).1 hout,
    (hwrite _ 1).1 hout, ⟨n, hn⟩, hload _ _ _ (by decide) hm' 1 (by decide)⟩

end Memory

end MipsOnArm.Guest
