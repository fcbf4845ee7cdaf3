import MipsOnArm.Proofs.Host.StraightLine

/-! Code in good order: it ends where control is handed back, its one branch leads forward and stays
    within, a native call is followed by the way out, and only fields of the guest state are loaded
    and stored. Such code is always left, without a fault and without running any instruction twice,
    from whatever machine it starts. -/

namespace MipsOnArm
open Guest

namespace Host

variable {σ : Type}

/-- Whether an instruction hands control back. -/
def Instr.leaves : Instr → Bool
  | exit .. => true
  | exitToReg _ => true
  | exitSyscall => true
  | _ => false

/-- Whether an instruction may continue elsewhere in the code. -/
def Instr.branches : Instr → Bool
  | branch .. => true
  | _ => false

/-- The offsets of a register other than zero. -/
def RegisterOffset (offset : Nat) : Prop := ∃ r, r ≠ Reg.zero ∧ offset = (Field.gpr r).offset

/-- What code that starts at index `base` may hold as its instruction number `k`. -/
def InPlace (base : Nat) (code : List Instr) (k : Nat) : Instr → Prop
  | .branch _ target? =>
    ∃ target, target? = some target ∧ base + k < target ∧ target < base + code.length
  | .callSyscall _ => code[k + 1]? = some .exitSyscall
  | .store _ offset => RegisterOffset offset ∨ offset = Field.pc.offset
  | .load _ offset =>
    RegisterOffset offset ∨ offset = Field.fpuCond.offset ∨ offset = Field.vfpuCond.offset
  | _ => True

/-- Code that starts at index `base` is in good order. -/
structure Orderly (base : Nat) (code : List Instr) : Prop where
  ends : ∃ i, code.getLast? = some i ∧ i.leaves = true
  branches : code.countP Instr.branches ≤ 1
  inPlace : ∀ k i, code[k]? = some i → InPlace base code k i

/-- The instruction is no branch, and may stand anywhere. -/
structure Plain (i : Instr) : Prop where
  branches : i.branches = false
  inPlace : ∀ base code k, InPlace base code k i

/-! ### Code in good order, put together from its end -/

theorem Plain.of_leaves {i : Instr} (h : i.leaves = true) : Plain i := by
  cases i with
  | exit | exitToReg | exitSyscall => exact ⟨rfl, fun _ _ _ => trivial⟩
  | _ => cases h

/-- Instructions in front move the others, with the targets of their branches. -/
theorem InPlace.cons {base : Nat} {code : List Instr} {k : Nat} {i : Instr}
    (h : InPlace (base + 1) code k i) (j : Instr) : InPlace base (j :: code) (k + 1) i := by
  cases i with
  | branch cond target? =>
    obtain ⟨target, htarget, hlow, hhigh⟩ := h
    refine ⟨target, htarget, ?_, ?_⟩
    · omega
    · rw [List.length_cons]
      omega
  | _ => exact h

namespace Orderly

variable {base : Nat} {code : List Instr} {i : Instr}

theorem single (h : i.leaves = true) : Orderly base [i] where
  ends := ⟨i, rfl, h⟩
  branches := List.countP_le_length
  inPlace k j hj := by
    cases List.mem_singleton.mp (List.mem_of_getElem? hj)
    exact (Plain.of_leaves h).inPlace base [i] k

/-- An instruction in its place in front of code in good order. -/
theorem cons (h : Orderly (base + 1) code) (hi : InPlace base (i :: code) 0 i)
    (hcount : (i :: code).countP Instr.branches ≤ 1) : Orderly base (i :: code) where
  ends := by
    obtain ⟨j, hj, hleaves⟩ := h.ends
    exact ⟨j, by rw [List.getLast?_cons, hj]; rfl, hleaves⟩
  branches := hcount
  inPlace k j hj := by
    cases k with
    | zero =>
      cases hj
      exact hi
    | succ k => exact (h.inPlace k j hj).cons i

theorem cons_plain (h : Orderly (base + 1) code) (hi : Plain i) : Orderly base (i :: code) := by
  refine h.cons (hi.inPlace _ _ _) ?_
  rw [List.countP_cons, hi.branches]
  exact h.branches

theorem append_plain {is : List Instr} (h : Orderly (base + is.length) code)
    (his : ∀ i ∈ is, Plain i) : Orderly base (is ++ code) := by
  induction is generalizing base with
  | nil => exact h
  | cons i is ih =>
    rw [List.length_cons, ← Nat.add_assoc, Nat.add_right_comm] at h
    exact (ih h fun j hj => his j (List.mem_cons_of_mem _ hj)).cons_plain
      (his i List.mem_cons_self)

/-- A native call, with the way out behind it. -/
theorem cons_call (h : Orderly (base + 1) (.exitSyscall :: code)) (word : Word) :
    Orderly base (.callSyscall word :: .exitSyscall :: code) :=
  h.cons (i := .callSyscall word) rfl h.branches

/-- The branch, which leads forward to one of the instructions behind it. -/
theorem cons_branch (h : Orderly (base + 1) code) (cond : Cond) {target : Nat}
    (hlow : base < target) (hhigh : target ≤ base + code.length)
    (hcode : code.countP Instr.branches = 0) :
    Orderly base (.branch cond (some target) :: code) := by
  refine h.cons ⟨target, rfl, hlow, ?_⟩ ?_
  · rw [List.length_cons]
    omega
  · rw [List.countP_cons, hcode, Nat.zero_add]
    split <;> omega

end Orderly

/-! ### Which instructions are run -/

/-- As `Machine.run`, with the indices of the instructions that were run. -/
def Machine.trace (handler : Handler σ) (residue : Residue) (entry : Word) (code : Array Instr) :
    (fuel index : Nat) → Machine σ → List Nat × Except Fault (Machine σ × Departure)
  | 0, _, _ => ([], .error .stepLimit)
  | fuel + 1, index, m =>
    match code[index]? with
    | none => ([], .error (.fellOffEnd entry index))
    | some instr =>
      match m.perform handler residue index instr with
      | .error fault => ([index], .error fault)
      | .ok (m, .next) =>
        let (path, result) := trace handler residue entry code fuel (index + 1) m
        (index :: path, result)
      | .ok (m, .goto target) =>
        let (path, result) := trace handler residue entry code fuel target m
        (index :: path, result)
      | .ok (m, .leave departure) => ([index], .ok (m, departure))

section
variable {handler : Handler σ} {residue : Residue} {entry : Word} {code : Array Instr}

/-- Writing the indices down does not change the run. -/
theorem Machine.snd_trace (fuel index : Nat) (x : Machine σ) :
    (Machine.trace handler residue entry code fuel index x).2 =
      Machine.run handler residue entry code fuel index x := by
  induction fuel generalizing index x with
  | zero => rfl
  | succ fuel ih =>
    rw [trace, run]
    cases code[index]? with
    | none => rfl
    | some i =>
      dsimp only
      cases x.perform handler residue index i with
      | error fault => rfl
      | ok p =>
        obtain ⟨y, flow⟩ := p
        cases flow with
        | next => exact ih (index + 1) y
        | goto target => exact ih target y
        | leave departure => rfl

/-- What running the instruction at `index` may come to in code of the given size: control is handed
    back, or goes on further down. -/
inductive Proceeds (size index : Nat) : Except Fault (Machine σ × Flow) → Prop
  | leave (y : Machine σ) (d : Departure) : Proceeds size index (.ok (y, .leave d))
  | next (y : Machine σ) (hlt : index + 1 < size) : Proceeds size index (.ok (y, .next))
  | goto (y : Machine σ) {target : Nat} (hlow : index < target) (hhigh : target < size) :
      Proceeds size index (.ok (y, .goto target))

/-- An instruction that does not leave is not the last one. -/
theorem Orderly.succ_lt_size (h : Orderly 0 code.toList) {index : Nat} {i : Instr}
    (hi : code[index]? = some i) (hstays : i.leaves = false) : index + 1 < code.size := by
  obtain ⟨j, hj, hleaves⟩ := h.ends
  have hlt := (Array.getElem?_eq_some_iff.mp hi).1
  refine Nat.lt_of_not_le ?_
  intro hlast
  rw [List.getLast?_eq_getElem?, Array.length_toList, Array.getElem?_toList,
    show code.size - 1 = index by omega, hi] at hj
  cases hj
  cases hstays.symm.trans hleaves

/-- An instruction in its place is run without a fault, and control goes no way but down. -/
theorem Orderly.proceeds (h : Orderly 0 code.toList) {index : Nat} {i : Instr}
    (hi : code[index]? = some i) (handler : Handler σ) (residue : Residue) (x : Machine σ) :
    Proceeds code.size index (x.perform handler residue index i) := by
  have hplace := h.inPlace index i (Array.getElem?_toList ▸ hi)
  have hnext := h.succ_lt_size hi
  cases i with
  | exit | exitToReg | exitSyscall => exact .leave x _
  | branch cond target? =>
    obtain ⟨target, rfl, hlow, hhigh⟩ := hplace
    rw [Nat.zero_add] at hlow hhigh
    rw [Machine.perform]
    cases cond.holds x.flags with
    | true => exact .goto x hlow hhigh
    | false => exact .next x (hnext rfl)
  | load dst offset =>
    obtain ⟨f, rfl⟩ : ∃ f : Field, offset = f.offset := by
      rcases hplace with ⟨r, -, rfl⟩ | rfl | rfl
      · exact ⟨_, rfl⟩
      · exact ⟨_, rfl⟩
      · exact ⟨_, rfl⟩
    rw [step_load]
    exact .next _ (hnext rfl)
  | store src offset =>
    obtain ⟨f, rfl⟩ : ∃ f : Field, offset = f.offset := by
      rcases hplace with ⟨r, -, rfl⟩ | rfl
      · exact ⟨_, rfl⟩
      · exact ⟨_, rfl⟩
    rw [step_store]
    exact .next _ (hnext rfl)
  | _ => exact .next _ (hnext rfl)

variable (handler residue entry code) in
/-- From `index` on, the instructions numbered `path` are run, each further down than the one before
    it, and then control is handed back. -/
structure Descends (index : Nat) (x : Machine σ) (path : List Nat) (y : Machine σ) (d : Departure) :
    Prop where
  trace : ∀ fuel, code.size - index ≤ fuel →
    Machine.trace handler residue entry code fuel index x = (path, .ok (y, d))
  sorted : path.Pairwise (· < ·)
  low : ∀ k ∈ path, index ≤ k
  length : path.length ≤ code.size - index

theorem Descends.leave {index : Nat} {i : Instr} {x y : Machine σ} {d : Departure}
    (hi : code[index]? = some i)
    (hperform : x.perform handler residue index i = .ok (y, .leave d)) :
    Descends handler residue entry code index x [index] y d where
  trace fuel hfuel := by
    obtain ⟨f, rfl, -⟩ := exists_fuel_of_getElem? hi hfuel
    simp only [Machine.trace, hi, hperform]
  sorted := List.pairwise_singleton ..
  low k hk := Nat.le_of_eq (List.mem_singleton.mp hk).symm
  length := by
    have hlt := (Array.getElem?_eq_some_iff.mp hi).1
    rw [List.length_singleton]
    omega

theorem Descends.cons {index next : Nat} {i : Instr} {x y z : Machine σ} {path : List Nat}
    {d : Departure} (h : Descends handler residue entry code next y path z d)
    (hi : code[index]? = some i) (hlow : index < next)
    (hperform : x.perform handler residue index i = .ok (y, .goto next) ∨
      next = index + 1 ∧ x.perform handler residue index i = .ok (y, .next)) :
    Descends handler residue entry code index x (index :: path) z d where
  trace fuel hfuel := by
    obtain ⟨f, rfl, hle⟩ := exists_fuel_of_getElem? hi hfuel
    have hrest := h.trace f (hle next hlow)
    rcases hperform with hgoto | ⟨rfl, hnext⟩
    · simp only [Machine.trace, hi, hgoto, hrest]
    · simp only [Machine.trace, hi, hnext, hrest]
  sorted := h.sorted.cons fun k hk => Nat.lt_of_lt_of_le hlow (h.low k hk)
  low k hk := by
    rcases List.mem_cons.mp hk with rfl | hk
    · exact Nat.le_refl k
    · exact Nat.le_trans (Nat.le_of_lt hlow) (h.low k hk)
  length := by
    have hlt := (Array.getElem?_eq_some_iff.mp hi).1
    have hlength := h.length
    rw [List.length_cons]
    omega

variable (handler residue entry) in
/-- Code in good order is left from every index, by going down. -/
theorem Orderly.exists_descends (h : Orderly 0 code.toList) {index : Nat} (hlt : index < code.size)
    (x : Machine σ) : ∃ path y d, Descends handler residue entry code index x path y d := by
  -- the induction is on the code that is left below
  induction hn : code.size - index using Nat.strongRecOn generalizing index x with
  | _ n ih =>
    subst hn
    obtain ⟨i, hi⟩ : ∃ i, code[index]? = some i := ⟨_, Array.getElem?_eq_getElem hlt⟩
    have hproceeds := h.proceeds hi handler residue x
    generalize hperform : x.perform handler residue index i = outcome at hproceeds
    cases hproceeds with
    | leave y d => exact ⟨[index], y, d, .leave hi hperform⟩
    | next y hnext =>
      obtain ⟨path, z, d, hrest⟩ := ih _ (by omega) hnext y rfl
      exact ⟨index :: path, z, d, hrest.cons hi (Nat.lt_succ_self index) (.inr ⟨rfl, hperform⟩)⟩
    | goto y hlow hhigh =>
      obtain ⟨path, z, d, hrest⟩ := ih _ (by omega) hhigh y rfl
      exact ⟨index :: path, z, d, hrest.cons hi hlow (.inl hperform)⟩

theorem Descends.run {index fuel : Nat} {x y : Machine σ} {path : List Nat} {d : Departure}
    (h : Descends handler residue entry code index x path y d) (hfuel : code.size - index ≤ fuel) :
    Machine.run handler residue entry code fuel index x = .ok (y, d) := by
  rw [← Machine.snd_trace, h.trace fuel hfuel]

end

end Host

end MipsOnArm
