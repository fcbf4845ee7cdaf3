import MipsOnArm.Proofs.Host.Orderly
import MipsOnArm.Proofs.Lowering.Faultless
import MipsOnArm.Proofs.Preservation

/-! Lowered code is in good order, whichever instruction ends the block: each branch has the
    instructions that it skips and an exit behind it, and a system call in a delay slot brings its
    own way out. So the execution of a block is bounded by the length of its code. -/

namespace MipsOnArm
open Guest Host Lowering

variable {fetch : Word → Word} {m : RegisterMap} {pc addr : Word} {base n : Nat}

/-! ### Instructions that may stand anywhere -/

theorem Host.Confined.plain {budget : List Host.Reg} {i : Host.Instr} (h : Confined budget i) :
    Plain i := by
  cases h with
  | load _ hr => exact ⟨rfl, fun _ _ _ => .inl ⟨_, hr, rfl⟩⟩
  | loadCondition hf =>
    refine ⟨rfl, fun _ _ _ => .inr ?_⟩
    rcases hf with rfl | rfl
    · exact .inl rfl
    · exact .inr rfl
  | store _ hr => exact ⟨rfl, fun _ _ _ => .inl ⟨_, hr, rfl⟩⟩
  | _ => exact ⟨rfl, fun _ _ _ => trivial⟩

theorem Host.Auxiliary.plain {i : Host.Instr} (h : Auxiliary i) : Plain i := by
  cases h with
  | storePc => exact ⟨rfl, fun _ _ _ => .inr rfl⟩
  | _ => exact ⟨rfl, fun _ _ _ => trivial⟩

theorem Host.Listed.plain {budget : List Host.Reg} {code : List Host.Instr}
    (h : Listed budget code) : ∀ i ∈ code, Plain i := fun i hi =>
  (h i hi).elim Confined.plain Auxiliary.plain

/-! ### Delay slots -/

/-- The code of a slot: instructions that may stand anywhere, and where it ends the block a native
    call with its way out. -/
inductive SlotCode : (isOpen : Bool) → List Host.Instr → Prop
  | plain {code : List Host.Instr} (h : ∀ i ∈ code, Plain i) : SlotCode true code
  | call {code : List Host.Instr} (word : Word) (h : ∀ i ∈ code, Plain i) :
      SlotCode false (code ++ [.callSyscall word, .exitSyscall])

theorem SlotLowered.slotCode {r : SlotOutput} (h : SlotLowered fetch addr m r) (hm : m.Idle)
    (hok : r.verdict = .ok ()) : SlotCode r.isOpen r.code := by
  cases h with
  | operation _ hrun hflush =>
    have he := realises_of_run hm hrun
    have he' := he.idle.flushes_of_run hflush
    refine .plain ?_
    intro i hi
    rcases List.mem_append.mp hi with hi | hi
    · exact (he.confined i hi).plain
    · exact (he'.confined i hi).plain
  | syscall _ hflush => exact .call _ fun i hi => ((hm.flushes_of_run hflush).confined i hi).plain
  | branch => cases hok
  | unsupported => cases hok

namespace SlotCode

variable {isOpen : Bool} {is code : List Host.Instr}

theorem countP_branches (h : SlotCode isOpen is) : is.countP Instr.branches = 0 := by
  have hplain : ∀ js : List Host.Instr, (∀ i ∈ js, Plain i) → js.countP Instr.branches = 0 := by
    intro js hjs
    refine List.countP_eq_zero.mpr ?_
    intro i hi
    rw [(hjs i hi).branches]
    exact Bool.false_ne_true
  cases h with
  | plain h => exact hplain _ h
  | call word h => rw [List.countP_append, hplain _ h]; rfl

/-- A slot in front of code in good order, which it may skip. -/
theorem orderly_append (h : SlotCode isOpen is) (hcode : Orderly (base + is.length) code) :
    Orderly base (is ++ code) := by
  cases h with
  | plain h => exact hcode.append_plain h
  | @call pre word h =>
    rw [List.append_assoc]
    rw [List.length_append, ← Nat.add_assoc] at hcode
    exact ((hcode.cons_plain (.of_leaves rfl)).cons_call word).append_plain h

/-- A slot that ends the block is in good order by itself. -/
theorem orderly (h : SlotCode false is) : Orderly base is := by
  cases h with
  | call word h => exact ((Orderly.single rfl).cons_call word).append_plain h

end SlotCode

namespace Delayed

variable {r : SlotOutput}

/-- The exits behind a slot are reached by the branch past it. -/
theorem orderly_aroundBranch (b : Branch) (target past : Word) (hr : SlotCode r.isOpen r.code) :
    Orderly base (aroundBranch b target past base r).1 := by
  have hpast : ∀ base, Orderly base [.exit past 1] := fun base => .single rfl
  have hexits : ∀ base, Orderly base [.exit target 0, .exit past 1] := fun base =>
    (hpast (base + 1)).cons_plain (.of_leaves rfl)
  have hcount : ∀ out : List Host.Instr, out.countP Instr.branches = 0 →
      (r.code ++ out).countP Instr.branches = 0 := by
    intro out hout
    rw [List.countP_append, hr.countP_branches, hout]
  cases hl : b.likely with
  | true =>
    cases ho : r.isOpen with
    | true =>
      simp only [aroundBranch, hl, ho]
      refine (hr.orderly_append (hexits _)).cons_branch _ ?_ ?_ (hcount _ rfl)
      · omega
      · simp only [List.length_append, List.length_cons, List.length_nil]
        omega
    | false =>
      simp only [aroundBranch, hl, ho]
      refine (hr.orderly_append (hpast _)).cons_branch _ ?_ ?_ (hcount _ rfl)
      · omega
      · simp only [List.length_append, List.length_cons, List.length_nil]
        omega
  | false =>
    have hplain : ∀ {i : Host.Instr}, i = .saveFlags Host.Reg.savedFlags ∨
        i = .restoreFlags Host.Reg.savedFlags → Plain i := by
      rintro i (rfl | rfl)
      · exact ⟨rfl, fun _ _ _ => trivial⟩
      · exact ⟨rfl, fun _ _ _ => trivial⟩
    cases ho : r.isOpen with
    | true =>
      simp only [aroundBranch, hl, ho]
      refine (hr.orderly_append (Orderly.cons_plain (Orderly.cons_branch (hexits _) _ ?_ ?_ rfl)
        (hplain (.inr rfl)))).cons_plain (hplain (.inl rfl))
      · omega
      · simp only [List.length_cons, List.length_nil]
        omega
    | false =>
      simp only [aroundBranch, hl, ho]
      rw [ho] at hr
      exact hr.orderly.cons_plain (hplain (.inl rfl))

/-- A delay slot is in good order with the code around it. -/
theorem orderly_around (d : Delayed) (pc : Word) (hr : SlotCode r.isOpen r.code) :
    Orderly base (d.around pc base r).1 := by
  have hreturn : ∀ link i, i ∈ returnCode pc link → Plain i := fun link =>
    (listed_returnCode [] pc link).plain
  cases d with
  | branch b target => exact orderly_aroundBranch b target _ hr
  | jump link target =>
    cases ho : r.isOpen with
    | true =>
      simp only [around, ho, if_true, List.append_assoc]
      exact hr.orderly_append ((Orderly.single rfl).append_plain (hreturn link))
    | false =>
      simp only [around, ho, Bool.false_eq_true, if_false]
      rw [ho] at hr
      exact hr.orderly
  | jumpReg link rs =>
    cases ho : r.isOpen with
    | true =>
      simp only [around, ho, if_true, List.append_assoc]
      exact hr.orderly_append ((Orderly.single rfl).append_plain (hreturn link))
    | false =>
      simp only [around, ho, Bool.false_eq_true, if_false]
      rw [ho] at hr
      exact hr.orderly

end Delayed

/-! ### Whole blocks -/

/-- The rest of a block that is not refused is in good order. -/
theorem RestLowered.orderly {r : RestOutput} (h : RestLowered fetch n pc m base r) (hm : m.Idle)
    (hok : r.verdict = .ok ()) : Orderly base r.code := by
  induction h with
  | limit hflush =>
    exact (Orderly.single rfl).append_plain fun i hi =>
      ((hm.flushes_of_run hflush).confined i hi).plain
  | operation _ hrun _ ih =>
    have he := realises_of_run hm hrun
    exact (ih he.idle hok).append_plain fun i hi => (he.confined i hi).plain
  | @syscall n pc m base e _ hflush =>
    refine ((Orderly.single rfl).cons_call _).append_plain ?_
    intro i hi
    rcases List.mem_append.mp hi with hi | hi
    · exact ((hm.flushes_of_run hflush).confined i hi).plain
    · exact (listed_storePcCode [] _).plain i hi
  | @delayed n pc m base c d e r _ _ hrun hslot =>
    have he := Delayed.opens_of_run hm hrun
    exact (d.orderly_around pc (hslot.slotCode he.idle hok)).append_plain he.listed.plain
  | unsupported => cases hok

/-- Every block is in good order, and its execution runs no instruction twice: it takes no more
    steps than there are instructions, and ends without a fault, from every host and guest state. -/
theorem orderly_of_lowerBlock {t u : Compiler} (ht : Driven t) {entry : Word} {b : Block}
    (h : (lowerBlock fetch entry).run t = .ok (.ok b, u)) :
    Orderly 0 b.code.toList ∧
      ∀ {σ : Type} (handler : Handler σ) (residue : Residue) (x : Machine σ), ∃ path y d,
        Machine.trace handler residue b.entry b.code b.code.size 0 x = (path, .ok (y, d)) ∧
          path.Nodup ∧ path.length ≤ b.code.size ∧
          b.executeFrom handler residue x = .ok (d.execution y.cpu y.env y.calls) := by
  obtain ⟨r, hr, hok, rfl⟩ := exists_restLowered ht.atRest.fits h
  have horder : Orderly 0 r.code.toArray.toList := hr.orderly (RegisterMap.idle_fresh _) hok
  refine ⟨horder, ?_⟩
  intro σ handler residue x
  have hpos : 0 < r.code.toArray.size := by
    obtain ⟨i, hi, -⟩ := horder.ends
    exact List.length_pos_of_mem (List.mem_of_getLast? hi)
  obtain ⟨path, y, d, hdown⟩ := horder.exists_descends handler residue entry hpos x
  refine ⟨path, y, d, hdown.trace _ (Nat.sub_le ..), hdown.sorted.imp Nat.ne_of_lt, hdown.length,
    ?_⟩
  have hlimit : r.code.toArray.size - 0 ≤
      Block.stepLimit ⟨entry, r.count, r.code.toArray, r.exits⟩ := Nat.le_add_right _ _
  rw [Block.executeFrom, hdown.run hlimit]
  rfl

/-- The block with a system call in the slot of its branch. -/
theorem orderly_of_lowerBlock_constantBranch :
    ∃ b t, (lowerBlock constantBranch 0).run (.fresh ⟨4, 3⟩) = .ok (.ok b, t) ∧ b.count = 3 ∧
      Orderly 0 b.code.toList ∧ ∃ path y d,
        Machine.trace countCalls Residue.standard 0 b.code b.code.size 0 (.start (.start 0) 0) =
          (path, .ok (y, d)) ∧ path.Nodup := by
  obtain ⟨b, hfresh, hentry, hcount⟩ := exists_freshly_constantBranch
  obtain ⟨t, h⟩ := exists_run_of_freshly hfresh
  obtain ⟨horder, hexecute⟩ := orderly_of_lowerBlock (.fresh ⟨4, 3⟩) h
  obtain ⟨path, y, d, htrace, hnodup, -⟩ :=
    hexecute countCalls Residue.standard (.start (.start 0) 0)
  exact ⟨b, t, h, hcount, horder, path, y, d, hentry ▸ htrace, hnodup⟩

end MipsOnArm
