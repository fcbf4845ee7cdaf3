import MipsOnArm.Proofs.Host.Reserved
import MipsOnArm.Proofs.Lowering.Calls
import MipsOnArm.Proofs.Residency.Invariant

/-! Lowered code keeps the discipline of the registers with a part of their own, refused or not. A
    branch saves the flags and a register jump keeps its destination in the same register, but a
    block has one of them at most, since none is let into a delay slot. -/

namespace MipsOnArm
open Guest Host

variable {fetch : Word → Word} {budget : List Host.Reg} {m : RegisterMap} {pc addr : Word}

/-- The registers of the budget have no part of their own. -/
theorem RegisterMap.Idle.budget_ne (hm : m.Idle) :
    ∀ h ∈ m.budget, h ≠ Reg.savedFlags ∧ h ≠ Reg.base := fun _ hh =>
  (hm.toWellFormed.ne_reserved hh).2

/-! ### Instructions with no part in it -/

theorem Host.Confined.free {i : Host.Instr} (h : Confined budget i) : Free budget i := by
  refine ⟨h.keeps, ?_⟩
  cases h <;> rfl

theorem Host.Free.scratch {i : Host.Instr} (hdst : i.dst? = some Reg.scratch)
    (hspecial : i.special = false) : Free budget i := by
  refine ⟨?_, hspecial⟩
  intro r hr
  cases hdst.symm.trans hr
  exact .inl rfl

theorem Host.Free.none {i : Host.Instr} (hdst : i.dst? = none) (hspecial : i.special = false) :
    Free budget i := by
  refine ⟨?_, hspecial⟩
  intro r hr
  cases hdst.symm.trans hr

/-- An address is stored by way of the scratch register. -/
theorem free_storePcCode (target : Word) : ∀ i ∈ storePcCode target, Free budget i :=
  List.forall_mem_cons.mpr ⟨.scratch rfl rfl,
    List.forall_mem_singleton.mpr (.none rfl rfl)⟩

theorem free_returnCode (pc : Word) (link : Option Guest.Reg) :
    ∀ i ∈ returnCode pc link, Free budget i := by
  cases link with
  | none => exact fun i hi => absurd hi List.not_mem_nil
  | some r =>
    rw [returnCode]
    split
    · exact fun i hi => absurd hi List.not_mem_nil
    · exact List.forall_mem_cons.mpr ⟨.scratch rfl rfl,
        List.forall_mem_singleton.mpr (.none rfl rfl)⟩

theorem free_branchPcCode (b : Branch) (pc target : Word) :
    ∀ i ∈ branchPcCode b pc target, Free budget i :=
  List.forall_mem_cons.mpr ⟨.scratch rfl rfl, List.forall_mem_cons.mpr ⟨.scratch rfl rfl,
    List.forall_mem_singleton.mpr (.none rfl rfl)⟩⟩

theorem free_call (word : Word) : ∀ i ∈ [.callSyscall word, .exitSyscall], Free budget i :=
  List.forall_mem_cons.mpr ⟨.none rfl rfl, List.forall_mem_singleton.mpr (.none rfl rfl)⟩

theorem free_of_flush (hm : m.Idle) {e : Emitted Unit} (hflush : Emit.flushAll.run m = .ok e) :
    ∀ i ∈ e.code, Free m.budget i := fun i hi => ((hm.flushes_of_run hflush).confined i hi).free

theorem SlotLowered.free {r : SlotOutput} (h : SlotLowered fetch addr m r) (hm : m.Idle) :
    ∀ i ∈ r.code, Free m.budget i := by
  cases h with
  | operation _ hrun hflush =>
    have he := realises_of_run hm hrun
    exact free_append (fun i hi => (he.confined i hi).free)
      (he.budget ▸ free_of_flush he.idle hflush)
  | syscall _ hflush =>
    exact free_append (free_of_flush hm hflush) (free_call _)
  | branch _ _ hflush => exact free_of_flush hm hflush
  | unsupported => exact fun i hi => absurd hi List.not_mem_nil

/-! ### Openings -/

/-- Two steps that have succeeded leave the code of both. -/
theorem Emit.of_run_bind {α β : Type} {e : Emit α} {f : α → Emit β} {r : Emitted β}
    (h : (e >>= f).run m = .ok r) : ∃ first second, e.run m = .ok first ∧
      (f first.value).run first.map = .ok second ∧
        r = ⟨second.value, first.code ++ second.code, second.map⟩ := by
  rw [Emit.run_bind] at h
  split at h
  · cases h
  · next first hfirst =>
    split at h
    · cases h
    · next second hsecond =>
      cases h
      exact ⟨first, second, hfirst, hsecond, rfl⟩

namespace Delayed

variable {slotEnds : Bool} {e : Emitted Unit}

theorem free_opening_branch (hm : m.Idle) {b : Branch} {target : Word}
    (hrun : ((branch b target).opening pc slotEnds).run m = .ok e) :
    ∀ i ∈ e.code, Free m.budget i := by
  obtain ⟨c, rest, hcompare, hrest, rfl⟩ := Emit.of_run_bind hrun
  obtain ⟨f, _, hflush, hwrite, rfl⟩ := Emit.of_run_bind hrest
  obtain ⟨c', hcompare', hc⟩ := b.comparison.exists_run_emit hm b.notTaken
  cases hcompare.symm.trans hcompare'
  cases hwrite
  refine free_append (fun i hi => (hc.confined i hi).free) (free_append ?_ ?_)
  · exact hc.budget ▸ free_of_flush hc.idle hflush
  · split
    · exact free_branchPcCode b pc target
    · exact fun i hi => absurd hi List.not_mem_nil

theorem free_opening_jump (hm : m.Idle) {link : Option Guest.Reg} {target : Word}
    (hrun : ((jump link target).opening pc slotEnds).run m = .ok e) :
    ∀ i ∈ e.code, Free m.budget i := by
  cases slotEnds with
  | false =>
    cases hrun
    exact fun i hi => absurd hi List.not_mem_nil
  | true =>
    rw [opening, if_pos rfl] at hrun
    obtain ⟨f, _, hflush, hwrite, rfl⟩ := Emit.of_run_bind hrun
    cases hwrite
    exact free_append (free_of_flush hm hflush)
      (free_append (free_storePcCode target) (free_returnCode pc link))

/-- A register jump keeps its destination, once. -/
theorem exists_opening_jumpReg (hm : m.Idle) {link : Option Guest.Reg} {rs : Guest.Reg}
    (hrun : ((jumpReg link rs).opening pc slotEnds).run m = .ok e) :
    ∃ before src after, e.code = before ++ .mov Reg.jumpDest src :: after ∧
      (∀ i ∈ before, Free m.budget i) ∧ ∀ i ∈ after, Free m.budget i := by
  obtain ⟨s, rest, hmap, hrest, rfl⟩ := Emit.of_run_bind hrun
  obtain ⟨_, rest', hkeep, hrest', rfl⟩ := Emit.of_run_bind hrest
  obtain ⟨f, _, hflush, hwrite, rfl⟩ := Emit.of_run_bind hrest'
  cases hkeep
  cases hwrite
  have hs := hm.toWellFormed.mapped_of_run hmap
  have hidle : s.map.Idle := hs.idle hm
  refine ⟨s.code, s.value, .store Reg.jumpDest Field.pc.offset ::
    (f.code ++ if slotEnds then returnCode pc link else []), rfl,
    fun i hi => (hs.confined i hi).free, ?_⟩
  refine List.forall_mem_cons.mpr ⟨.none rfl rfl, free_append ?_ ?_⟩
  · exact hs.budget ▸ free_of_flush hidle hflush
  · split
    · exact free_returnCode pc link
    · exact fun i hi => absurd hi List.not_mem_nil

/-! ### Whole blocks -/

section
variable {r : SlotOutput} (hbudget : ∀ h ∈ budget, h ≠ Reg.savedFlags ∧ h ≠ Reg.base)
include hbudget

/-- A branch saves the flags for its slot unless it skips the slot, and restores them unless the
    slot ends the block. -/
theorem disciplined_aroundBranch (hr : ∀ i ∈ r.code, Free budget i) (b : Branch)
    (target past : Word) (base : Nat) :
    Disciplined budget (aroundBranch b target past base r).1 := by
  have hpast : ∀ i ∈ [Host.Instr.exit past 1], Free budget i :=
    List.forall_mem_singleton.mpr (.none rfl rfl)
  have hexits : ∀ i ∈ [Host.Instr.exit target 0, .exit past 1], Free budget i :=
    List.forall_mem_cons.mpr ⟨.none rfl rfl, hpast⟩
  cases hl : b.likely with
  | true =>
    cases ho : r.isOpen with
    | true =>
      simp only [aroundBranch, hl, ho]
      exact .of_branch hbudget (free_append hr hexits) _ _
    | false =>
      simp only [aroundBranch, hl, ho]
      exact .of_branch hbudget (free_append hr hpast) _ _
  | false =>
    cases ho : r.isOpen with
    | true =>
      simp only [aroundBranch, hl, ho]
      exact .of_restored hbudget hr hexits _ _
    | false =>
      simp only [aroundBranch, hl, ho]
      exact .of_saved hbudget (.inl rfl) hr

/-- No destination is kept around a slot. -/
theorem not_mem_mov_around (hr : ∀ i ∈ r.code, Free budget i) (d : Delayed) (pc : Word)
    (base : Nat) (src : Host.Reg) : .mov Reg.jumpDest src ∉ (d.around pc base r).1 := by
  have hnot : ∀ {code : List Host.Instr}, (∀ i ∈ code, Free budget i) →
      .mov Reg.jumpDest src ∉ code := fun hcode =>
    not_mem_of_writes hbudget (fun i hi => (hcode i hi).keeps) rfl
  have hslot := hnot hr
  have hreturn := fun link => hnot (free_returnCode pc link)
  cases d with
  | branch b target =>
    rw [around]
    cases hl : b.likely <;> cases ho : r.isOpen <;> simp [aroundBranch, hl, ho, hslot]
  | jump link target => cases ho : r.isOpen <;> simp [around, ho, hslot, hreturn]
  | jumpReg link rs => cases ho : r.isOpen <;> simp [around, ho, hslot, hreturn]

end

/-- A branch or jump keeps the discipline, from its opening to its last exit. -/
theorem disciplined (hm : m.Idle) {d : Delayed} (base : Nat)
    (hrun : (d.opening pc slotEnds).run m = .ok e) {r : SlotOutput}
    (hr : ∀ i ∈ r.code, Free m.budget i) :
    Disciplined m.budget (e.code ++ (d.around pc base r).1) := by
  have hbudget := hm.budget_ne
  cases d with
  | branch b target =>
    exact (disciplined_aroundBranch hbudget hr b target _ base).append hbudget
      (free_opening_branch hm hrun)
  | jump link target =>
    have hexit : ∀ i ∈ [Host.Instr.exit target 0], Free m.budget i :=
      List.forall_mem_singleton.mpr (.none rfl rfl)
    refine .of_free hbudget (free_append (free_opening_jump hm hrun) ?_)
    rw [around]
    split
    · exact free_append (free_append hr (free_returnCode pc link)) hexit
    · exact hr
  | jumpReg link rs =>
    obtain ⟨before, src, after, hcode, hbefore, hafter⟩ := exists_opening_jumpReg hm hrun
    rw [around, hcode, List.append_assoc, List.cons_append]
    refine .append hbudget ?_ hbefore
    split
    · rw [← List.append_assoc, ← List.append_assoc]
      exact .of_kept hbudget src (free_append (free_append hafter hr) (free_returnCode pc link))
    · exact .of_saved hbudget (.inr ⟨src, rfl⟩) (free_append hafter hr)

end Delayed

/-- The output of a block keeps the discipline, as far as it comes. -/
theorem RestLowered.disciplined {n base : Nat} {r : RestOutput}
    (h : RestLowered fetch n pc m base r) (hm : m.Idle) : Disciplined m.budget r.code := by
  have hbudget := hm.budget_ne
  induction h with
  | limit hflush =>
    exact .of_free hbudget (free_append (free_of_flush hm hflush)
      (List.forall_mem_singleton.mpr (.none rfl rfl)))
  | operation _ hrun _ ih =>
    have he := realises_of_run hm hrun
    have hrest := ih he.idle (he.budget.symm ▸ hbudget)
    rw [he.budget] at hrest
    exact hrest.append hbudget fun i hi => (he.confined i hi).free
  | syscall _ hflush =>
    exact .of_free hbudget (free_append (free_append (free_of_flush hm hflush)
      (free_storePcCode _)) (free_call _))
  | delayed _ _ hrun hslot =>
    have he := Delayed.opens_of_run hm hrun
    exact Delayed.disciplined hm _ hrun (he.budget ▸ hslot.free he.idle)
  | unsupported => exact .of_free hbudget fun i hi => absurd hi List.not_mem_nil

/-- Only a register jump of the block keeps a destination. -/
theorem RestLowered.exists_jumpReg {n base : Nat} {r : RestOutput}
    (h : RestLowered fetch n pc m base r) (hm : m.Idle) {src : Host.Reg}
    (hmem : .mov Reg.jumpDest src ∈ r.code) : ∃ k < r.count, ∃ link,
      Guest.Instr.decode ⟨fetch (addrAt pc k)⟩ = some (.control (.jumpReg link)) := by
  have hnot : ∀ {code : List Host.Instr}, (∀ i ∈ code, Free m.budget i) →
      .mov Reg.jumpDest src ∉ code := fun hcode =>
    not_mem_of_writes hm.budget_ne (fun i hi => (hcode i hi).keeps) rfl
  induction h with
  | limit hflush =>
    refine absurd hmem (hnot (free_append (free_of_flush hm hflush) ?_))
    exact List.forall_mem_singleton.mpr (.none rfl rfl)
  | operation _ hrun _ ih =>
    have he := realises_of_run hm hrun
    rcases List.mem_append.mp hmem with hmem | hmem
    · exact absurd hmem (hnot fun i hi => (he.confined i hi).free)
    · obtain ⟨k, hk, link, hdecode⟩ := ih he.idle hmem (he.budget.symm ▸ hnot)
      exact ⟨k + 1, Nat.succ_lt_succ hk, link, addrAt_next .. ▸ hdecode⟩
  | syscall _ hflush =>
    exact absurd hmem (hnot (free_append (free_append (free_of_flush hm hflush)
      (free_storePcCode _)) (free_call _)))
  | @delayed n pc m base c d e r hdecode hd hrun hslot =>
    have he := Delayed.opens_of_run hm hrun
    have haround : .mov Reg.jumpDest src ∉ (d.around pc (base + e.code.length) r).1 :=
      Delayed.not_mem_mov_around hm.budget_ne (he.budget ▸ hslot.free he.idle) d pc _ src
    have hopening := (List.mem_append.mp hmem).resolve_right haround
    cases d with
    | branch b target => exact absurd hopening (hnot (Delayed.free_opening_branch hm hrun))
    | jump link target => exact absurd hopening (hnot (Delayed.free_opening_jump hm hrun))
    | jumpReg link rs =>
      obtain ⟨l, rfl, -⟩ := Control.eq_jumpReg_of_delayed hd
      exact ⟨0, Nat.zero_lt_succ 1, l, (addrAt_zero pc).symm ▸ hdecode⟩
  | unsupported => exact absurd hmem List.not_mem_nil

open Lowering

/-- The code of a block, or what a refused block has left in the compiler. -/
def codeLeft (res : Except Refusal Block) (u : Compiler) : List Host.Instr :=
  match res with
  | .ok b => b.code.toList
  | .error _ => u.code.instrs.toList

theorem codeLeft_result (options : Options) (entry : Word) (r : RestOutput) :
    codeLeft (result entry r) (compilerAfter options entry r) = r.code := by
  unfold result compilerAfter
  cases r.verdict <;> rfl

/-- Every block keeps the discipline, and so does the code that a refused block was left with. The
    budget are the first registers that may hold guest registers, as many as the options allow. A
    destination is kept only for a register jump of the block. -/
theorem disciplined_of_called {t : Compiler} (h : Called t) (fetch : Word → Word) (entry : Word) :
    ∃ res u, (lowerBlock fetch entry).run t = .ok (res, u) ∧
      Disciplined (Reg.allocatable.take (RegisterMap.capacity t.options.hostRegs))
        (codeLeft res u) ∧
      ∀ src, .mov Reg.jumpDest src ∈ codeLeft res u → ∃ k < u.progress.count, ∃ link,
        Guest.Instr.decode ⟨fetch (addrAt entry k)⟩ = some (.control (.jumpReg link)) := by
  obtain ⟨r, hr, hrun⟩ := exists_run_lowerBlock fetch entry t h.atRest.fits
  have hm := RegisterMap.idle_fresh t.options.hostRegs
  have hbudget : (RegisterMap.fresh t.options.hostRegs).budget =
      Reg.allocatable.take (RegisterMap.capacity t.options.hostRegs) :=
    RegisterMap.budgetOf_eq_take _
  refine ⟨_, _, hrun, ?_, ?_⟩
  · rw [codeLeft_result, ← hbudget]
    exact hr.disciplined hm
  · intro src hmem
    rw [codeLeft_result] at hmem
    rw [progress_compilerAfter]
    exact hr.exists_jumpReg hm hmem

/-- The code left by a branch that was refused in the slot of a branch, with the least budget. -/
theorem disciplined_of_called_onlyBranches : ∃ u,
    (lowerBlock onlyBranches 0x1000).run (.fresh ⟨1, 0⟩) =
      .ok (.error (.branchInDelaySlot 0x1004), u) ∧
    Disciplined [4, 5, 6] u.code.instrs.toList := by
  obtain ⟨res, u, hrun, hcode, -⟩ := disciplined_of_called (.fresh ⟨1, 0⟩) onlyBranches 0x1000
  obtain ⟨u', hrun'⟩ := exists_run_of_refused (Compiler.fits_fresh ⟨1, 0⟩)
    (show verdict onlyBranches 1 0x1000 = .error (.branchInDelaySlot 0x1004) by decide)
  cases hrun.symm.trans hrun'
  exact ⟨u, hrun, hcode⟩

end MipsOnArm
