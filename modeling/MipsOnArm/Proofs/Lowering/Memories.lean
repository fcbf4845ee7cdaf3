import MipsOnArm.Proofs.Lowering.Calls
import MipsOnArm.Proofs.Lowering.Outcome

/-! What a block takes from memory. The compiler looks ahead at the word behind a branch or jump,
    but reads none that it does not count: the words of the block alone make the output. A branch or
    jump that is refused in a delay slot leaves nothing behind, and the one around it is completed,
    as if the slot held an instruction without effect. -/

namespace MipsOnArm
open Guest Lowering

/-- Two memories give the same output, block or refusal, if they agree on the words that were
    counted. What each compiler was called for before does not matter. -/
theorem run_lowerBlock_congr {t t' : Compiler} (h : Called t) (h' : Called t')
    (hoptions : t'.options = t.options) (fetch : Word → Word) (entry : Word) :
    ∃ res u, (lowerBlock fetch entry).run t = .ok (res, u) ∧
      ∀ fetch' : Word → Word,
        (∀ i < u.progress.count, fetch' (addrAt entry i) = fetch (addrAt entry i)) →
          (lowerBlock fetch' entry).run t' = .ok (res, u) := by
  obtain ⟨r, hr, hrun⟩ := exists_run_lowerBlock fetch entry t h.atRest.fits
  refine ⟨_, _, hrun, ?_⟩
  intro fetch' hwords
  rw [progress_compilerAfter] at hwords
  obtain ⟨r', hr', hrun'⟩ := exists_run_lowerBlock fetch' entry t' h'.atRest.fits
  rw [hoptions] at hr' hrun'
  cases hr'.unique (hr.congr hwords)
  exact hrun'

/-- Words behind the two of the block may differ. -/
theorem run_lowerBlock_congr_branchFirst : ∃ res u,
    (lowerBlock branchFirst 0x1000).run (.fresh ⟨1, 0⟩) = .ok (res, u) ∧
      (lowerBlock (fun addr => if addr = 0x1008 then 0xffffffff else branchFirst addr) 0x1000).run
        (.fresh ⟨1, 0⟩) = .ok (res, u) := by
  obtain ⟨res, u, hrun, hsame⟩ :=
    run_lowerBlock_congr (.fresh ⟨1, 0⟩) (.fresh ⟨1, 0⟩) rfl branchFirst 0x1000
  have hcount : u.progress.count = 2 :=
    (count_of_run (Compiler.fits_fresh ⟨1, 0⟩) hrun).trans (by decide)
  have hwords : ∀ i < 2, (if addrAt 0x1000 i = 0x1008 then 0xffffffff else
      branchFirst (addrAt 0x1000 i)) = branchFirst (addrAt 0x1000 i) := by decide
  refine ⟨res, u, hrun, hsame _ ?_⟩
  rw [hcount]
  exact hwords

/-! ### A refused branch or jump -/

variable {fetch fetch' : Word → Word} {n base : Nat} {pc addr slot : Word} {m : RegisterMap}

/-- Only stores of registers are written when mappings are dropped. -/
theorem RegisterMap.storeBack_of_mem_flush {r : Reg} {i : Host.Instr} (hi : i ∈ (m.flush r).1) :
    ∃ h, i = storeBack r h := by
  cases hr : m.host? r with
  | none =>
    rw [flush_of_unmapped hr] at hi
    exact absurd hi List.not_mem_nil
  | some h =>
    rw [flush_of_mapped hr] at hi
    split at hi
    · exact ⟨h, List.mem_singleton.mp hi⟩
    · exact absurd hi List.not_mem_nil

theorem RegisterMap.storeBack_of_mem_flushEach (rs : List Reg) {i : Host.Instr}
    (hi : i ∈ (m.flushEach rs).1) : ∃ r h, i = storeBack r h := by
  induction rs generalizing m with
  | nil => exact absurd hi List.not_mem_nil
  | cons r rs ih =>
    have hcode : (m.flushEach (r :: rs)).1 = (m.flush r).1 ++ ((m.flush r).2.flushEach rs).1 := rfl
    rw [hcode] at hi
    rcases List.mem_append.mp hi with hi | hi
    · exact ⟨r, storeBack_of_mem_flush hi⟩
    · exact ih hi

theorem storeBack_of_run_flushAll {e : Emitted Unit} (hrun : Emit.flushAll.run m = .ok e) :
    ∀ i ∈ e.code, ∃ r h, i = RegisterMap.storeBack r h := by
  have hflush := (Emit.run_flushAll m).symm.trans hrun
  have hstores : ∀ i ∈ m.flushAll.1, ∃ r h, i = RegisterMap.storeBack r h :=
    fun _ hi => RegisterMap.storeBack_of_mem_flushEach _ hi
  generalize m.flushAll = p at hflush hstores
  cases hflush
  exact hstores

/-- The instruction at `addr` is a branch or jump. -/
def Guest.IsDelayed (fetch : Word → Word) (addr : Word) : Prop :=
  ∃ c, Instr.decode ⟨fetch addr⟩ = some (.control c) ∧ c.hasDelaySlot = true

namespace SlotLowered

variable {r : SlotOutput}

/-- A refused branch or jump leaves the mappings written back, and the block open. -/
theorem of_refused (h : SlotLowered fetch addr m r)
    (hv : r.verdict = .error (.branchInDelaySlot slot)) :
    addr = slot ∧ IsDelayed fetch addr ∧ r.isOpen = true ∧
      Emit.flushAll.run m = .ok ⟨(), r.code, r.map⟩ := by
  cases h with
  | branch hdecode hslot hflush =>
    cases hv
    exact ⟨rfl, ⟨_, hdecode, hslot⟩, rfl, hflush⟩
  | _ => cases hv

/-- So does an instruction without effect. -/
theorem of_zero (hzero : fetch addr = 0) {e : Emitted Unit} (hflush : Emit.flushAll.run m = .ok e) :
    SlotLowered fetch addr m ⟨.ok (), true, e.code, e.map, []⟩ := by
  have hdecode : Instr.decode ⟨fetch addr⟩ = some (.operation .nop) := by
    rw [hzero]
    decide
  have hrun : Operation.nop.emit.run m = .ok ⟨(), [], m⟩ := rfl
  exact .operation hdecode hrun hflush

end SlotLowered

/-- The code around a slot goes by the code in it and by whether the block is open behind it. -/
theorem Delayed.around_congr (d : Delayed) (pc : Word) (base : Nat) {r r' : SlotOutput}
    (hopen : r'.isOpen = r.isOpen) (hcode : r'.code = r.code) :
    d.around pc base r' = d.around pc base r := by
  cases d <;> simp only [around, aroundBranch, hopen, hcode]

/-- The code ends in that of a branch or jump that is completed around its slot, with all of its
    exits, though nothing of the slot but stores of registers was written. -/
def Completed (fetch : Word → Word) (slot : Word) (base : Nat) (code : List Host.Instr)
    (exits : List Exit) : Prop :=
  ∃ outer c d before s, slot = outer + instrBytes ∧
    Instr.decode ⟨fetch outer⟩ = some (.control c) ∧ c.delayed? ⟨fetch outer⟩ outer = some d ∧
    s.isOpen = true ∧ (∀ i ∈ s.code, ∃ r h, i = RegisterMap.storeBack r h) ∧
    code = before ++ (d.around outer (base + before.length) s).1 ∧
    exits = (d.around outer (base + before.length) s).2

theorem Completed.append {code before : List Host.Instr} {exits : List Exit}
    (h : Completed fetch slot (base + before.length) code exits) :
    Completed fetch slot base (before ++ code) exits := by
  obtain ⟨outer, c, d, between, s, hslot, hdecode, hd, hopen, hstores, rfl, rfl⟩ := h
  refine ⟨outer, c, d, before ++ between, s, hslot, hdecode, hd, hopen, hstores, ?_, ?_⟩
  · rw [List.length_append, ← Nat.add_assoc, List.append_assoc]
  · rw [List.length_append, ← Nat.add_assoc]

namespace RestLowered

variable {r : RestOutput}

/-- The block is refused for a branch or jump at the address that is reported. -/
theorem isDelayed_of_refused (h : RestLowered fetch n pc m base r)
    (hv : r.verdict = .error (.branchInDelaySlot slot)) : IsDelayed fetch slot := by
  induction h with
  | operation _ _ _ ih => exact ih hv
  | delayed _ _ _ hslot =>
    obtain ⟨rfl, hdelayed, -⟩ := hslot.of_refused hv
    exact hdelayed
  | _ => cases hv

/-- With an instruction without effect in its place, the rest of the block has the same output. -/
theorem exists_of_zero (h : RestLowered fetch n pc m base r)
    (hv : r.verdict = .error (.branchInDelaySlot slot)) (hzero : fetch' slot = 0)
    (hwords : ∀ i < r.count, addrAt pc i ≠ slot → fetch' (addrAt pc i) = fetch (addrAt pc i)) :
    ∃ r', RestLowered fetch' n pc m base r' ∧ r'.verdict = .ok () ∧ r'.count = r.count ∧
      r'.code = r.code ∧ r'.exits = r.exits := by
  induction h with
  | @operation n pc m base o e r hdecode hrun hrest ih =>
    have hne : pc ≠ slot := by
      -- an operation is neither a branch nor a jump
      rintro rfl
      obtain ⟨c, hcontrol, -⟩ := hrest.isDelayed_of_refused hv
      cases hdecode.symm.trans hcontrol
    have hword : fetch' pc = fetch pc := by
      simpa [addrAt_zero, hne] using hwords 0 (Nat.succ_pos _)
    obtain ⟨r', hr', hok, hcount, hcode, hexits⟩ := ih hv fun i hi hi' => by
      rw [addrAt_next] at hi' ⊢
      exact hwords (i + 1) (Nat.succ_lt_succ hi) hi'
    exact ⟨_, .operation (hword ▸ hdecode) hrun hr', hok, congrArg (· + 1) hcount,
      congrArg (e.code ++ ·) hcode, hexits⟩
  | @delayed n pc m base c d e r hdecode hd hrun hslot =>
    obtain ⟨rfl, ⟨c', hcontrol, hdelayed⟩, hopen, hflush⟩ := hslot.of_refused hv
    have hne : pc ≠ pc + instrBytes := by simp [instrBytes]
    have hword : fetch' pc = fetch pc := by simpa [addrAt_zero, hne] using hwords 0 (by simp)
    have hnop : Instr.decode ⟨fetch' (pc + instrBytes)⟩ = some (.operation .nop) := by
      rw [hzero]
      decide
    have hends : slotEndsBlock fetch' pc = slotEndsBlock fetch pc := by
      rw [slotEndsBlock_of_operation hnop, slotEndsBlock_of_control hcontrol, hdelayed]
      rfl
    have hslot' := SlotLowered.of_zero hzero hflush
    have haround : d.around pc (base + e.code.length) ⟨.ok (), true, r.code, r.map, []⟩ =
        d.around pc (base + e.code.length) r := d.around_congr pc _ hopen.symm rfl
    exact ⟨_, .delayed (hword ▸ hdecode) (hword ▸ hd) (hends ▸ hrun) hslot', rfl, rfl,
      congrArg (e.code ++ ·.1) haround, congrArg (·.2) haround⟩
  | _ => cases hv

/-- The branch or jump with the refused slot is completed. -/
theorem completed (h : RestLowered fetch n pc m base r)
    (hv : r.verdict = .error (.branchInDelaySlot slot)) :
    Completed fetch slot base r.code r.exits := by
  induction h with
  | operation _ _ _ ih => exact (ih hv).append
  | @delayed n pc m base c d e r hdecode hd hrun hslot =>
    obtain ⟨rfl, -, hopen, hflush⟩ := hslot.of_refused hv
    exact ⟨pc, c, d, e.code, r, rfl, hdecode, hd, hopen, storeBack_of_run_flushAll hflush, rfl, rfl⟩
  | _ => cases hv

end RestLowered

/-- A branch or jump that is refused in a delay slot leaves nothing behind. With an instruction
    without effect in its place the block is handed out, with the code, the exits and the count that
    the refused one was left with; and the branch or jump around it is completed there. -/
theorem exists_run_lowerBlock_of_refused {t t' u : Compiler} (h : Called t) (h' : Called t')
    (hoptions : t'.options = t.options) {entry : Word}
    (hrun : (lowerBlock fetch entry).run t = .ok (.error (.branchInDelaySlot slot), u))
    (hzero : fetch' slot = 0)
    (hwords : ∀ i < u.progress.count, addrAt entry i ≠ slot →
      fetch' (addrAt entry i) = fetch (addrAt entry i)) :
    (∃ b u', (lowerBlock fetch' entry).run t' = .ok (.ok b, u') ∧ b.code = u.code.instrs ∧
      b.exits = u.exits ∧ b.count = u.progress.count) ∧
      Completed fetch slot 0 u.code.instrs.toList u.exits := by
  obtain ⟨r, hr, hrun'⟩ := exists_run_lowerBlock fetch entry t h.atRest.fits
  obtain ⟨hresult, rfl⟩ := Prod.mk.inj (Except.ok.inj (hrun'.symm.trans hrun))
  have hv := verdict_of_result_error hresult
  rw [progress_compilerAfter] at hwords
  have hafter : (compilerAfter t.options entry r).code.instrs = r.code.toArray ∧
      (compilerAfter t.options entry r).exits = r.exits := by
    simp only [compilerAfter, hv, and_self]
  rw [progress_compilerAfter, hafter.1, hafter.2]
  refine ⟨?_, hr.completed hv⟩
  obtain ⟨r', hr', hok, hcount, hcode, hexits⟩ := hr.exists_of_zero hv hzero hwords
  obtain ⟨s, hs, hblock⟩ := exists_run_lowerBlock fetch' entry t' h'.atRest.fits
  rw [hoptions] at hs hblock
  cases hs.unique hr'
  rw [result, hok] at hblock
  exact ⟨_, _, hblock, congrArg List.toArray hcode, hexits, hcount⟩

/-- The branch in the slot of a branch, and the same branch among words that do nothing. -/
theorem exists_run_lowerBlock_of_refused_onlyBranches : ∃ u b u',
    (lowerBlock onlyBranches 0x1000).run (.fresh ⟨1, 0⟩) =
      .ok (.error (.branchInDelaySlot 0x1004), u) ∧
    (lowerBlock branchFirst 0x1000).run (.fresh ⟨1, 0⟩) = .ok (.ok b, u') ∧
      b.code = u.code.instrs ∧ b.exits = u.exits := by
  obtain ⟨u, hrun⟩ := exists_run_of_refused (Compiler.fits_fresh ⟨1, 0⟩)
    (show verdict onlyBranches 1 0x1000 = .error (.branchInDelaySlot 0x1004) by decide)
  have hcount : u.progress.count = 2 :=
    (count_of_run (Compiler.fits_fresh ⟨1, 0⟩) hrun).trans (by decide)
  have hwords : ∀ i < 2, addrAt 0x1000 i ≠ 0x1004 →
      branchFirst (addrAt 0x1000 i) = onlyBranches (addrAt 0x1000 i) := by decide
  rw [← hcount] at hwords
  obtain ⟨⟨b, u', hblock, hcode, hexits, -⟩, -⟩ :=
    exists_run_lowerBlock_of_refused (.fresh ⟨1, 0⟩) (.fresh ⟨1, 0⟩) rfl hrun
      (show branchFirst 0x1004 = 0 by decide) hwords
  exact ⟨u, b, u', hrun, hblock, hcode, hexits⟩

end MipsOnArm
