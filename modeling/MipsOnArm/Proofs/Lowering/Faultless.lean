import MipsOnArm.Proofs.Lowering.Fresh

/-! No rule of use is ever broken. However a compiler is driven from outside, block by block or
    instruction by instruction, each call ends with a result or a refusal: the register map is never
    exhausted, no exit is written while registers are mapped, no slot is opened or closed twice, the
    saved flags do not outlive their slot, and every branch gets its one target. -/

namespace MipsOnArm
open Guest Lowering

variable {t : Compiler} {fetch : Word → Word}

/-! ### Between two calls -/

/-- Between two calls no delay slot is open, no flags are saved and nothing is pinned. -/
structure Compiler.AtRest (t : Compiler) : Prop where
  fits : t.Fits
  idle : t.map.Idle
  slot : t.progress.inSlot = false
  flags : t.progress.flagsSaved = false

/-- The block is open, and its count has room for an instruction and its delay slot. -/
def Compiler.HasRoom (t : Compiler) : Prop :=
  t.progress.isOpen = true ∧ t.progress.count ≤ 0xffffffff - 2

namespace Compiler.AtRest

theorem fresh (options : Options) : (Compiler.fresh options).AtRest :=
  ⟨Compiler.fits_fresh options, RegisterMap.idle_fresh options.hostRegs, rfl, rfl⟩

/-- More output does not matter, nor how far the block has come. -/
theorem extend {p : Progress} {m : RegisterMap} {is : List Host.Instr} {xs : List Exit}
    {es : List Event} (ht : t.AtRest) (hslot : p.inSlot = false) (hflags : p.flagsSaved = false)
    (hm : m.Idle) (hbudget : m.budget = t.map.budget) : (t.extend p m is xs es).AtRest :=
  ⟨hbudget.trans ht.fits, hm, hslot, hflags⟩

theorem exists_run_begin (ht : t.AtRest) (entry : Word) :
    ∃ u, (begin entry).run t = .ok ((), u) ∧ u.AtRest := by
  refine ⟨_, rfl, ht.fits, ?_, rfl, rfl⟩
  show (RegisterMap.empty t.map.budget).Idle
  rw [ht.fits]
  exact RegisterMap.idle_fresh t.options.hostRegs

theorem exists_run_lowerBlock (ht : t.AtRest) (fetch : Word → Word) (entry : Word) :
    ∃ res u, (lowerBlock fetch entry).run t = .ok (res, u) ∧ u.AtRest := by
  obtain ⟨r, hr, hrun⟩ := Lowering.exists_run_lowerBlock fetch entry t ht.fits
  obtain ⟨hidle, hbudget, -, -⟩ := hr.idle (RegisterMap.idle_fresh t.options.hostRegs)
  refine ⟨_, _, hrun, ?_, ?_, ?_, ?_⟩
  · rw [Compiler.Fits, map_compilerAfter, options_compilerAfter]
    exact hbudget
  · rw [map_compilerAfter]
    exact hidle
  · rw [progress_compilerAfter]
  · rw [progress_compilerAfter]

/-- A control instruction at the current address, matching its word or not. -/
theorem exists_run_lowerControl (ht : t.AtRest) (hopen : t.progress.isOpen = true)
    (hcount : t.progress.count < 0xffffffff) (fetch : Word → Word) (c : Control) (w : InstrWord) :
    ∃ v u, (lowerControl fetch c w).run t = .ok (v, u) ∧ u.AtRest := by
  by_cases hc : c.hasDelaySlot = true
  · obtain ⟨d, hd⟩ := Option.isSome_iff_exists.mp ((c.delayed?_isSome w t.progress.pc).trans hc)
    obtain ⟨e, r, hopening, hslot, hrun⟩ :=
      exists_run_delayed fetch ht.idle hcount hopen ht.slot ht.flags hd
    have he := Delayed.opens_of_run ht.idle hopening
    obtain ⟨hidle, hbudget, -⟩ := hslot.idle he.idle
    exact ⟨_, _, hrun, ht.extend ht.slot ht.flags hidle (hbudget.trans he.budget)⟩
  · cases Control.eq_syscall hc
    obtain ⟨e, hflush, he⟩ := ht.idle.exists_run_flushAll
    exact ⟨_, _, run_lowerControl_syscall fetch hflush ht.slot w,
      ht.extend ht.slot ht.flags he.idle he.budget⟩

/-- The instruction at any address. -/
theorem exists_run_lowerAt (ht : t.AtRest) (hroom : t.HasRoom) (fetch : Word → Word)
    (addr : Word) : ∃ v u, (lowerAt fetch addr).run t = .ok (v, u) ∧ u.AtRest := by
  obtain ⟨hopen, hle⟩ := hroom
  have hcount : t.progress.count < 0xffffffff := by omega
  cases hdecode : Instr.decode ⟨fetch addr⟩ with
  | none =>
    exact ⟨_, _, run_lowerWith_unsupported hcount hdecode,
      ht.extend ht.slot ht.flags ht.idle rfl⟩
  | some i =>
    cases i with
    | operation o =>
      obtain ⟨e, hrun, he⟩ := exists_run_operation ht.idle o
      exact ⟨_, _, run_lowerWith_operation hcount hdecode hrun,
        ht.extend ht.slot ht.flags he.idle he.budget⟩
    | control c =>
      have hentered : (t.extend { t.progress with pc := addr, count := t.progress.count + 1 } t.map
        [] [] []).AtRest := ht.extend ht.slot ht.flags ht.idle rfl
      obtain ⟨v, u, hrun, hu⟩ := hentered.exists_run_lowerControl hopen
        (show t.progress.count + 1 < 0xffffffff by omega) fetch c ⟨fetch addr⟩
      exact ⟨v, _, run_lowerWith_control hcount hdecode hrun,
        hu.extend hu.slot hu.flags hu.idle rfl⟩

end Compiler.AtRest

/-! ### Compilers in use -/

/-- The compilers that come about by calls from outside. A block may be lowered or begun at any
    time, single instructions are lowered as long as there is room, and memory may change between
    calls. -/
inductive Driven : Compiler → Prop
  | fresh (options : Options) : Driven (.fresh options)
  | block {t u : Compiler} {fetch : Word → Word} {entry : Word} {res : Except Refusal Block}
      (ht : Driven t) (hrun : (lowerBlock fetch entry).run t = .ok (res, u)) : Driven u
  | begin {t u : Compiler} {entry : Word} (ht : Driven t)
      (hrun : (begin entry).run t = .ok ((), u)) : Driven u
  | instr {t u : Compiler} {fetch : Word → Word} {addr : Word} {v : Verdict} (ht : Driven t)
      (hroom : t.HasRoom) (hrun : (lowerAt fetch addr).run t = .ok (v, u)) : Driven u
  | control {t u : Compiler} {fetch : Word → Word} {c : Control} {w : InstrWord} {v : Verdict}
      (ht : Driven t) (hroom : t.HasRoom) (hrun : (lowerControl fetch c w).run t = .ok (v, u)) :
      Driven u

theorem Driven.atRest (h : Driven t) : t.AtRest := by
  induction h with
  | fresh options => exact .fresh options
  | block _ hrun ih =>
    obtain ⟨res, u, hrun', hu⟩ := ih.exists_run_lowerBlock _ _
    cases hrun.symm.trans hrun'
    exact hu
  | begin _ hrun ih =>
    obtain ⟨u, hrun', hu⟩ := ih.exists_run_begin _
    cases hrun.symm.trans hrun'
    exact hu
  | instr _ hroom hrun ih =>
    obtain ⟨v, u, hrun', hu⟩ := ih.exists_run_lowerAt hroom _ _
    cases hrun.symm.trans hrun'
    exact hu
  | control _ hroom hrun ih =>
    have hcount := hroom.2
    obtain ⟨v, u, hrun', hu⟩ := ih.exists_run_lowerControl hroom.1 (by omega) _ _ _
    cases hrun.symm.trans hrun'
    exact hu

/-- Lowering never faults. In every compiler that comes about, every block can be lowered, and while
    there is room, so can the instruction at every address and every control instruction with any
    word. -/
theorem exists_run_of_driven {t : Compiler} (h : Driven t) (fetch : Word → Word) :
    (∀ entry, ∃ res u, (lowerBlock fetch entry).run t = .ok (res, u)) ∧
      (t.HasRoom →
        (∀ addr, ∃ v u, (lowerAt fetch addr).run t = .ok (v, u)) ∧
          ∀ c w, ∃ v u, (lowerControl fetch c w).run t = .ok (v, u)) := by
  refine ⟨fun entry => ?_, fun hroom => ⟨fun addr => ?_, fun c w => ?_⟩⟩
  · obtain ⟨res, u, hrun, -⟩ := h.atRest.exists_run_lowerBlock fetch entry
    exact ⟨res, u, hrun⟩
  · obtain ⟨v, u, hrun, -⟩ := h.atRest.exists_run_lowerAt hroom fetch addr
    exact ⟨v, u, hrun⟩
  · have hcount := hroom.2
    obtain ⟨v, u, hrun, -⟩ := h.atRest.exists_run_lowerControl hroom.1 (by omega) fetch c w
    exact ⟨v, u, hrun⟩

/-- Every word is a branch. -/
def onlyBranches : Word → Word := fun _ => 0x11090002

/-- A branch in the slot of a branch, and a control instruction that its word does not match. -/
theorem exists_run_of_driven_onlyBranches :
    ∃ t, Driven t ∧ t.HasRoom ∧ (∃ res u, (lowerBlock onlyBranches 0x1000).run t = .ok (res, u)) ∧
      (∃ v u, (lowerAt onlyBranches 0x1000).run t = .ok (v, u)) ∧
        ∃ v u, (lowerControl onlyBranches .syscall ⟨0x11090002⟩).run t = .ok (v, u) := by
  obtain ⟨t, hbegin, -⟩ := (Compiler.AtRest.fresh ⟨0, 0⟩).exists_run_begin 0x1000
  have hdriven : Driven t := .begin (.fresh ⟨0, 0⟩) hbegin
  have hroom : t.HasRoom := by
    cases hbegin
    exact ⟨rfl, by decide⟩
  obtain ⟨hblock, hcalls⟩ := exists_run_of_driven hdriven onlyBranches
  exact ⟨t, hdriven, hroom, hblock 0x1000, (hcalls hroom).1 0x1000, (hcalls hroom).2 _ _⟩

end MipsOnArm
