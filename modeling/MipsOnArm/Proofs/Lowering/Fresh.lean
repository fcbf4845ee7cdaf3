import MipsOnArm.Proofs.Lowering.WholeBlock

/-! Lowering a block does not depend on what was lowered before. A compiler with its own history
    makes what a fresh one does, which goes by the options and by the words of the block alone. -/

namespace MipsOnArm
open Guest Lowering

variable {fetch : Word → Word} {options : Options} {entry : Word}

/-- The register map of the compiler is one of its options. -/
def Compiler.Fits (t : Compiler) : Prop :=
  t.map.budget = RegisterMap.budgetOf t.options.hostRegs

theorem Compiler.fits_fresh (options : Options) : (Compiler.fresh options).Fits := rfl

/-- A block that was handed out is the output of its instructions. -/
theorem exists_restLowered {t u : Compiler} (ht : t.Fits) {entry : Word} {b : Block}
    (h : (lowerBlock fetch entry).run t = .ok (.ok b, u)) :
    ∃ r, RestLowered fetch (limitOf t.options) entry (.fresh t.options.hostRegs) 0 r ∧
      r.verdict = .ok () ∧ b = ⟨entry, r.count, r.code.toArray, r.exits⟩ := by
  obtain ⟨r, hr, hrun⟩ := exists_run_lowerBlock fetch entry t ht
  rw [hrun] at h
  have hresult : result entry r = .ok b := congrArg Prod.fst (Except.ok.inj h)
  refine ⟨r, hr, ?_⟩
  cases hv : r.verdict with
  | error refusal => simp [result, hv] at hresult
  | ok => simp only [result, hv, Except.ok.injEq] at hresult; exact ⟨rfl, hresult.symm⟩

/-- Handed out or refused, a block has been counted as far as it reaches. -/
theorem count_of_run {t u : Compiler} (ht : t.Fits) {res : Except Refusal Block}
    (h : (lowerBlock fetch entry).run t = .ok (res, u)) :
    u.progress.count = extent fetch (limitOf t.options) entry := by
  obtain ⟨r, hr, hrun⟩ := exists_run_lowerBlock fetch entry t ht
  cases hrun.symm.trans h
  rw [progress_compilerAfter]
  exact hr.count_eq

/-- A block is refused for what its words are refused for. -/
theorem exists_run_of_refused {t : Compiler} (ht : t.Fits) {refusal : Refusal}
    (h : verdict fetch (limitOf t.options) entry = .error refusal) :
    ∃ u, (lowerBlock fetch entry).run t = .ok (.error refusal, u) := by
  obtain ⟨r, hr, hrun⟩ := exists_run_lowerBlock fetch entry t ht
  rw [result, hr.verdict_eq, h] at hrun
  exact ⟨_, hrun⟩

/-- What a compiler that has lowered nothing makes of the block at `entry`. -/
def Lowering.freshly (fetch : Word → Word) (options : Options) (entry : Word) :
    Except Fault (Except Refusal Block) := do
  let (result, _) ← (lowerBlock fetch entry).run (.fresh options)
  return result

theorem exists_run_of_freshly {res : Except Refusal Block}
    (h : freshly fetch options entry = .ok res) :
    ∃ u, (lowerBlock fetch entry).run (.fresh options) = .ok (res, u) := by
  unfold freshly at h
  cases hrun : (lowerBlock fetch entry).run (.fresh options) with
  | error fault => rw [hrun] at h; cases h
  | ok p => rw [hrun] at h; cases h; exact ⟨p.2, rfl⟩

theorem exists_freshly_eq (fetch : Word → Word) (options : Options) (entry : Word) :
    ∃ r, RestLowered fetch (limitOf options) entry (.fresh options.hostRegs) 0 r ∧
      freshly fetch options entry = .ok (result entry r) := by
  obtain ⟨r, hr, hrun⟩ := exists_run_lowerBlock fetch entry _ (Compiler.fits_fresh options)
  exact ⟨r, hr, by simp only [freshly, hrun]; rfl⟩

/-- Whatever was lowered before, a compiler makes what a fresh one does. -/
theorem exists_run_of_fits (fetch : Word → Word) {t : Compiler} (ht : t.Fits) (entry : Word) :
    ∃ res u, (lowerBlock fetch entry).run t = .ok (res, u) ∧
      freshly fetch t.options entry = .ok res ∧ u.options = t.options ∧ u.Fits := by
  obtain ⟨r, hr, hrun⟩ := exists_run_lowerBlock fetch entry t ht
  obtain ⟨r', hr', hfresh⟩ := exists_freshly_eq fetch t.options entry
  cases hr.unique hr'
  obtain ⟨-, hbudget, -, -⟩ := hr.idle (RegisterMap.idle_fresh t.options.hostRegs)
  refine ⟨_, _, hrun, hfresh, options_compilerAfter .., ?_⟩
  rw [Compiler.Fits, map_compilerAfter, options_compilerAfter]
  exact hbudget

theorem exists_restLowered_of_freshly {b : Block} (h : freshly fetch options entry = .ok (.ok b)) :
    ∃ r, RestLowered fetch (limitOf options) entry (.fresh options.hostRegs) 0 r ∧
      r.verdict = .ok () ∧ b = ⟨entry, r.count, r.code.toArray, r.exits⟩ := by
  obtain ⟨u, hrun⟩ := exists_run_of_freshly h
  exact exists_restLowered (Compiler.fits_fresh options) hrun

theorem entry_of_freshly {b : Block} (h : freshly fetch options entry = .ok (.ok b)) :
    b.entry = entry := by
  obtain ⟨r, -, -, rfl⟩ := exists_restLowered_of_freshly h
  rfl

theorem count_of_freshly {b : Block} (h : freshly fetch options entry = .ok (.ok b)) :
    b.count = extent fetch (limitOf options) entry := by
  obtain ⟨r, hr, -, rfl⟩ := exists_restLowered_of_freshly h
  exact hr.count_eq

/-- A block is handed out just when its words allow it. -/
theorem exists_freshly_ok_iff :
    (∃ b, freshly fetch options entry = .ok (.ok b)) ↔
      verdict fetch (limitOf options) entry = .ok () := by
  obtain ⟨r, hr, hfresh⟩ := exists_freshly_eq fetch options entry
  rw [hfresh, ← hr.verdict_eq, result]
  cases r.verdict with
  | ok => exact ⟨fun _ => rfl, fun _ => ⟨_, rfl⟩⟩
  | error refusal =>
    constructor
    · rintro ⟨b, hb⟩
      cases hb
    · intro h
      cases h

/-- A block stays what a fresh compiler makes while its words stay the same. -/
theorem freshly_congr {b : Block} (h : freshly fetch options entry = .ok (.ok b))
    {fetch' : Word → Word}
    (hwords : ∀ i < b.count, fetch' (addrAt entry i) = fetch (addrAt entry i)) :
    freshly fetch' options entry = .ok (.ok b) := by
  obtain ⟨r, hr, hok, rfl⟩ := exists_restLowered_of_freshly h
  obtain ⟨r', hr', hfresh'⟩ := exists_freshly_eq fetch' options entry
  cases hr'.unique (hr.congr hwords)
  rw [hfresh', result, hok]

end MipsOnArm
