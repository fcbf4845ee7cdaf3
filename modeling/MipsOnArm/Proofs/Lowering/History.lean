import MipsOnArm.Proofs.Lowering.Calls

/-! What a compiler has been called for. A history is a list of calls from outside, each with the
    memory that it finds; some of them may be refused, and leave a block behind that is not
    finished. None of it shows in a block that is lowered afterwards. -/

namespace MipsOnArm
open Guest Lowering

/-! ### What no action changes -/

/-- The options of the compiler are the given ones. -/
def Core.Under (options : Options) (s : Core) : Prop := s.options = options

namespace Lowering

variable {options : Options}

theorem under_emit {α : Type} (e : Emit α) :
    Ensures (Core.Under options) (emit e) (Core.Under options) := .emit fun _ _ hs _ => hs

theorem under_lowerWith {onControl : Control → InstrWord → Lowering Verdict}
    (hcontrol : ∀ c w, Ensures (Core.Under options) (onControl c w) (Core.Under options))
    (fetch : Word → Word) (addr : Word) :
    Ensures (Core.Under options) (lowerWith onControl fetch addr) (Core.Under options) :=
  ensures_instr (S := Core.Under options) (fun _ hs => hs) (ensures_refuseWord (fun _ hs => hs) _)
    (fun o => (under_emit o.emit).bind fun _ => .pure _) (fun c => hcontrol c _) fun _ _ _ hs => hs

theorem under_via (d : Delayed) (fetch : Word → Word) (pc : Word) :
    Ensures (Core.Under options) (d.via (lowerWith lowerSlotControl fetch) fetch pc)
      (Core.Under options) := by
  have henter : Ensures (Core.Under options) (d.enter fetch pc) (Core.Under options) :=
    Delayed.ensures_enter (under_emit _) (fun _ hs => hs) fun _ hs => hs
  refine henter.bind fun p => ?_
  have hslot : Ensures (Core.Under options) (lowerWith lowerSlotControl fetch p.1)
      (Core.Under options) :=
    under_lowerWith (ensures_lowerSlotControl (under_emit _) fun _ hs => hs) fetch p.1
  refine (ensures_slotVia hslot (under_emit _)).bind fun verdict => ?_
  exact Delayed.ensures_leave (fun _ hs => hs) fun _ hs _ _ => hs

theorem under_lowerControl (fetch : Word → Word) (c : Control) (w : InstrWord) :
    Ensures (Core.Under options) (lowerControl fetch c w) (Core.Under options) := by
  rw [lowerControl_eq]
  refine .progress_bind fun p => ?_
  dsimp only
  cases c.delayed? w p.pc with
  | none =>
    have hsyscall : Ensures (Core.Under options) (lowerSyscall w) (Core.Under options) :=
      ensures_lowerSyscall (under_emit _) (fun _ hs => hs) w
    exact (hsyscall.pre fun s hs => hs.1).bind fun _ => .pure _
  | some d =>
    refine .progress_bind fun q => ?_
    cases q.admitBranch with
    | error refusal => exact ensures_refuseBranch.pre fun s hs => hs.1.1
    | ok => exact (under_via d fetch p.pc).pre fun s hs => hs.1.1

theorem under_lowerAt (fetch : Word → Word) (addr : Word) :
    Ensures (Core.Under options) (lowerAt fetch addr) (Core.Under options) :=
  under_lowerWith (under_lowerControl fetch) fetch addr

end Lowering

/-! ### Histories -/

/-- A call from outside, with the memory that it finds. -/
inductive Job
  | begin (entry : Word)
  | block (fetch : Word → Word) (entry : Word)
  | instr (fetch : Word → Word) (addr : Word)
  | control (fetch : Word → Word) (c : Control) (w : InstrWord)
  | family (fetch : Word → Word) (f : Family) (w : InstrWord)

namespace Lowering

/-- Makes the call, whether or not it is refused. -/
def serve : Job → Lowering Unit
  | .begin entry => begin entry
  | .block fetch entry => do
    let _ ← lowerBlock fetch entry
    return ()
  | .instr fetch addr => do
    let _ ← lowerAt fetch addr
    return ()
  | .control fetch c w => do
    let _ ← lowerControl fetch c w
    return ()
  | .family fetch f w => do
    let _ ← lowerFamily fetch f w
    return ()

/-- Makes the calls one after the other. -/
def serveAll : List Job → Lowering Unit
  | [] => return ()
  | job :: jobs => do
    serve job
    serveAll jobs

end Lowering

variable {t u : Compiler} {job : Job} {jobs : List Job} {options : Options}

/-- A call leads from one of the compilers that come about by calls to another, with the same
    options. -/
theorem Called.of_run_serve (ht : Called t) (h : (serve job).run t = .ok ((), u)) :
    Called u ∧ u.options = t.options := by
  cases job with
  | begin entry => exact ⟨.begin ht h, by cases h; rfl⟩
  | block fetch entry =>
    obtain ⟨res, s, hrun, ⟨⟩⟩ := of_run_bind h
    obtain ⟨_, _, hrun', -, hoptions, -⟩ := exists_run_of_fits fetch ht.atRest.fits entry
    cases hrun.symm.trans hrun'
    exact ⟨.block ht hrun, hoptions⟩
  | instr fetch addr =>
    obtain ⟨v, s, hrun, ⟨⟩⟩ := of_run_bind h
    exact ⟨.instr ht hrun, under_lowerAt fetch addr t v u rfl hrun⟩
  | control fetch c w =>
    obtain ⟨v, s, hrun, ⟨⟩⟩ := of_run_bind h
    exact ⟨.control ht hrun, under_lowerControl fetch c w t v u rfl hrun⟩
  | family fetch f w =>
    obtain ⟨v, s, hrun, ⟨⟩⟩ := of_run_bind h
    obtain ⟨c, -, hcontrol⟩ := of_run_lowerFamily hrun
    exact ⟨.family ht hrun, under_lowerControl fetch c w t v u rfl hcontrol⟩

theorem Called.of_run_serveAll (ht : Called t) (h : (serveAll jobs).run t = .ok ((), u)) :
    Called u ∧ u.options = t.options := by
  induction jobs generalizing t with
  | nil => cases h; exact ⟨ht, rfl⟩
  | cons job jobs ih =>
    obtain ⟨_, s, hjob, hjobs⟩ := of_run_bind h
    obtain ⟨hs, hoptions⟩ := ht.of_run_serve hjob
    obtain ⟨hu, hoptions'⟩ := ih hs hjobs
    exact ⟨hu, hoptions'.trans hoptions⟩

/-- One more call is made last. -/
theorem run_serveAll_concat (h : (serveAll jobs).run t = .ok ((), u)) :
    (serveAll (jobs ++ [job])).run t = (serve job).run u := by
  induction jobs generalizing t with
  | nil =>
    cases h
    exact congrArg (fun x : Lowering Unit => x.run _) (bind_pure (serve job))
  | cons first jobs ih =>
    obtain ⟨_, s, hfirst, hjobs⟩ := of_run_bind h
    rw [List.cons_append, serveAll, StateT.run_bind, hfirst]
    exact ih hjobs

/-- The compilers that come about by calls are those with a history. -/
theorem called_iff :
    Called t ↔ ∃ options jobs, (serveAll jobs).run (.fresh options) = .ok ((), t) := by
  constructor
  · intro h
    -- the history so far, with the last call behind it
    have hconcat : ∀ {t u : Compiler} (job : Job), (serve job).run t = .ok ((), u) →
        (∃ options jobs, (serveAll jobs).run (.fresh options) = .ok ((), t)) →
        ∃ options jobs, (serveAll jobs).run (.fresh options) = .ok ((), u) := by
      rintro t u job hjob ⟨options, jobs, hjobs⟩
      exact ⟨options, jobs ++ [job], (run_serveAll_concat hjobs).trans hjob⟩
    induction h with
    | fresh options => exact ⟨options, [], rfl⟩
    | @begin _ _ entry _ hrun ih => exact hconcat (.begin entry) hrun ih
    | @block _ _ fetch entry _ _ hrun ih =>
      exact hconcat (.block fetch entry) (by rw [serve, StateT.run_bind, hrun]; rfl) ih
    | @instr _ _ fetch addr _ _ hrun ih =>
      exact hconcat (.instr fetch addr) (by rw [serve, StateT.run_bind, hrun]; rfl) ih
    | @control _ _ fetch c w _ _ hrun ih =>
      exact hconcat (.control fetch c w) (by rw [serve, StateT.run_bind, hrun]; rfl) ih
    | @family _ _ fetch f w _ _ hrun ih =>
      exact hconcat (.family fetch f w) (by rw [serve, StateT.run_bind, hrun]; rfl) ih
  · rintro ⟨options, jobs, hjobs⟩
    exact (Called.fresh options).of_run_serveAll hjobs |>.1

/-- Lowering a block leaves nothing of the compiler but its options. -/
theorem run_lowerBlock_eq_fresh (ht : t.Fits) (fetch : Word → Word) (entry : Word) :
    (lowerBlock fetch entry).run t = (lowerBlock fetch entry).run (.fresh t.options) := by
  obtain ⟨r, hr, hrun⟩ := exists_run_lowerBlock fetch entry t ht
  obtain ⟨r', hr', hrun'⟩ := exists_run_lowerBlock fetch entry (.fresh t.options) rfl
  cases hr.unique hr'
  exact hrun.trans hrun'.symm

/-- History does not show. After any calls from outside, refused or not, each with its own memory, a
    block is lowered as a fresh compiler with the same options lowers it: the block or the refusal
    is the same, and so is the compiler that is left, with its code, its exits and its state. -/
theorem run_lowerBlock_of_serveAll (h : (serveAll jobs).run (.fresh options) = .ok ((), t))
    (fetch : Word → Word) (entry : Word) :
    ∃ res u, (lowerBlock fetch entry).run t = .ok (res, u) ∧
      (lowerBlock fetch entry).run (.fresh options) = .ok (res, u) := by
  obtain ⟨ht, hoptions⟩ := (Called.fresh options).of_run_serveAll h
  obtain ⟨res, u, hrun, -, -, -⟩ := exists_run_of_fits fetch ht.atRest.fits entry
  refine ⟨res, u, hrun, ?_⟩
  rw [show options = t.options from hoptions.symm, ← run_lowerBlock_eq_fresh ht.atRest.fits]
  exact hrun

/-- An addition, with no instruction behind it. -/
def additionOnly (addr : Word) : Word := if addr = 0x1000 then 0x24220001 else 0xffffffff

/-- The addition is left behind unfinished, with its registers mapped. -/
theorem run_lowerBlock_of_serveAll_additionOnly : ∃ t res u,
    (serveAll [.block additionOnly 0x1000]).run (.fresh ⟨4, 3⟩) = .ok ((), t) ∧
      t.map.occupancy = 2 ∧ t.code.instrs.size = 2 ∧
      (lowerBlock (fun _ => 0) 0x1000).run t = .ok (res, u) ∧
      (lowerBlock (fun _ => 0) 0x1000).run (.fresh ⟨4, 3⟩) = .ok (res, u) := by
  have hleft : ((serveAll [.block additionOnly 0x1000]).run (.fresh ⟨4, 3⟩)).map
      (fun p => (p.2.map.occupancy, p.2.code.instrs.size)) = .ok (2, 2) := by decide +kernel
  cases hrun : (serveAll [.block additionOnly 0x1000]).run (.fresh ⟨4, 3⟩) with
  | error fault => rw [hrun] at hleft; cases hleft
  | ok p =>
    rw [hrun] at hleft
    obtain ⟨hmapped, hcode⟩ := Prod.mk.inj (Except.ok.inj hleft)
    obtain ⟨res, u, hblock, hfresh⟩ := run_lowerBlock_of_serveAll hrun (fun _ => 0) 0x1000
    exact ⟨p.2, res, u, rfl, hmapped, hcode, hblock, hfresh⟩

end MipsOnArm
