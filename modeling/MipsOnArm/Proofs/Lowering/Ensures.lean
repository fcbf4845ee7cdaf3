import MipsOnArm.Proofs.Lowering.Actions

/-! What an action of the compiler ensures whenever it succeeds, however the block stands. Output
    plays no part in it: an action goes by the options, the progress of the block and the register
    map, and most actions leave all three alone. -/

namespace MipsOnArm
open Guest

/-- A compiler without its output. -/
structure Core where
  options : Options
  progress : Progress
  map : RegisterMap

/-- What decides how a compiler goes on. -/
def Compiler.core (t : Compiler) : Core := ⟨t.options, t.progress, t.map⟩

/-- The same with the block at another point. -/
def Core.at (s : Core) (p : Progress) : Core := { s with progress := p }

namespace Lowering

variable {α β : Type}

/-- A sequence of two actions that has succeeded is one of two successes. -/
theorem of_run_bind {x : Lowering α} {f : α → Lowering β} {t u : Compiler} {b : β}
    (h : (x >>= f).run t = .ok (b, u)) :
    ∃ a s, x.run t = .ok (a, s) ∧ (f a).run s = .ok (b, u) := by
  rw [StateT.run_bind] at h
  cases hx : x.run t with
  | error fault => rw [hx] at h; cases h
  | ok p => rw [hx] at h; exact ⟨p.1, p.2, rfl, h⟩

/-- From where `P` holds the action leads to where `Q` holds, if it succeeds. -/
def Ensures (P : Core → Prop) (x : Lowering α) (Q : Core → Prop) : Prop :=
  ∀ t a u, P t.core → x.run t = .ok (a, u) → Q u.core

namespace Ensures

variable {P P' Q Q' R : Core → Prop}

theorem pure (a : α) : Ensures P (pure a) P := by
  intro t b u hP h
  cases h
  exact hP

theorem bind {x : Lowering α} {f : α → Lowering β} (hx : Ensures P x Q)
    (hf : ∀ a, Ensures Q (f a) R) : Ensures P (x >>= f) R := by
  intro t b u hP h
  obtain ⟨a, s, hrun, hrest⟩ := of_run_bind h
  exact hf a s b u (hx t a s hP hrun) hrest

theorem pre {x : Lowering α} (hx : Ensures P x Q) (hP : ∀ s, P' s → P s) : Ensures P' x Q :=
  fun t a u ht h => hx t a u (hP _ ht) h

theorem post {x : Lowering α} (hx : Ensures P x Q) (hQ : ∀ s, Q s → Q' s) : Ensures P x Q' :=
  fun t a u ht h => hQ _ (hx t a u ht h)

/-- What is read of the progress is true of it. -/
theorem progress_bind {f : Progress → Lowering β}
    (hf : ∀ p, Ensures (fun s => P s ∧ s.progress = p) (f p) Q) :
    Ensures P (progress >>= f) Q := fun t b u hP h =>
  hf t.progress t b u ⟨hP, rfl⟩ h

theorem isOpen_bind {f : Bool → Lowering β} (hf : ∀ b, Ensures P (f b) Q) :
    Ensures P (isOpen >>= f) Q := fun t b u hP h =>
  hf t.progress.isOpen t b u hP h

/-- A step that is left out where the block has ended. -/
theorem whenOpen {x : Lowering Unit} {y : Lowering β} (hx : Ensures P x P) (hy : Ensures P y Q) :
    Ensures P (do if ← isOpen then x; y else y) Q := by
  refine isOpen_bind ?_
  intro b
  cases b with
  | true => exact hx.bind fun _ => hy
  | false => exact hy

theorem throw (fault : Fault) : Ensures P (throw fault : Lowering α) Q := by
  intro t a u _ h
  cases h

theorem modify {f : Compiler → Compiler} (hf : ∀ t : Compiler, P t.core → Q (f t).core) :
    Ensures P (modify f : Lowering Unit) Q := by
  intro t a u hP h
  cases h
  exact hf t hP

/-! ### Actions on the output -/

theorem tell (e : Event) : Ensures P (tell e) P := .modify fun _ h => h

theorem write (code : List Host.Instr) : Ensures P (write code) P := .modify fun _ h => h

theorem forwardBranch (cond : Host.Cond) : Ensures P (forwardBranch cond) P := by
  intro t a u hP h
  cases h
  exact hP

theorem patch (fixup : Host.Fixup) : Ensures P (patch fixup) P := by
  intro t a u hP h
  simp only [Lowering.patch, StateT.run_bind, StateT.run_get, pure_bind] at h
  cases hcode : t.code.patch fixup with
  | error fault => rw [hcode] at h; cases h
  | ok code => rw [hcode] at h; cases h; exact hP

theorem assertFlushed (fault : Nat → Fault) : Ensures P (assertFlushed fault) P := by
  intro t a u hP h
  by_cases hzero : t.map.occupancy = 0
  · simp only [Lowering.assertFlushed, StateT.run_bind, StateT.run_get, pure_bind, hzero, ne_eq,
      not_true_eq_false, if_false] at h
    cases h
    exact hP
  · simp only [Lowering.assertFlushed, StateT.run_bind, StateT.run_get, pure_bind, hzero, ne_eq,
      not_false_eq_true, if_true] at h
    cases h

theorem leaveTo (target : Word) (slot : ExitSlot) : Ensures P (leaveTo target slot) P := by
  refine (assertFlushed _).bind fun _ => .bind (modify ?_) fun _ => write _
  intro t hP
  exact hP

theorem leaveToReg (src : Host.Reg) : Ensures P (leaveToReg src) P :=
  (assertFlushed _).bind fun _ => write _

/-- Code generation changes the register map alone. -/
theorem emit {e : Emit α}
    (he : ∀ s r, P s → e.run s.map = .ok r → Q { s with map := r.map }) :
    Ensures P (emit e) Q := by
  intro t a u hP h
  cases hrun : e.run t.map with
  | error fault => simp only [Lowering.emit, StateT.run, hrun] at h; cases h
  | ok r => rw [run_emit t hrun] at h; cases h; exact he t.core r hP hrun

/-! ### Actions on the progress -/

theorem advance {f : Progress → Progress} (hf : ∀ s, P s → Q (s.at (f s.progress))) :
    Ensures P (advance f) Q := .modify fun t h => hf t.core h

theorem close (h : ∀ s, P s → Q (s.at { s.progress with isOpen := false })) :
    Ensures P close Q := advance h

theorem setPc (addr : Word) (h : ∀ s, P s → Q (s.at { s.progress with pc := addr })) :
    Ensures P (setPc addr) Q := advance h

theorem enterInstr (addr : Word)
    (h : ∀ s, P s → Q (s.at { s.progress with pc := addr, count := s.progress.count + 1 })) :
    Ensures P (enterInstr addr) Q := by
  refine progress_bind ?_
  intro p
  split
  · refine advance ?_
    rintro s ⟨hP, rfl⟩
    exact h s hP
  · exact .throw _

theorem openSlot (h : ∀ s, P s → Q (s.at { s.progress with inSlot := true })) :
    Ensures P openSlot Q := by
  refine progress_bind ?_
  intro p
  split
  · exact .throw _
  · refine (advance ?_).bind fun _ => .pure _
    rintro s ⟨hP, -⟩
    exact h s hP

/-- A slot is closed only with no flags saved. -/
theorem closeSlot (h : ∀ s, P s → s.progress.inSlot = true → s.progress.flagsSaved = false →
    Q (s.at { s.progress with inSlot := false })) : Ensures P closeSlot Q := by
  intro t a u hP hrun
  cases hslot : t.progress.inSlot with
  | false =>
    simp [Lowering.closeSlot, StateT.run_bind, run_progress, hslot, ok_bind] at hrun
    cases hrun
  | true =>
    cases hflags : t.progress.flagsSaved with
    | true =>
      simp [Lowering.closeSlot, StateT.run_bind, run_progress, hslot, hflags, ok_bind] at hrun
      cases hrun
    | false =>
      rw [run_closeSlot t hslot hflags] at hrun
      cases hrun
      exact h t.core hP hslot hflags

theorem saveFlags (h : ∀ s, P s → Q (s.at { s.progress with flagsSaved := true })) :
    Ensures P saveFlags Q := by
  refine progress_bind ?_
  intro p
  split
  · exact .throw _
  · refine (advance ?_).bind fun _ => write _
    rintro s ⟨hP, -⟩
    exact h s hP

theorem dropFlags (h : ∀ s, P s → Q (s.at { s.progress with flagsSaved := false })) :
    Ensures P dropFlags Q := advance h

theorem restoreFlags (h : ∀ s, P s → Q (s.at { s.progress with flagsSaved := false })) :
    Ensures P restoreFlags Q := (write _).bind fun _ => dropFlags h

end Ensures

end Lowering

end MipsOnArm
