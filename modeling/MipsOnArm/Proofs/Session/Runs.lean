import Mathlib.Data.List.Chain
import MipsOnArm.Proofs.Session.Steps

/-! A run of the guest, taken apart into its steps. A step that is refused leaves all but the
    compiler as it was, and is refused again. A run makes one successful step after the other, up to
    the first one at which it is to stop or up to its limit; if a step is refused before that, what
    the steps before it did is kept, and nothing else is done. -/

namespace MipsOnArm
open Guest Lowering

variable {σ : Type} {fetch : Word → Word} {handler : Handler σ} {stop : Step → Bool} {limit : Nat}
  {step : Step} {steps : List Step}

namespace Session

variable {s s₁ s' : Session σ}

/-! ### What a step has done -/

theorem of_runBlock {b : Block} {lowered : Bool}
    (h : s.runBlock handler b lowered = .ok (s', step)) :
    step.entry = s.cpu.pc ∧ step.next = s'.cpu.pc := by
  rw [runBlock] at h
  cases hex : b.execute handler s.cpu s.env with
  | error fault => rw [hex] at h; cases h
  | ok ex => rw [hex] at h; cases h; exact ⟨rfl, rfl⟩

/-- The ways of a step: the block that it finds in the table is run, or there is none because it is
    refused. -/
theorem step_cases {result : Except Refusal Step} (h : s.step fetch handler = .ok (s', result)) :
    (∃ s₁ b lowered step, s.prepare fetch = .ok (s₁, .ok lowered) ∧
        s₁.table.get? s₁.cpu.pc = some b ∧ s₁.runBlock handler b lowered = .ok (s', step) ∧
        result = .ok step) ∨
      ∃ refusal, s.prepare fetch = .ok (s', .error refusal) ∧ result = .error refusal := by
  rw [Session.step] at h
  cases hprepare : s.prepare fetch with
  | error fault => rw [hprepare] at h; cases h
  | ok p =>
    obtain ⟨s₁, res⟩ := p
    rw [hprepare, ok_bind] at h
    cases res with
    | error refusal => cases h; exact .inr ⟨refusal, rfl, rfl⟩
    | ok lowered =>
      obtain ⟨-, b, hget⟩ := exists_get?_of_prepare hprepare
      dsimp only at h
      rw [hget] at h
      dsimp only at h
      cases hrun : s₁.runBlock handler b lowered with
      | error fault => rw [hrun] at h; cases h
      | ok p => rw [hrun] at h; cases h; exact .inl ⟨s₁, b, lowered, p.2, rfl, hget, hrun, rfl⟩

/-- A step begins at the program counter, and the guest continues where it says. -/
theorem of_step_ok (h : s.step fetch handler = .ok (s', .ok step)) :
    step.entry = s.cpu.pc ∧ step.next = s'.cpu.pc := by
  rcases step_cases h with ⟨s₁, b, lowered, _, hprepare, -, hrun, ⟨⟩⟩ | ⟨_, _, ⟨⟩⟩
  rw [← (exists_get?_of_prepare hprepare).1]
  exact of_runBlock hrun

/-- A refused step has changed nothing but the compiler. -/
theorem of_step_refused {refusal : Refusal} (h : s.step fetch handler = .ok (s', .error refusal)) :
    ∃ u, s.table.get? s.cpu.pc = none ∧
      (lowerBlock fetch s.cpu.pc).run s.compiler = .ok (.error refusal, u) ∧
      s' = { s with compiler := u } := by
  rcases step_cases h with ⟨_, _, _, _, _, _, _, ⟨⟩⟩ | ⟨_, hprepare, ⟨⟩⟩
  obtain ⟨_, _, _, ⟨⟩⟩ | ⟨hget, ⟨_, _, ⟨⟩⟩ | ⟨_, hpreload, ⟨⟩⟩⟩ := prepare_cases hprepare
  obtain ⟨u, hrun, hs'⟩ := of_preload hpreload
  exact ⟨u, hget, hrun, hs'⟩

/-- A compiler that fits refuses a block for the same reason each time. -/
theorem exists_step_of_refused (hs : s.compiler.Fits) {refusal : Refusal}
    (h : s.step fetch handler = .ok (s', .error refusal)) (handler' : Handler σ) :
    ∃ s'', s'.step fetch handler' = .ok (s'', .error refusal) := by
  obtain ⟨u, hget, hrun, rfl⟩ := of_step_refused h
  obtain ⟨res, v, hrun', hfresh, hoptions, hfits⟩ := exists_run_of_fits fetch hs s.cpu.pc
  cases hrun.symm.trans hrun'
  obtain ⟨res, w, hagain, hfresh', -, -⟩ := exists_run_of_fits fetch hfits s.cpu.pc
  rw [hoptions, hfresh] at hfresh'
  cases hfresh'
  exact ⟨_, step_of_refused hget (preload_of_refused hagain)⟩

/-! ### One step after the other -/

/-- The steps, each of which succeeds, lead from one session to another. -/
inductive Leads (fetch : Word → Word) (handler : Handler σ) :
    Session σ → List Step → Session σ → Prop
  | nowhere (s : Session σ) : Leads fetch handler s [] s
  | onward {s s₁ s' : Session σ} {step : Step} {steps : List Step}
      (hstep : s.step fetch handler = .ok (s₁, .ok step))
      (hsteps : Leads fetch handler s₁ steps s') : Leads fetch handler s (step :: steps) s'

/-- Each step begins where the one before it ends. -/
theorem Leads.chained (h : Leads fetch handler s steps s') :
    (∀ step ∈ steps.head?, step.entry = s.cpu.pc) ∧
      steps.IsChain fun a b => b.entry = a.next := by
  induction h with
  | nowhere => exact ⟨nofun, .nil⟩
  | onward hstep _ ih =>
    obtain ⟨hentry, hnext⟩ := of_step_ok hstep
    refine ⟨?_, List.isChain_cons.mpr ⟨fun b hb => ?_, ih.2⟩⟩
    · rintro _ ⟨⟩
      exact hentry
    · rw [hnext]
      exact ih.1 b hb

/-- Where no step succeeds, no steps lead anywhere. -/
theorem Leads.eq_nil (h : Leads fetch handler s steps s')
    (hnone : ∀ s₁ step, s.step fetch handler ≠ .ok (s₁, .ok step)) : steps = [] ∧ s' = s := by
  cases h with
  | nowhere => exact ⟨rfl, rfl⟩
  | onward hstep => exact absurd hstep (hnone _ _)

/-- The steps are all that a run makes: it stops at none but the last, and it stops at the last
    unless it has reached its limit. -/
structure Complete (stop : Step → Bool) (limit : Nat) (steps : List Step) : Prop where
  length_le : steps.length ≤ limit
  earlier : ∀ step ∈ steps.dropLast, stop step = false
  last : steps.length < limit → ∃ step, steps.getLast? = some step ∧ stop step = true

theorem complete_nil : Complete stop limit [] ↔ limit = 0 := by
  constructor
  · intro h
    by_contra hlimit
    obtain ⟨step, hstep, -⟩ := h.last (Nat.pos_of_ne_zero hlimit)
    cases hstep
  · rintro rfl
    exact ⟨Nat.le_refl 0, nofun, fun h => absurd h (Nat.lt_irrefl 0)⟩

/-- A run goes on behind its first step unless it stops there. -/
theorem complete_cons : Complete stop (limit + 1) (step :: steps) ↔
    if stop step then steps = [] else Complete stop limit steps := by
  cases steps with
  | nil =>
    cases hstop : stop step with
    | true =>
      refine ⟨fun _ => rfl, fun _ => ⟨Nat.succ_le_succ (Nat.zero_le limit), nofun, fun _ => ?_⟩⟩
      exact ⟨step, rfl, hstop⟩
    | false =>
      rw [if_neg Bool.false_ne_true, complete_nil]
      constructor
      · intro h
        by_contra hlimit
        obtain ⟨_, ⟨⟩, hlast⟩ := h.last (Nat.succ_lt_succ (Nat.pos_of_ne_zero hlimit))
        cases hstop.symm.trans hlast
      · rintro rfl
        exact ⟨Nat.le_refl 1, nofun, fun h => absurd h (Nat.lt_irrefl 1)⟩
  | cons next rest =>
    have hmem : ∀ x, x ∈ (step :: next :: rest).dropLast ↔ x = step ∨ x ∈ (next :: rest).dropLast :=
      fun x => by rw [List.dropLast_cons_cons, List.mem_cons]
    have hlast : (step :: next :: rest).getLast? = (next :: rest).getLast? :=
      List.getLast?_cons_cons
    cases hstop : stop step with
    | true =>
      refine ⟨fun h => ?_, fun h => absurd h (List.cons_ne_nil next rest)⟩
      cases hstop.symm.trans (h.earlier step ((hmem step).mpr (.inl rfl)))
    | false =>
      rw [if_neg Bool.false_ne_true]
      constructor
      · intro h
        refine ⟨Nat.le_of_succ_le_succ h.length_le, fun x hx => ?_, fun hlt => ?_⟩
        · exact h.earlier x ((hmem x).mpr (.inr hx))
        · rw [← hlast]
          exact h.last (Nat.succ_lt_succ hlt)
      · intro h
        refine ⟨Nat.succ_le_succ h.length_le, fun x hx => ?_, fun hlt => ?_⟩
        · rcases (hmem x).mp hx with rfl | hx
          · exact hstop
          · exact h.earlier x hx
        · rw [hlast]
          exact h.last (Nat.lt_of_succ_lt_succ hlt)

section
variable (hstep : s.step fetch handler = .ok (s₁, .ok step)) {done all : List Step}
  {refusal : Refusal}
include hstep

/-- Behind its first step a run that ends is the run from there, unless it stops at that step. -/
theorem exists_complete_iff : (∃ steps, all = done.reverse ++ steps ∧
    Leads fetch handler s steps s' ∧ Complete stop (limit + 1) steps) ↔
      ∃ steps, all = (step :: done).reverse ++ steps ∧ Leads fetch handler s₁ steps s' ∧
        if stop step then steps = [] else Complete stop limit steps := by
  simp only [List.reverse_cons, List.append_assoc, List.singleton_append]
  constructor
  · rintro ⟨steps, rfl, hleads, hcomplete⟩
    cases hleads with
    | nowhere => cases complete_nil.mp hcomplete
    | onward hstep' hsteps =>
      cases hstep.symm.trans hstep'
      exact ⟨_, rfl, hsteps, complete_cons.mp hcomplete⟩
  · rintro ⟨steps, rfl, hsteps, hcomplete⟩
    exact ⟨step :: steps, rfl, .onward hstep hsteps, complete_cons.mpr hcomplete⟩

/-- Behind its first step a run that is refused is the run from there. -/
theorem exists_refused_iff : (∃ s₂ steps, Leads fetch handler s steps s₂ ∧
    steps.length < limit + 1 ∧ (∀ x ∈ steps, stop x = false) ∧
    s₂.step fetch handler = .ok (s', .error refusal)) ↔
      stop step = false ∧ ∃ s₂ steps, Leads fetch handler s₁ steps s₂ ∧
        steps.length < limit ∧ (∀ x ∈ steps, stop x = false) ∧
        s₂.step fetch handler = .ok (s', .error refusal) := by
  constructor
  · rintro ⟨s₂, steps, hleads, hlength, hearlier, hrefused⟩
    cases hleads with
    | nowhere => cases hstep.symm.trans hrefused
    | onward hstep' hsteps =>
      cases hstep.symm.trans hstep'
      obtain ⟨hfirst, hearlier⟩ := List.forall_mem_cons.mp hearlier
      exact ⟨hfirst, _, _, hsteps, Nat.lt_of_succ_lt_succ hlength, hearlier, hrefused⟩
  · rintro ⟨hfirst, s₂, steps, hsteps, hlength, hearlier, hrefused⟩
    exact ⟨s₂, step :: steps, .onward hstep hsteps, Nat.succ_lt_succ hlength,
      List.forall_mem_cons.mpr ⟨hfirst, hearlier⟩, hrefused⟩

end

/-- A run that comes to its end has made the steps that it returns, behind those in `done`. -/
theorem runFrom_eq_ok_iff {done all : List Step} :
    s.runFrom fetch handler stop done limit = .ok (s', .ok all) ↔
      ∃ steps, all = done.reverse ++ steps ∧ Leads fetch handler s steps s' ∧
        Complete stop limit steps := by
  induction limit generalizing s done with
  | zero =>
    rw [runFrom]
    constructor
    · intro h
      cases h
      exact ⟨[], (List.append_nil _).symm, .nowhere _, complete_nil.mpr rfl⟩
    · rintro ⟨steps, rfl, hleads, hcomplete⟩
      cases List.length_eq_zero_iff.mp (Nat.le_zero.mp hcomplete.length_le)
      cases hleads
      rw [List.append_nil]
  | succ limit ih =>
    -- without a first step there is no run below the limit
    have hstuck : (∀ s₁ step, s.step fetch handler ≠ .ok (s₁, .ok step)) →
        ¬∃ steps, all = done.reverse ++ steps ∧ Leads fetch handler s steps s' ∧
          Complete stop (limit + 1) steps := by
      rintro hnone ⟨steps, -, hleads, hcomplete⟩
      obtain ⟨rfl, rfl⟩ := hleads.eq_nil hnone
      cases complete_nil.mp hcomplete
    rw [runFrom]
    cases hstep : s.step fetch handler with
    | error fault =>
      exact iff_of_false (fun h => by cases h) (hstuck fun _ _ h => by cases hstep.symm.trans h)
    | ok p =>
      obtain ⟨s₁, result⟩ := p
      cases result with
      | error refusal =>
        exact iff_of_false (fun h => by cases h) (hstuck fun _ _ h => by cases hstep.symm.trans h)
      | ok step =>
        rw [exists_complete_iff hstep]
        dsimp only
        cases hstop : stop step with
        | false => exact ih
        | true =>
          simp only [if_true]
          constructor
          · intro h
            cases h
            exact ⟨[], (List.append_nil _).symm, .nowhere _, rfl⟩
          · rintro ⟨steps, rfl, hleads, rfl⟩
            cases hleads
            rw [List.append_nil]

/-- A run is refused at the step behind those that it has made. -/
theorem runFrom_eq_error_iff {done : List Step} {refusal : Refusal} :
    s.runFrom fetch handler stop done limit = .ok (s', .error refusal) ↔
      ∃ s₁ steps, Leads fetch handler s steps s₁ ∧ steps.length < limit ∧
        (∀ step ∈ steps, stop step = false) ∧
        s₁.step fetch handler = .ok (s', .error refusal) := by
  induction limit generalizing s done with
  | zero =>
    rw [runFrom]
    constructor
    · intro h
      cases h
    · rintro ⟨s₁, steps, -, hlength, -⟩
      exact absurd hlength (Nat.not_lt_zero _)
  | succ limit ih =>
    rw [runFrom]
    cases hstep : s.step fetch handler with
    | error fault =>
      constructor
      · intro h
        cases h
      · rintro ⟨s₁, steps, hleads, -, -, hrefused⟩
        obtain ⟨rfl, rfl⟩ := hleads.eq_nil fun _ _ h => by cases hstep.symm.trans h
        cases hstep.symm.trans hrefused
    | ok p =>
      obtain ⟨s₁, result⟩ := p
      cases result with
      | error r =>
        constructor
        · intro h
          cases h
          exact ⟨s, [], .nowhere s, Nat.succ_pos limit, List.forall_mem_nil _, hstep⟩
        · rintro ⟨s₂, steps, hleads, -, -, hrefused⟩
          obtain ⟨rfl, rfl⟩ := hleads.eq_nil fun _ _ h => by cases hstep.symm.trans h
          cases hstep.symm.trans hrefused
          rfl
      | ok step =>
        rw [exists_refused_iff hstep]
        dsimp only
        cases hstop : stop step with
        | false => simpa using ih
        | true => simp

/-- How far steps and runs get. A step that is refused leaves all but the compiler as it was,
    whatever the system calls would have done, and is refused again for the same reason. A run that
    ends has made successful steps, each of which begins where the one before it ends; it stops at
    none but the last, and ends below its limit only if it stops there. A run that is refused has
    made the successful steps before the refused one and stops at none of them. -/
theorem run_of_called (h : Called s.compiler) :
    (∀ s' refusal, s.step fetch handler = .ok (s', .error refusal) →
      s' = { s with compiler := s'.compiler } ∧ ∀ handler',
        s.step fetch handler' = .ok (s', .error refusal) ∧
          ∃ s'', s'.step fetch handler' = .ok (s'', .error refusal)) ∧
      ∀ stop limit s',
        (∀ steps, s.run fetch handler stop limit = .ok (s', .ok steps) ↔
          Leads fetch handler s steps s' ∧ Complete stop limit steps) ∧
        (∀ steps, s.run fetch handler stop limit = .ok (s', .ok steps) →
          (∀ step ∈ steps.head?, step.entry = s.cpu.pc) ∧
            steps.IsChain fun a b => b.entry = a.next) ∧
        ∀ refusal, s.run fetch handler stop limit = .ok (s', .error refusal) ↔
          ∃ s₁ steps, Leads fetch handler s steps s₁ ∧ steps.length < limit ∧
            (∀ step ∈ steps, stop step = false) ∧
            s₁.step fetch handler = .ok (s', .error refusal) ∧
            s' = { s₁ with compiler := s'.compiler } := by
  refine ⟨fun s' refusal hstep => ?_, fun stop limit s' => ?_⟩
  · obtain ⟨u, hget, hrun, hs'⟩ := of_step_refused hstep
    refine ⟨by rw [hs'], fun handler' => ⟨?_, exists_step_of_refused h.atRest.fits hstep handler'⟩⟩
    rw [hs']
    exact step_of_refused hget (preload_of_refused hrun)
  · have hok : ∀ steps, s.run fetch handler stop limit = .ok (s', .ok steps) ↔
        Leads fetch handler s steps s' ∧ Complete stop limit steps := by
      intro steps
      rw [Session.run, runFrom_eq_ok_iff]
      constructor
      · rintro ⟨_, rfl, hleads⟩
        exact hleads
      · exact fun hleads => ⟨steps, rfl, hleads⟩
    refine ⟨hok, fun steps hrun => ((hok steps).mp hrun).1.chained, fun refusal => ?_⟩
    rw [Session.run, runFrom_eq_error_iff]
    constructor
    · rintro ⟨s₁, steps, hleads, hlength, hearlier, hrefused⟩
      obtain ⟨u, -, -, hs'⟩ := of_step_refused hrefused
      exact ⟨s₁, steps, hleads, hlength, hearlier, hrefused, by rw [hs']⟩
    · rintro ⟨s₁, steps, hleads, hlength, hearlier, hrefused, -⟩
      exact ⟨s₁, steps, hleads, hlength, hearlier, hrefused⟩

/-- A branch to a word that is no instruction. -/
def thenRefused (addr : Word) : Word :=
  if addr = 0x1000 then 0x10000001 else if addr = 0x1008 then 0xffffffff else 0

/-- The branch has been taken when the run is refused. -/
theorem run_of_called_thenRefused : ∃ s₁ s' step,
    (start ⟨1, 0⟩ (.start 0x1000) 0).run thenRefused countCalls (fun _ => false) 2 =
        .ok (s', .error (.unsupported 0x1008 0xffffffff)) ∧
      (start ⟨1, 0⟩ (.start 0x1000) 0).step thenRefused countCalls = .ok (s₁, .ok step) ∧
      step.entry = 0x1000 ∧ step.next = 0x1008 ∧ s' = { s₁ with compiler := s'.compiler } := by
  have houtcome :
      ((start ⟨1, 0⟩ (.start 0x1000) 0).run thenRefused countCalls (fun _ => false) 2).map
        (fun p => (p.1.cpu.pc, p.2)) = .ok (0x1008, .error (.unsupported 0x1008 0xffffffff)) := by
    decide +kernel
  have hfirst : ((start ⟨1, 0⟩ (.start 0x1000) 0).step thenRefused countCalls).map
      (fun p => p.2.toOption.isSome) = .ok true := by decide +kernel
  obtain ⟨-, hruns⟩ := @run_of_called Nat thenRefused countCalls (start ⟨1, 0⟩ (.start 0x1000) 0)
    (.fresh ⟨1, 0⟩)
  cases hrun : (start ⟨1, 0⟩ (.start 0x1000) 0).run thenRefused countCalls (fun _ => false) 2 with
  | error fault => rw [hrun] at houtcome; cases houtcome
  | ok p =>
    obtain ⟨s', result⟩ := p
    rw [hrun] at houtcome
    obtain ⟨hpc, rfl⟩ := Prod.mk.inj (Except.ok.inj houtcome)
    obtain ⟨s₁, steps, hleads, hlength, -, hrefused, hs'⟩ := (hruns _ 2 s').2.2 _ |>.mp hrun
    cases hleads with
    | nowhere => rw [hrefused] at hfirst; cases hfirst
    | onward hstep hsteps =>
      cases List.length_eq_zero_iff.mp (Nat.lt_one_iff.mp (Nat.lt_of_succ_lt_succ hlength))
      cases hsteps
      obtain ⟨hentry, hnext⟩ := of_step_ok hstep
      rw [hs'] at hpc
      exact ⟨s₁, s', _, rfl, hstep, hentry, hnext.trans hpc, hs'⟩

end Session

end MipsOnArm
