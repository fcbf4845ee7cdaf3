import MipsOnArm.Proofs.Guest.Execution
import MipsOnArm.Proofs.Session.Steps
import Mathlib.Algebra.GroupWithZero.Nat

/-! How finely the guest's code is cut into blocks cannot be told from the outside. A block with
    many instructions ends as a run of blocks with one instruction each does, whatever the budgets
    of host registers; a delay slot runs in the step of its branch or jump. -/

namespace MipsOnArm
open Guest Lowering

variable {σ : Type} {fetch : Word → Word} {handler : Handler σ} {hostRegs n : Nat}
  {s s₁ s' : Session σ} {ex : Execution σ} {step : Step} {steps : List Step}

/-- The departure of the last step, or `d` if there is no step. -/
def lastDeparture (d : Departure) (steps : List Step) : Departure :=
  (steps.getLast?.map Step.departure).getD d

theorem lastDeparture_cons (d : Departure) (step : Step) (steps : List Step) :
    lastDeparture d (step :: steps) = lastDeparture step.departure steps := by
  rw [lastDeparture, List.getLast?_cons, Option.map_some, Option.getD_some, lastDeparture]
  exact Option.getD_map Step.departure step steps.getLast? |>.symm

theorem getLast?_departure {d : Departure} (h : steps ≠ []) :
    steps.getLast?.map Step.departure = some (lastDeparture d steps) := by
  cases steps with
  | nil => exact absurd rfl h
  | cons step steps => rw [lastDeparture, List.getLast?_cons, Option.map_some, Option.getD_some]

/-- The steps from `s` to `s'` amount to the execution `ex` of the block at the program counter, one
    step for each instruction begun. -/
structure Covers (fetch : Word → Word) (n : Nat) (s : Session σ) (ex : Execution σ)
    (s' : Session σ) (steps : List Step) : Prop where
  length : steps.length = begun fetch n s.cpu.pc
  cpu : s'.cpu = ex.cpu
  env : s'.env = ex.env
  calls : s'.calls = s.calls ++ ex.calls
  departure : lastDeparture (.linked s.cpu.pc 0) steps = ex.departure
  counts : (steps.map Step.count).sum = extent fetch n s.cpu.pc

/-- A step past an operation comes before the steps of what is left of the block. -/
theorem Covers.cons {o : Operation}
    (hdecode : Instr.decode ⟨fetch s.cpu.pc⟩ = some (.operation o))
    (hstep : Covers fetch 1 s
      ((Departure.linked (s.cpu.pc + instrBytes) 0).execution (o.perform s.cpu) s.env []) s₁ [step])
    (h : Covers fetch n s₁ ex s' steps) : Covers fetch (n + 1) s ex s' (step :: steps) := by
  have hpc : s₁.cpu.pc = s.cpu.pc + instrBytes := by rw [hstep.cpu]; rfl
  have hcount : step.count = 1 := by
    have := hstep.counts
    rw [extent, hdecode] at this
    exact this
  refine ⟨?_, h.cpu, h.env, ?_, ?_, ?_⟩
  · rw [List.length_cons, h.length, hpc, begun, hdecode]
  · rw [h.calls, hstep.calls]
    exact congrArg (· ++ ex.calls) (List.append_nil _)
  · rw [← h.departure, hpc, lastDeparture_cons]
    exact congrArg (lastDeparture · steps) hstep.departure
  · rw [List.map_cons, List.sum_cons, h.counts, hcount, hpc, extent, hdecode]
    exact Nat.add_comm _ _

/-- A block that starts with a control instruction has no other instruction that it begins. -/
theorem Covers.of_control {c : Control}
    (hdecode : Instr.decode ⟨fetch s.cpu.pc⟩ = some (.control c))
    (h : Covers fetch 1 s ex s' steps) : Covers fetch (n + 1) s ex s' steps where
  length := by rw [h.length, begun_of_control hdecode, begun_of_control hdecode]
  cpu := h.cpu
  env := h.env
  calls := h.calls
  departure := h.departure
  counts := by rw [h.counts, extent_of_control hdecode, extent_of_control hdecode]

/-- A step with blocks of one instruction runs the guest for one instruction. -/
theorem Transparent.exists_step_covers (h : Transparent ⟨1, hostRegs⟩ fetch s.compiler s.table)
    (hok : verdict fetch 1 s.cpu.pc = .ok ())
    (hex : Guest.runBlock fetch handler 1 s.cpu.pc s.cpu s.env = some ex) :
    ∃ s' step, s.step fetch handler = .ok (s', .ok step) ∧
      Transparent ⟨1, hostRegs⟩ fetch s'.compiler s'.table ∧ Covers fetch 1 s ex s' [step] := by
  have hlimit : limitOf ⟨1, hostRegs⟩ = 1 := rfl
  obtain ⟨b, hb⟩ := exists_freshly_ok_iff.mpr (hlimit ▸ hok)
  obtain ⟨s', result, hstep, hdone, hkept⟩ := h.exists_step handler
  cases hdone with
  | refused u hmiss hfresh => cases hfresh.symm.trans hb
  | ran u table hfresh hrun =>
    obtain ⟨ex', hrun', hex'⟩ := exists_execute_of_freshly hfresh handler s.cpu s.env
    cases hrun.symm.trans hrun'
    rw [hlimit, hex] at hex'
    cases hex'
    have hbegun : begun fetch 1 s.cpu.pc = 1 := by
      rw [begun]
      split <;> rfl
    exact ⟨_, _, hstep, hkept, hbegun.symm, rfl, rfl, rfl, rfl, count_of_freshly hfresh⟩

theorem runFrom_of_step (h : s.step fetch handler = .ok (s', .ok step)) (done : List Step)
    (limit : Nat) :
    s.runFrom fetch handler (fun _ => false) done (limit + 1) =
      s'.runFrom fetch handler (fun _ => false) (step :: done) limit := by
  rw [Session.runFrom, h]
  rfl

/-- A run with blocks of one instruction does what the guest does in one block. -/
theorem Transparent.exists_runFrom_covers (n : Nat) (done : List Step)
    (h : Transparent ⟨1, hostRegs⟩ fetch s.compiler s.table)
    (hok : verdict fetch n s.cpu.pc = .ok ())
    (hex : Guest.runBlock fetch handler n s.cpu.pc s.cpu s.env = some ex) :
    ∃ s' steps, s.runFrom fetch handler (fun _ => false) done (begun fetch n s.cpu.pc) =
        .ok (s', .ok (done.reverse ++ steps)) ∧ Covers fetch n s ex s' steps := by
  induction n generalizing done s with
  | zero =>
    cases hex
    refine ⟨s, [], ?_, rfl, rfl, rfl, (List.append_nil _).symm, rfl, rfl⟩
    rw [List.append_nil]
    rfl
  | succ n ih =>
    cases hdecode : Instr.decode ⟨fetch s.cpu.pc⟩ with
    | none =>
      rw [verdict, hdecode] at hok
      cases hok
    | some i =>
      cases i with
      | operation o =>
        -- the step falls through to the next instruction, where the rest of the block is run
        have hone : verdict fetch 1 s.cpu.pc = .ok () := by
          rw [verdict, hdecode]
          rfl
        have hex₁ : Guest.runBlock fetch handler 1 s.cpu.pc s.cpu s.env =
            some ((Departure.linked (s.cpu.pc + instrBytes) 0).execution (o.perform s.cpu) s.env
              []) := by
          rw [Guest.runBlock, hdecode]
          rfl
        obtain ⟨s₁, step, hstep, hkept, hcovers⟩ := h.exists_step_covers hone hex₁
        have hpc : s₁.cpu.pc = s.cpu.pc + instrBytes := by rw [hcovers.cpu]; rfl
        rw [verdict, hdecode] at hok
        rw [Guest.runBlock, hdecode] at hex
        have hex' : Guest.runBlock fetch handler n s₁.cpu.pc s₁.cpu s₁.env = some ex := by
          rw [hpc, hcovers.cpu, hcovers.env, ← hex]
          exact Guest.runBlock_set_pc fetch handler ..
        obtain ⟨s', steps, hrun, hcovers'⟩ := ih (step :: done) hkept (hpc ▸ hok) hex'
        refine ⟨s', step :: steps, ?_, hcovers.cons hdecode hcovers'⟩
        rw [begun, hdecode]
        dsimp only
        rw [runFrom_of_step hstep, ← hpc, hrun, List.reverse_cons, List.append_assoc]
        rfl
      | control c =>
        have hone : verdict fetch 1 s.cpu.pc = .ok () := by
          rw [verdict, hdecode] at hok ⊢
          exact hok
        have hex₁ : Guest.runBlock fetch handler 1 s.cpu.pc s.cpu s.env = some ex := by
          rw [Guest.runBlock, hdecode] at hex ⊢
          exact hex
        obtain ⟨s', step, hstep, -, hcovers⟩ := h.exists_step_covers hone hex₁
        refine ⟨s', [step], ?_, hcovers.of_control hdecode⟩
        rw [begun, hdecode, runFrom_of_step hstep, Session.runFrom, List.reverse_cons]

/-- A block that was lowered with any limit and budget does what a run does whose blocks have one
    instruction each: as many steps as the block begins instructions, each of which succeeds, with
    the same guest state, native calls and last departure. -/
theorem run_eq_execute_of_lowered (fetch : Word → Word) (handler : Handler σ) (maxInstrs : Word)
    (hostRegs hostRegs' : Nat) (cpu : Cpu) (env : σ) {b : Block} {t : Compiler}
    (h : (lowerBlock fetch cpu.pc).run (.fresh ⟨maxInstrs, hostRegs⟩) = .ok (.ok b, t)) :
    ∃ ex s steps, b.execute handler cpu env = .ok ex ∧
      (Session.start ⟨1, hostRegs'⟩ cpu env).run fetch handler (fun _ => false)
        (b.count - if endsInSlot fetch (max maxInstrs.toNat 1) cpu.pc then 1 else 0) =
          .ok (s, .ok steps) ∧
      steps.length = b.count - (if endsInSlot fetch (max maxInstrs.toNat 1) cpu.pc then 1 else 0) ∧
      s.cpu = ex.cpu ∧ s.env = ex.env ∧ s.calls = ex.calls ∧
      steps.getLast?.map Step.departure = some ex.departure ∧
      (steps.map Step.count).sum = b.count := by
  have hfresh : freshly fetch ⟨maxInstrs, hostRegs⟩ cpu.pc = .ok (.ok b) := by
    rw [freshly, h]
    rfl
  obtain ⟨ex, hexec, hguest⟩ := exists_execute_of_freshly hfresh handler cpu env
  obtain ⟨s, steps, hrun, hcovers⟩ := Transparent.exists_runFrom_covers
    (s := .start ⟨1, hostRegs'⟩ cpu env) (limitOf ⟨maxInstrs, hostRegs⟩) [] (.fresh _ fetch)
    (exists_freshly_ok_iff.mp ⟨b, hfresh⟩) hguest
  have hbegun : begun fetch (limitOf ⟨maxInstrs, hostRegs⟩) cpu.pc =
      b.count - if endsInSlot fetch (max maxInstrs.toNat 1) cpu.pc then 1 else 0 := by
    rw [count_of_freshly hfresh, ← begun_add_slot]
    exact (Nat.add_sub_cancel ..).symm
  have hne : steps ≠ [] := by
    rintro rfl
    have hlength : 0 = begun fetch (limitOf ⟨maxInstrs, hostRegs⟩) cpu.pc := hcovers.length
    obtain ⟨n, hn⟩ : ∃ n, limitOf ⟨maxInstrs, hostRegs⟩ = n + 1 :=
      Nat.exists_eq_add_one.mpr (Nat.le_max_right _ _)
    have hsome := one_le_begun fetch n cpu.pc
    rw [hn] at hlength
    omega
  rw [← hbegun]
  refine ⟨ex, s, steps, hexec, hrun, hcovers.length, hcovers.cpu, hcovers.env, ?_, ?_, ?_⟩
  · rw [hcovers.calls]
    exact List.nil_append _
  · rw [getLast?_departure hne, hcovers.departure]
  · rw [hcovers.counts, count_of_freshly hfresh]
    rfl

theorem run_eq_execute_constantBranch :
    ∃ b t, (lowerBlock constantBranch (Cpu.start 0).pc).run (.fresh ⟨4, 3⟩) = .ok (.ok b, t) ∧
      ∃ ex s steps, b.execute countCalls (.start 0) 0 = .ok ex ∧
        (Session.start ⟨1, 5⟩ (.start 0) 0).run constantBranch countCalls (fun _ => false) 2 =
          .ok (s, .ok steps) ∧
        steps.length = 2 ∧ s.cpu = ex.cpu ∧ s.env = ex.env ∧ s.calls = ex.calls ∧
        steps.getLast?.map Step.departure = some ex.departure ∧
        (steps.map Step.count).sum = 3 := by
  obtain ⟨b, hfresh, -, hcount⟩ := exists_freshly_constantBranch
  obtain ⟨t, h⟩ := exists_run_of_freshly hfresh
  have hsteps : b.count - (if endsInSlot constantBranch (max (BitVec.toNat (4 : Word)) 1)
      (Cpu.start 0).pc then 1 else 0) = 2 := by
    rw [hcount]
    decide
  have hexec := run_eq_execute_of_lowered constantBranch countCalls 4 3 5 (.start 0) 0 h
  rw [hsteps, hcount] at hexec
  exact ⟨b, t, h, hexec⟩

end MipsOnArm
