import MipsOnArm.Proofs.Session.Steps

/-! The table of blocks cannot be told from the outside. In every state that a running guest can be
    brought into, its blocks are the ones that a fresh compiler would make of the words now in
    memory, so that a step shows what it would show with no table at all. -/

namespace MipsOnArm
open Guest Lowering

/-- The compilers and tables that come about, from no table and a compiler that may have been called
    for anything before, by steps and runs of any guest, by blocks that are lowered ahead or
    removed, and by writes to memory that spare the words of all blocks in the table. The words in
    memory are those that `fetch` now gives. -/
inductive Reached (options : Options) : (fetch : Word → Word) → Compiler → BlockTable → Prop
  | start {compiler : Compiler} (fetch : Word → Word) (hcompiler : Called compiler)
      (hoptions : compiler.options = options) : Reached options fetch compiler .empty
  | step {fetch : Word → Word} {σ : Type} {handler : Handler σ} {s s' : Session σ}
      {result : Except Refusal Step} (hs : Reached options fetch s.compiler s.table)
      (hstep : s.step fetch handler = .ok (s', result)) :
      Reached options fetch s'.compiler s'.table
  | run {fetch : Word → Word} {σ : Type} {handler : Handler σ} {stop : Step → Bool} {limit : Nat}
      {s s' : Session σ} {result : Except Refusal (List Step)}
      (hs : Reached options fetch s.compiler s.table)
      (hrun : s.run fetch handler stop limit = .ok (s', result)) :
      Reached options fetch s'.compiler s'.table
  | preload {fetch : Word → Word} {σ : Type} {s s' : Session σ} {entry : Word}
      {result : Except Refusal Block} (hs : Reached options fetch s.compiler s.table)
      (hpreload : s.preload fetch entry = .ok (s', result)) :
      Reached options fetch s'.compiler s'.table
  | erase {fetch : Word → Word} {compiler : Compiler} {table : BlockTable} (entry : Word)
      (hs : Reached options fetch compiler table) :
      Reached options fetch compiler (table.erase entry)
  | clear {fetch : Word → Word} {compiler : Compiler} {table : BlockTable}
      (hs : Reached options fetch compiler table) : Reached options fetch compiler .empty
  | write {fetch fetch' : Word → Word} {compiler : Compiler} {table : BlockTable}
      (hs : Reached options fetch compiler table)
      (hwords : ∀ entry b, table.get? entry = some b →
        ∀ i < b.count, fetch' (addrAt b.entry i) = fetch (addrAt b.entry i)) :
      Reached options fetch' compiler table

variable {σ : Type} {options : Options} {fetch : Word → Word}

/-- Every way on keeps the table transparent. -/
theorem Reached.transparent {compiler : Compiler} {table : BlockTable}
    (h : Reached options fetch compiler table) : Transparent options fetch compiler table := by
  induction h with
  | start fetch hcompiler hoptions => exact .start hoptions hcompiler.atRest.fits fetch
  | step _ hstep ih =>
    obtain ⟨s', result, hstep', -, hkept⟩ := ih.exists_step _
    cases hstep.symm.trans hstep'
    exact hkept
  | run _ hrun ih =>
    obtain ⟨s', result, hrun', hkept⟩ := ih.exists_runFrom _ _ [] _
    cases hrun.symm.trans hrun'
    exact hkept
  | preload _ hpreload ih =>
    obtain ⟨u, res, -, hkept, hpreload'⟩ := ih.exists_preload _
    cases res with
    | error refusal =>
      cases hpreload.symm.trans hpreload'
      exact hkept
    | ok b =>
      cases hpreload.symm.trans hpreload'
      exact hkept
  | erase entry _ ih => exact ih.erase entry
  | clear _ ih => exact ih.clear
  | write _ hwords ih =>
    refine ih.write fun entry b hget => ?_
    have hentry : b.entry = entry := entry_of_freshly (ih.blocks entry b hget)
    exact hentry ▸ hwords entry b hget

/-- What a step shows whether or not there is a table. -/
def Step.visible (step : Step) : Word × Word × Departure × Nat :=
  (step.entry, step.next, step.departure, step.count)

/-- Two sessions on the same guest take the same step, whatever their tables. -/
theorem Stepped.agree {handler : Handler σ} {s s₀ s' s₀' : Session σ}
    {result result₀ : Except Refusal Step} (h : Stepped options fetch handler s s' result)
    (h₀ : Stepped options fetch handler s₀ s₀' result₀) (hcpu : s.cpu = s₀.cpu)
    (henv : s.env = s₀.env) (hcalls : s.calls = s₀.calls) :
    s'.cpu = s₀'.cpu ∧ s'.env = s₀'.env ∧ s'.calls = s₀'.calls ∧
      result.map Step.visible = result₀.map Step.visible := by
  cases h with
  | refused u hmiss hfresh =>
    cases h₀ with
    | refused u₀ hmiss₀ hfresh₀ =>
      rw [hcpu, hfresh₀] at hfresh
      cases hfresh
      exact ⟨hcpu, henv, hcalls, rfl⟩
    | ran u₀ table₀ hfresh₀ hrun₀ =>
      rw [hcpu, hfresh₀] at hfresh
      cases hfresh
  | ran u table hfresh hrun =>
    cases h₀ with
    | refused u₀ hmiss₀ hfresh₀ =>
      rw [hcpu, hfresh₀] at hfresh
      cases hfresh
    | ran u₀ table₀ hfresh₀ hrun₀ =>
      rw [hcpu, hfresh₀] at hfresh
      cases hfresh
      rw [hcpu, henv, hrun₀] at hrun
      cases hrun
      refine ⟨rfl, rfl, by rw [hcalls], ?_⟩
      simp only [Except.map, Step.visible, hcpu]

theorem Stepped.lowered_iff {handler : Handler σ} {s s' : Session σ} {step : Step}
    (h : Stepped options fetch handler s s' (.ok step)) :
    step.lowered = true ↔ s.table.get? s.cpu.pc = none := by
  cases h with
  | ran u table hfresh hrun => exact Option.isNone_iff_eq_none

/-- In every state that can be reached, the blocks in the table are what a fresh compiler makes of
    the words in memory. A step from there on any guest comes out as it does with an empty table,
    and its block is lowered just when it was not in the table. -/
theorem step_eq_of_reached {compiler : Compiler} {table : BlockTable}
    (h : Reached options fetch compiler table) :
    (∀ entry b, table.get? entry = some b → freshly fetch options entry = .ok (.ok b)) ∧
      ∀ {σ : Type} (handler : Handler σ) (cpu : Cpu) (env : σ), ∃ s result s₀ result₀,
        Session.step fetch handler ⟨compiler, table, cpu, env, []⟩ = .ok (s, result) ∧
        (Session.start options cpu env).step fetch handler = .ok (s₀, result₀) ∧
        s.cpu = s₀.cpu ∧ s.env = s₀.env ∧ s.calls = s₀.calls ∧
        result.map Step.visible = result₀.map Step.visible ∧
        ∀ step, result = .ok step → (step.lowered = true ↔ table.get? cpu.pc = none) := by
  refine ⟨h.transparent.blocks, fun handler cpu env => ?_⟩
  have hcached : Transparent options fetch
      (Session.mk compiler table cpu env []).compiler _ := h.transparent
  have hempty : Transparent options fetch (Session.start options cpu env).compiler _ :=
    .fresh options fetch
  obtain ⟨s, result, hstep, hdone, -⟩ := hcached.exists_step handler
  obtain ⟨s₀, result₀, hstep₀, hdone₀, -⟩ := hempty.exists_step handler
  obtain ⟨hcpu, henv, hcalls, hvisible⟩ := hdone.agree hdone₀ rfl rfl rfl
  refine ⟨s, result, s₀, result₀, hstep, hstep₀, hcpu, henv, hcalls, hvisible, ?_⟩
  rintro step rfl
  exact hdone.lowered_iff

/-- The program with the word behind its branch overwritten. -/
def constantBranchOverwritten (addr : Word) : Word :=
  if addr = 12 then 0xffffffff else constantBranch addr

theorem reached_constantBranchOverwritten : ∃ compiler table b,
    Reached ⟨4, 3⟩ constantBranchOverwritten compiler table ∧ table.get? 0 = some b := by
  obtain ⟨b, hfresh, hentry, hcount⟩ := exists_freshly_constantBranch
  have hstart : Transparent ⟨4, 3⟩ constantBranch
      (Session.start ⟨4, 3⟩ (.start 0) ()).compiler _ := .fresh ⟨4, 3⟩ constantBranch
  obtain ⟨u, res, hfresh', -, hpreload⟩ := hstart.exists_preload 0
  cases hfresh'.symm.trans hfresh
  have hreached : Reached ⟨4, 3⟩ constantBranch u (BlockTable.empty.insert b) :=
    .preload (.start constantBranch (.fresh ⟨4, 3⟩) rfl) hpreload
  have hget : ∀ entry, (BlockTable.empty.insert b).get? entry =
      if entry = 0 then some b else none := fun entry => by
    rw [BlockTable.get?_insert, BlockTable.get?_empty, hentry]
  refine ⟨u, _, b, .write hreached ?_, hget 0⟩
  intro entry b' hb' i hi
  rw [hget] at hb'
  split at hb'
  · cases hb'
    rw [hentry]
    rw [hcount] at hi
    revert i
    decide
  · cases hb'

theorem step_eq_of_reached_constantBranch : ∃ compiler table b,
    Reached ⟨4, 3⟩ constantBranchOverwritten compiler table ∧
      freshly constantBranchOverwritten ⟨4, 3⟩ 0 = .ok (.ok b) ∧
      ∃ s result s₀ result₀,
        Session.step constantBranchOverwritten countCalls ⟨compiler, table, .start 0, 0, []⟩ =
          .ok (s, result) ∧
        (Session.start ⟨4, 3⟩ (.start 0) 0).step constantBranchOverwritten countCalls =
          .ok (s₀, result₀) ∧
        s.cpu = s₀.cpu ∧ s.env = s₀.env ∧ s.calls = s₀.calls ∧
        result.map Step.visible = result₀.map Step.visible ∧
        ∀ step, result = .ok step → (step.lowered = true ↔ table.get? 0 = none) := by
  obtain ⟨compiler, table, b, hreached, hget⟩ := reached_constantBranchOverwritten
  obtain ⟨hblocks, hstep⟩ := step_eq_of_reached hreached
  exact ⟨compiler, table, b, hreached, hblocks 0 b hget, hstep countCalls (.start 0) 0⟩

end MipsOnArm
