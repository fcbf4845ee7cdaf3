import MipsOnArm.Proofs.BlockTable
import MipsOnArm.Proofs.Lowering.Calls
import MipsOnArm.Proofs.Preservation
import MipsOnArm.Session

/-! The steps of a running guest. A step finds its block in the table, also if the block was lowered
    for it. As long as every block in the table is the one that a fresh compiler would make, a step
    does what the fresh block does, whether it was in the table or not, and the table stays that
    way. -/

namespace MipsOnArm
open Guest Lowering

variable {σ : Type} {fetch : Word → Word} {options : Options} {entry : Word}

/-! ### Where a block starts -/

namespace Lowering

variable {t u : Compiler} {b : Block}

theorem entry_of_run_finish (h : (finish entry).run t = .ok (b, u)) : b.entry = entry := by
  obtain ⟨p, _, -, h⟩ := of_run_bind h
  split at h
  · obtain ⟨_, _, ⟨⟩, -⟩ := of_run_bind h
  · -- only the last of the remaining actions makes the block
    obtain ⟨_, _, -, h⟩ := of_run_bind h
    obtain ⟨_, _, -, h⟩ := of_run_bind h
    obtain ⟨_, _, -, h⟩ := of_run_bind h
    obtain ⟨_, _, -, h⟩ := of_run_bind h
    obtain ⟨_, _, -, ⟨⟩⟩ := of_run_bind h
    rfl

/-- A block starts where it was asked for. -/
theorem entry_of_run_lowerBlock (h : (lowerBlock fetch entry).run t = .ok (.ok b, u)) :
    b.entry = entry := by
  obtain ⟨_, _, -, h⟩ := of_run_bind h
  obtain ⟨_, _, -, h⟩ := of_run_bind h
  obtain ⟨v, _, -, h⟩ := of_run_bind h
  cases v with
  | error refusal => cases h
  | ok =>
    obtain ⟨_, _, hfinish, ⟨⟩⟩ := of_run_bind h
    exact entry_of_run_finish hfinish

end Lowering

namespace Session

variable {handler : Handler σ}

/-! ### One step -/

theorem run_runBlock {s : Session σ} {b : Block} {ex : Execution σ}
    (h : b.execute handler s.cpu s.env = .ok ex) (lowered : Bool) :
    s.runBlock handler b lowered = .ok
      (⟨s.compiler, s.table, ex.cpu, ex.env, s.calls ++ ex.calls⟩,
        ⟨s.cpu.pc, ex.cpu.pc, ex.departure, b.count, lowered,
          isLinked s.table s.cpu.pc ex.departure⟩) := by
  simp only [runBlock, h, ok_bind]
  rfl

theorem preload_of_lowered {s : Session σ} {b : Block} {u : Compiler}
    (hrun : (lowerBlock fetch entry).run s.compiler = .ok (.ok b, u)) :
    s.preload fetch entry = .ok ({ s with compiler := u, table := s.table.insert b }, .ok b) := by
  rw [preload, hrun]
  rfl

theorem preload_of_refused {s : Session σ} {refusal : Refusal} {u : Compiler}
    (hrun : (lowerBlock fetch entry).run s.compiler = .ok (.error refusal, u)) :
    s.preload fetch entry = .ok ({ s with compiler := u }, .error refusal) := by
  rw [preload, hrun]
  rfl

/-- What lowering a block ahead has done, whether or not the block was refused. -/
theorem of_preload {s s' : Session σ} {result : Except Refusal Block}
    (h : s.preload fetch entry = .ok (s', result)) :
    ∃ u, (lowerBlock fetch entry).run s.compiler = .ok (result, u) ∧
      s' = { s with
        compiler := u
        table := result.toOption.elim s.table s.table.insert } := by
  rw [preload] at h
  cases hrun : (lowerBlock fetch entry).run s.compiler with
  | error fault => rw [hrun] at h; cases h
  | ok p =>
    obtain ⟨res, u⟩ := p
    rw [hrun] at h
    cases res with
    | error refusal => cases h; exact ⟨u, rfl, rfl⟩
    | ok b => cases h; exact ⟨u, rfl, rfl⟩

/-- A block that is lowered ahead is found in the table. -/
theorem get?_of_preload {s s' : Session σ} {b : Block}
    (h : s.preload fetch entry = .ok (s', .ok b)) :
    s'.table.get? entry = some b ∧ s'.cpu = s.cpu := by
  obtain ⟨u, hrun, rfl⟩ := of_preload h
  refine ⟨?_, rfl⟩
  show (s.table.insert b).get? entry = some b
  rw [BlockTable.get?_insert, if_pos (entry_of_run_lowerBlock hrun).symm]

theorem prepare_of_get? {s : Session σ} {b : Block} (hget : s.table.get? s.cpu.pc = some b) :
    s.prepare fetch = .ok (s, .ok false) := by
  rw [prepare, BlockTable.contains_eq_isSome, hget]
  rfl

theorem prepare_of_preload {s s₁ : Session σ} {result : Except Refusal Block}
    (hget : s.table.get? s.cpu.pc = none) (h : s.preload fetch s.cpu.pc = .ok (s₁, result)) :
    s.prepare fetch = .ok (s₁, result.map fun _ => true) := by
  rw [prepare, BlockTable.contains_eq_isSome, hget, h]
  rfl

/-- Before a step its block is in the table already, or is lowered, or is refused. -/
theorem prepare_cases {s s₁ : Session σ} {result : Except Refusal Bool}
    (h : s.prepare fetch = .ok (s₁, result)) :
    (∃ b, s.table.get? s.cpu.pc = some b ∧ s₁ = s ∧ result = .ok false) ∨
      s.table.get? s.cpu.pc = none ∧
        ((∃ b, s.preload fetch s.cpu.pc = .ok (s₁, .ok b) ∧ result = .ok true) ∨
          ∃ refusal, s.preload fetch s.cpu.pc = .ok (s₁, .error refusal) ∧
            result = .error refusal) := by
  cases hget : s.table.get? s.cpu.pc with
  | some b =>
    rw [prepare_of_get? hget] at h
    cases h
    exact .inl ⟨b, rfl, rfl, rfl⟩
  | none =>
    cases hpreload : s.preload fetch s.cpu.pc with
    | error fault =>
      rw [prepare, BlockTable.contains_eq_isSome, hget, hpreload] at h
      cases h
    | ok p =>
      obtain ⟨s₂, res⟩ := p
      rw [prepare_of_preload hget hpreload] at h
      cases h
      cases res with
      | error refusal => exact .inr ⟨rfl, .inr ⟨refusal, rfl, rfl⟩⟩
      | ok b => exact .inr ⟨rfl, .inl ⟨b, rfl, rfl⟩⟩

/-- The look-up of a step always finds a block. -/
theorem exists_get?_of_prepare {s s₁ : Session σ} {lowered : Bool}
    (h : s.prepare fetch = .ok (s₁, .ok lowered)) :
    s₁.cpu = s.cpu ∧ ∃ b, s₁.table.get? s₁.cpu.pc = some b := by
  obtain ⟨b, hget, rfl, -⟩ | ⟨-, ⟨b, hpreload, -⟩ | ⟨_, _, ⟨⟩⟩⟩ := prepare_cases h
  · exact ⟨rfl, b, hget⟩
  · obtain ⟨hget, hcpu⟩ := get?_of_preload hpreload
    exact ⟨hcpu, b, hcpu ▸ hget⟩

theorem step_of_prepare {s s₁ s₂ : Session σ} {b : Block} {lowered : Bool} {step : Step}
    (hprepare : s.prepare fetch = .ok (s₁, .ok lowered))
    (hget : s₁.table.get? s₁.cpu.pc = some b)
    (hrun : s₁.runBlock handler b lowered = .ok (s₂, step)) :
    s.step fetch handler = .ok (s₂, .ok step) := by
  rw [Session.step, hprepare, ok_bind]
  dsimp only
  rw [hget]
  dsimp only
  rw [hrun]
  rfl

theorem step_of_preload {s s₁ s₂ : Session σ} {b : Block} {step : Step}
    (hget : s.table.get? s.cpu.pc = none) (hpreload : s.preload fetch s.cpu.pc = .ok (s₁, .ok b))
    (hrun : s₁.runBlock handler b true = .ok (s₂, step)) :
    s.step fetch handler = .ok (s₂, .ok step) := by
  obtain ⟨hfound, hcpu⟩ := get?_of_preload hpreload
  exact step_of_prepare (prepare_of_preload hget hpreload) (hcpu ▸ hfound) hrun

theorem step_of_get? {s s' : Session σ} {b : Block} {step : Step}
    (hget : s.table.get? s.cpu.pc = some b)
    (hrun : s.runBlock handler b false = .ok (s', step)) :
    s.step fetch handler = .ok (s', .ok step) :=
  step_of_prepare (prepare_of_get? hget) hget hrun

theorem step_of_refused {s s' : Session σ} {refusal : Refusal}
    (hget : s.table.get? s.cpu.pc = none)
    (hpreload : s.preload fetch s.cpu.pc = .ok (s', .error refusal)) :
    s.step fetch handler = .ok (s', .error refusal) := by
  rw [Session.step, prepare_of_preload hget hpreload]
  rfl

/-- What every step keeps of the compiler and the table is kept by a run, whether or not it ends in
    a refusal. -/
theorem exists_runFrom_of_step {P : Compiler → BlockTable → Prop}
    (hstep : ∀ s : Session σ, P s.compiler s.table →
      ∃ s' result, s.step fetch handler = .ok (s', result) ∧ P s'.compiler s'.table)
    (stop : Step → Bool) (done : List Step) (limit : Nat) {s : Session σ}
    (hs : P s.compiler s.table) :
    ∃ s' result, s.runFrom fetch handler stop done limit = .ok (s', result) ∧
      P s'.compiler s'.table := by
  induction limit generalizing done s with
  | zero => exact ⟨s, _, rfl, hs⟩
  | succ limit ih =>
    obtain ⟨s', result, hone, hkept⟩ := hstep s hs
    cases result with
    | error refusal => exact ⟨s', .error refusal, by rw [Session.runFrom, hone], hkept⟩
    | ok step =>
      by_cases hstop : stop step = true
      · exact ⟨s', _, by rw [Session.runFrom, hone]; exact if_pos hstop, hkept⟩
      · obtain ⟨s'', result, hrun, hkept'⟩ := ih (step :: done) hkept
        refine ⟨s'', result, ?_, hkept'⟩
        rw [Session.runFrom, hone, ← hrun]
        exact if_neg hstop

end Session

/-! ### Tables that cannot be told from no table -/

/-- The compiler keeps to its options, and every block in the table is the one that a fresh compiler
    makes of the words in memory. -/
structure Transparent (options : Options) (fetch : Word → Word) (compiler : Compiler)
    (table : BlockTable) : Prop where
  options_eq : compiler.options = options
  fits : compiler.Fits
  blocks : ∀ entry b, table.get? entry = some b → freshly fetch options entry = .ok (.ok b)

/-- The outcomes of a step from `s`: either the block is refused and nothing but the compiler has
    changed, or the block that a fresh compiler makes has run. -/
inductive Stepped (options : Options) (fetch : Word → Word) (handler : Handler σ) (s : Session σ) :
    Session σ → Except Refusal Step → Prop
  | refused (compiler : Compiler) {refusal : Refusal} (hmiss : s.table.get? s.cpu.pc = none)
      (hfresh : freshly fetch options s.cpu.pc = .ok (.error refusal)) :
      Stepped options fetch handler s { s with compiler := compiler } (.error refusal)
  | ran (compiler : Compiler) (table : BlockTable) {b : Block} {ex : Execution σ}
      (hfresh : freshly fetch options s.cpu.pc = .ok (.ok b))
      (hrun : b.execute handler s.cpu s.env = .ok ex) :
      Stepped options fetch handler s ⟨compiler, table, ex.cpu, ex.env, s.calls ++ ex.calls⟩
        (.ok ⟨s.cpu.pc, ex.cpu.pc, ex.departure, b.count, (s.table.get? s.cpu.pc).isNone,
          Session.isLinked table s.cpu.pc ex.departure⟩)

namespace Transparent

variable {compiler : Compiler} {table : BlockTable}

theorem start (hoptions : compiler.options = options) (hfits : compiler.Fits)
    (fetch : Word → Word) : Transparent options fetch compiler .empty :=
  ⟨hoptions, hfits, fun entry b h => by simp [BlockTable.get?_empty] at h⟩

theorem fresh (options : Options) (fetch : Word → Word) :
    Transparent options fetch (.fresh options) .empty :=
  start rfl (Compiler.fits_fresh options) fetch

theorem erase (h : Transparent options fetch compiler table) (entry : Word) :
    Transparent options fetch compiler (table.erase entry) where
  options_eq := h.options_eq
  fits := h.fits
  blocks x b hx := by
    rw [BlockTable.get?_erase] at hx
    split at hx
    · cases hx
    · exact h.blocks x b hx

theorem clear (h : Transparent options fetch compiler table) :
    Transparent options fetch compiler .empty where
  options_eq := h.options_eq
  fits := h.fits
  blocks x b hx := by simp [BlockTable.get?_empty] at hx

/-- A write to memory that spares the words of all blocks in the table. -/
theorem write (h : Transparent options fetch compiler table) {fetch' : Word → Word}
    (hwords : ∀ entry b, table.get? entry = some b →
      ∀ i < b.count, fetch' (addrAt entry i) = fetch (addrAt entry i)) :
    Transparent options fetch' compiler table where
  options_eq := h.options_eq
  fits := h.fits
  blocks x b hx := freshly_congr (h.blocks x b hx) (hwords x b hx)

/-- A block is lowered ahead of its first run. -/
theorem exists_preload {s : Session σ} (h : Transparent options fetch s.compiler s.table)
    (entry : Word) : ∃ u res, freshly fetch options entry = .ok res ∧
      Transparent options fetch u (match res with
        | .ok b => s.table.insert b
        | .error _ => s.table) ∧
      s.preload fetch entry = .ok (match res with
        | .ok b => ({ s with compiler := u, table := s.table.insert b }, .ok b)
        | .error refusal => ({ s with compiler := u }, .error refusal)) := by
  obtain ⟨res, u, hrun, hfresh, hoptions, hfits⟩ := exists_run_of_fits fetch h.fits entry
  rw [h.options_eq] at hfresh
  cases res with
  | error refusal =>
    exact ⟨u, .error refusal, hfresh, ⟨hoptions.trans h.options_eq, hfits, h.blocks⟩,
      Session.preload_of_refused hrun⟩
  | ok b' =>
    refine ⟨u, .ok b', hfresh, ⟨hoptions.trans h.options_eq, hfits, ?_⟩,
      Session.preload_of_lowered hrun⟩
    intro x b hx
    rw [BlockTable.get?_insert] at hx
    split at hx
    · next heq =>
      cases hx
      rw [heq, entry_of_freshly hfresh]
      exact hfresh
    · exact h.blocks x b hx

variable (handler : Handler σ)

/-- A step never fails, and has one of its two outcomes. -/
theorem exists_step {s : Session σ} (h : Transparent options fetch s.compiler s.table) :
    ∃ s' result, s.step fetch handler = .ok (s', result) ∧
      Stepped options fetch handler s s' result ∧
      Transparent options fetch s'.compiler s'.table := by
  cases hget : s.table.get? s.cpu.pc with
  | some b =>
    have hfresh := h.blocks _ _ hget
    obtain ⟨ex, hrun, -⟩ := exists_execute_of_freshly hfresh handler s.cpu s.env
    refine ⟨_, _, ?_, .ran s.compiler s.table hfresh hrun, h⟩
    rw [hget]
    exact Session.step_of_get? hget (Session.run_runBlock hrun false)
  | none =>
    obtain ⟨u, res, hfresh, hkept, hpreload⟩ := h.exists_preload s.cpu.pc
    cases res with
    | error refusal =>
      exact ⟨_, _, Session.step_of_refused hget hpreload, .refused u hget hfresh, hkept⟩
    | ok b =>
      obtain ⟨ex, hrun, -⟩ := exists_execute_of_freshly hfresh handler s.cpu s.env
      have hblock := Session.run_runBlock (s := ⟨u, s.table.insert b, s.cpu, s.env, s.calls⟩)
        hrun true
      refine ⟨_, _, ?_, .ran u (s.table.insert b) hfresh hrun, hkept⟩
      rw [hget]
      exact Session.step_of_preload hget hpreload hblock

/-- A run keeps the table transparent, whether or not it ends in a refusal. -/
theorem exists_runFrom (stop : Step → Bool) (done : List Step) (limit : Nat) {s : Session σ}
    (h : Transparent options fetch s.compiler s.table) :
    ∃ s' result, s.runFrom fetch handler stop done limit = .ok (s', result) ∧
      Transparent options fetch s'.compiler s'.table := by
  refine Session.exists_runFrom_of_step ?_ stop done limit h
  intro s hs
  obtain ⟨s', result, hstep, -, hkept⟩ := hs.exists_step handler
  exact ⟨s', result, hstep, hkept⟩

end Transparent

end MipsOnArm
