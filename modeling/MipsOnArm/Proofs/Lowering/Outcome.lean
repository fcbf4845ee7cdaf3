import MipsOnArm.Proofs.Lowering.Faultless

/-! What comes of a block, read off its first instruction that is no operation. Where there is none
    below the limit, the block ends at the limit; an invalid word is refused where it stands; a
    system call ends the block; any other control instruction ends it one instruction later, or is
    refused for what stands in its slot. -/

namespace MipsOnArm

namespace Guest

/-- Whether the word at `addr` is an operation, after which a block goes on. -/
def isOperation (fetch : Word → Word) (addr : Word) : Bool :=
  match Instr.decode ⟨fetch addr⟩ with
  | some (.operation _) => true
  | _ => false

/-- The number of the first instruction from `pc` on that is no operation, if it is one of the first
    `limit`. -/
def firstStop? (fetch : Word → Word) (limit : Nat) (pc : Word) : Option Nat :=
  (List.range limit).find? fun i => !isOperation fetch (addrAt pc i)

/-- The number of instructions of the block from `pc` on, or why it is refused. -/
def outcome (fetch : Word → Word) (limit : Nat) (pc : Word) : Except Refusal Nat :=
  match firstStop? fetch limit pc with
  | none => .ok limit
  | some k =>
    match Instr.decode ⟨fetch (addrAt pc k)⟩ with
    | some (.control .syscall) => .ok (k + 1)
    | some (.control _) => (slotVerdict fetch (addrAt pc (k + 1))).map fun _ => k + 2
    -- an invalid word, since no operation stops a block
    | _ => .error (.unsupported (addrAt pc k) (fetch (addrAt pc k)))

variable {fetch : Word → Word} {k : Nat} {pc : Word}

theorem exists_decode_of_isOperation {addr : Word} (h : isOperation fetch addr = true) :
    ∃ o, Instr.decode ⟨fetch addr⟩ = some (.operation o) := by
  unfold isOperation at h
  split at h
  · next o hdecode => exact ⟨o, hdecode⟩
  · cases h

theorem isOperation_of_firstStop?_none {limit : Nat} (h : firstStop? fetch limit pc = none) :
    ∀ i < limit, isOperation fetch (addrAt pc i) = true := by
  simpa only [Bool.not_not] using List.find?_range_eq_none.mp h

/-- The first instruction that is no operation has only operations before it. -/
theorem of_firstStop?_eq_some {limit : Nat} (h : firstStop? fetch limit pc = some k) :
    (∀ i < k, isOperation fetch (addrAt pc i) = true) ∧
      (isOperation fetch (addrAt pc k) = false ∧ ∃ n, limit = k + (n + 1)) := by
  obtain ⟨hno, hmem, hops⟩ := List.find?_range_eq_some.mp h
  simp only [Bool.not_not] at hops
  have hlt := List.mem_range.mp hmem
  exact ⟨hops, by simpa using hno, limit - k - 1, by omega⟩

/-- Operations are counted, and refused nowhere. -/
theorem extent_and_verdict_add (hops : ∀ i < k, isOperation fetch (addrAt pc i) = true) (n : Nat) :
    extent fetch (k + n) pc = k + extent fetch n (addrAt pc k) ∧
      verdict fetch (k + n) pc = verdict fetch n (addrAt pc k) := by
  induction k generalizing pc with
  | zero => simp only [Nat.zero_add, addrAt_zero, and_self]
  | succ k ih =>
    obtain ⟨o, hdecode⟩ := exists_decode_of_isOperation (hops 0 (Nat.zero_lt_succ k))
    rw [addrAt_zero] at hdecode
    obtain ⟨hextent, hverdict⟩ := @ih (pc + instrBytes) fun i hi =>
      addrAt_next pc i ▸ hops (i + 1) (Nat.succ_lt_succ hi)
    rw [addrAt_next] at hextent hverdict
    rw [Nat.succ_add, extent, verdict, hdecode]
    dsimp only
    rw [hextent, hverdict]
    exact ⟨by omega, rfl⟩

/-- How far the block reaches, if it is not refused, is its outcome. -/
theorem map_extent_verdict (fetch : Word → Word) (limit : Nat) (pc : Word) :
    (verdict fetch limit pc).map (fun _ => extent fetch limit pc) = outcome fetch limit pc := by
  rw [outcome]
  cases hstop : firstStop? fetch limit pc with
  | none =>
    obtain ⟨hextent, hverdict⟩ :=
      extent_and_verdict_add (isOperation_of_firstStop?_none hstop) 0
    rw [Nat.add_zero] at hextent hverdict
    rw [hextent, hverdict]
    rfl
  | some k =>
    obtain ⟨hops, hno, n, rfl⟩ := of_firstStop?_eq_some hstop
    obtain ⟨hextent, hverdict⟩ := extent_and_verdict_add hops (n + 1)
    rw [hextent, hverdict, extent, verdict]
    dsimp only
    cases hdecode : Instr.decode ⟨fetch (addrAt pc k)⟩ with
    | none => rfl
    | some i =>
      cases i with
      | operation o => simp [isOperation, hdecode] at hno
      | control c =>
        cases c with
        | syscall => rfl
        | _ => simp only [Control.hasDelaySlot, if_true, addrAt_succ]

end Guest

open Guest Lowering

/-- The exact outcome of a block, whatever was lowered before. The compiler is left with the block
    closed, no slot open and no flags saved. -/
theorem exists_run_lowerBlock_outcome {t : Compiler} (h : Driven t) (fetch : Word → Word)
    (entry : Word) : ∃ res u, (lowerBlock fetch entry).run t = .ok (res, u) ∧
      res.map Block.count = outcome fetch (max t.options.maxInstrs.toNat 1) entry ∧
      u.progress.isOpen = false ∧ u.progress.inSlot = false ∧ u.progress.flagsSaved = false := by
  obtain ⟨r, hr, hrun⟩ := exists_run_lowerBlock fetch entry t h.atRest.fits
  refine ⟨_, _, hrun, ?_, by simp⟩
  rw [← limitOf, ← map_extent_verdict, ← hr.verdict_eq, ← hr.count_eq, result]
  cases r.verdict <;> rfl

/-- A branch among words that do nothing. -/
def branchFirst (addr : Word) : Word := if addr = 0x1000 then 0x11090002 else 0

/-- The slot of the last instruction below the limit comes on top of it. -/
theorem exists_run_lowerBlock_outcome_branchFirst :
    ∃ b u, (lowerBlock branchFirst 0x1000).run (.fresh ⟨1, 0⟩) = .ok (.ok b, u) ∧ b.count = 2 ∧
      u.progress.isOpen = false := by
  obtain ⟨res, u, hrun, hres, hclosed, -⟩ :=
    exists_run_lowerBlock_outcome (.fresh ⟨1, 0⟩) branchFirst 0x1000
  have houtcome : res.map Block.count = .ok 2 := hres.trans (by decide)
  cases res with
  | error refusal => cases houtcome
  | ok b => exact ⟨b, u, hrun, Except.ok.inj houtcome, hclosed⟩

end MipsOnArm
