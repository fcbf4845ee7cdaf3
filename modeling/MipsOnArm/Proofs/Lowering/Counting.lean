import MipsOnArm.Proofs.Lowering.Calls
import MipsOnArm.Proofs.Lowering.Outcome

/-! The count of instructions, which has to fit into a word. A block goes on while its count is
    below the limit, and the delay slot of its last instruction may take the count past the limit by
    one. With the largest limit there is no such slot: the words come round again long before, so a
    branch or jump is met early or never. -/

namespace MipsOnArm
open Guest Lowering

variable {fetch : Word → Word} {limit : Nat} {t u : Compiler}

/-! ### How far past the limit -/

namespace Guest

variable {k : Nat} {pc : Word}

/-- A block passes its limit just when the last instruction it may begin is the first one that is no
    operation, and has a delay slot. -/
theorem lt_extent_iff : k + 1 < extent fetch (k + 1) pc ↔
    (∀ i < k, isOperation fetch (addrAt pc i) = true) ∧
      ∃ c, Instr.decode ⟨fetch (addrAt pc k)⟩ = some (.control c) ∧ c.hasDelaySlot = true := by
  constructor
  · intro hlt
    have heq : extent fetch (k + 1) pc = k + 1 + 1 :=
      Nat.le_antisymm (extent_le_succ fetch (k + 1) pc) hlt
    obtain ⟨_, c, ⟨⟩, hc, hops⟩ := of_extent_eq_succ fetch heq
    have hops' : ∀ i < k, isOperation fetch (addrAt pc i) = true := by
      intro i hi
      obtain ⟨o, ho⟩ := hops i hi
      rw [isOperation, ho]
    refine ⟨hops', c, hc, ?_⟩
    by_contra hslot
    rw [(extent_and_verdict_add hops' 1).1, extent_of_control hc 0, if_neg hslot] at hlt
    exact absurd hlt (Nat.lt_irrefl _)
  · rintro ⟨hops, c, hc, hslot⟩
    rw [(extent_and_verdict_add hops 1).1, extent_of_control hc 0, if_pos hslot]
    exact Nat.lt_succ_self _

end Guest

/-! ### By the count -/

namespace Lowering

/-- Lowers instructions until the block has ended or its count has reached the limit; nothing is
    returned if `rounds` turns are too few for that. -/
def lowerUpTo (fetch : Word → Word) (limit : Nat) : (rounds : Nat) → Lowering (Option Verdict)
  | 0 => return none
  | rounds + 1 => do
    if ← isOpen then
      let p ← progress
      if limit ≤ p.count then
        endAtLimit
        return some (.ok ())
      else
        match ← lowerAt fetch p.pc with
        | .error refusal => return some (.error refusal)
        | .ok () =>
          setPc (p.pc + instrBytes)
          lowerUpTo fetch limit rounds
    else return some (.ok ())

/-- Lowers a block by its count. -/
def lowerBlockUpTo (fetch : Word → Word) (entry : Word) (rounds : Nat) :
    Lowering (Option (Except Refusal Block)) := do
  begin entry
  let limit := max (← get).options.maxInstrs.toNat 1
  match ← lowerUpTo fetch limit rounds with
  | none => return none
  | some (.error refusal) => return some (.error refusal)
  | some (.ok ()) => return some (.ok (← finish entry))

/-- A block that goes on behind an instruction has been counted on by one. -/
theorem ensures_lowerAt_counted (addr : Word) (a : Word) (n k : Nat) :
    Ensures (fun s => s.Within NoSlot a n ∧ s.progress.count = k) (lowerAt fetch addr)
      fun s => s.progress.isOpen = true → s.progress.count = k + 1 := by
  refine ensures_instr (R := fun s => s.Within NoSlot addr (n + 1) ∧ s.progress.count = k + 1)
    (S := fun s => s.progress.isOpen = true → s.progress.count = k + 1)
    ?_ (ensures_refuseWord (fun _ _ => nofun) _) (fun o => ?_) (fun c => ?_) fun _ _ _ hs => hs
  · rintro s ⟨hs, rfl⟩
    exact ⟨hs.moved rfl (Nat.succ_le_succ hs.count) hs.slot, rfl⟩
  · refine Ensures.bind ?_ fun _ => .pure _
    exact .emit fun s e hs _ => fun _ => hs.2
  · refine ((ensures_lowerControl fetch c ⟨fetch addr⟩).pre fun s hs => hs.1).post ?_
    intro s hs hopen
    cases hs.2.symm.trans hopen

/-- Going by the count is the same as counting down. -/
theorem run_lowerUpTo (limit : Nat) {n : Nat} {rounds : Nat} (hrounds : n < rounds) (ht : t.AtRest)
    (hopen : t.progress.isOpen = true) (hcount : t.progress.count + n = limit) :
    (lowerUpTo fetch limit rounds).run t = (some <$> lowerRest fetch n).run t := by
  induction n generalizing t rounds with
  | zero =>
    obtain ⟨rounds, rfl⟩ : ∃ k, rounds = k + 1 := Nat.exists_eq_add_one_of_ne_zero (by omega)
    simp only [lowerUpTo, lowerRest, StateT.run_bind, run_isOpen, hopen, run_progress, ok_bind,
      if_true, show limit ≤ t.progress.count by omega, map_bind, map_pure]
  | succ n ih =>
    obtain ⟨rounds, rfl⟩ : ∃ k, rounds = k + 1 := Nat.exists_eq_add_one_of_ne_zero (by omega)
    simp only [lowerUpTo, lowerRest, StateT.run_bind, run_isOpen, hopen, run_progress, ok_bind,
      if_true, show ¬limit ≤ t.progress.count by omega, if_false, map_bind]
    cases hrun : (lowerAt fetch t.progress.pc).run t with
    | error fault => rfl
    | ok p =>
      obtain ⟨v, u⟩ := p
      rw [ok_bind, ok_bind]
      cases v with
      | error refusal => rfl
      | ok =>
        obtain ⟨hu, -, -⟩ := ht.run_lowerAt hrun
        obtain ⟨s, hset, hs, hcounted⟩ : ∃ s,
            (setPc (t.progress.pc + instrBytes)).run u = .ok ((), s) ∧ s.AtRest ∧
              (s.progress.isOpen = true → s.progress.count = t.progress.count + 1) :=
          ⟨_, run_setPc u _, hu.extend hu.slot hu.flags hu.idle rfl,
            ensures_lowerAt_counted _ _ _ _ t _ u ⟨ht.within, rfl⟩ hrun⟩
        simp only [map_bind, StateT.run_bind, hset, ok_bind, run_isOpen]
        cases hopen' : s.progress.isOpen with
        | true =>
          have hgrown := hcounted hopen'
          exact ih (by omega) hs hopen' (by omega)
        | false =>
          -- one more turn finds the block ended
          obtain ⟨rounds, rfl⟩ : ∃ k, rounds = k + 1 := Nat.exists_eq_add_one_of_ne_zero (by omega)
          simp only [lowerUpTo, StateT.run_bind, run_isOpen, hopen', ok_bind, Bool.false_eq_true,
            if_false, map_pure]

/-- As many turns as the limit allows, and one more, are enough. -/
theorem run_lowerBlockUpTo (ht : t.AtRest) (entry : Word) {rounds : Nat}
    (hrounds : limitOf t.options < rounds) :
    (lowerBlockUpTo fetch entry rounds).run t = (some <$> lowerBlock fetch entry).run t := by
  obtain ⟨s, hbegin, hs⟩ := ht.exists_run_begin entry
  have hstart : s.options = t.options ∧ s.progress = .start entry := by
    cases hbegin
    exact ⟨rfl, rfl⟩
  have hrest : (lowerUpTo fetch (limitOf t.options) rounds).run s =
      (some <$> lowerRest fetch (limitOf t.options)).run s :=
    run_lowerUpTo _ hrounds hs (by rw [hstart.2]; rfl) (by rw [hstart.2]; exact Nat.zero_add _)
  rw [limitOf] at hrest
  simp only [lowerBlockUpTo, lowerBlock, map_bind, StateT.run_bind, hbegin, ok_bind, StateT.run_get,
    pure_bind, hstart.1, hrest, StateT.run_map]
  cases (lowerRest fetch (max t.options.maxInstrs.toNat 1)).run s with
  | error fault => rfl
  | ok p =>
    obtain ⟨v, u⟩ := p
    cases v with
    | error refusal => rfl
    | ok =>
      have hfinish : (do return some (.ok (← finish entry)) :
          Lowering (Option (Except Refusal Block))) =
            some <$> (do return .ok (← finish entry)) := by
        simp only [map_bind, map_pure]
      exact congrArg (fun x => x.run u) hfinish

end Lowering

/-- The count of a block never overflows. Its lowering ends, with a block or a refusal, after at
    most one turn more than its limit, as the count says. The count exceeds the limit by one at
    most, and only where the last instruction below the limit is the first one that is no operation
    and has a delay slot; it does not exceed the largest limit. -/
theorem count_of_called (h : Called t) (fetch : Word → Word) (entry : Word) :
    ∃ res u, (lowerBlock fetch entry).run t = .ok (res, u) ∧
      (∀ rounds, max t.options.maxInstrs.toNat 1 < rounds →
        (lowerBlockUpTo fetch entry rounds).run t = .ok (some res, u)) ∧
      (∀ b, res = .ok b → b.count = u.progress.count) ∧
      u.progress.count < 0x100000000 ∧ u.progress.count ≤ max t.options.maxInstrs.toNat 1 + 1 ∧
      (t.options.maxInstrs = 0xffffffff →
        u.progress.count ≤ max t.options.maxInstrs.toNat 1) ∧
      ∀ k, max t.options.maxInstrs.toNat 1 = k + 1 → (k + 1 < u.progress.count ↔
        (∀ i < k, isOperation fetch (addrAt entry i) = true) ∧
          ∃ c, Instr.decode ⟨fetch (addrAt entry k)⟩ = some (.control c) ∧
            c.hasDelaySlot = true) := by
  have ht := h.atRest
  obtain ⟨res, u, hrun, -⟩ := ht.exists_run_lowerBlock fetch entry
  have hcount := count_of_run ht.fits hrun
  have hlt : u.progress.count < 0x100000000 := by
    rw [hcount]
    refine extent_lt fetch ?_ entry
    have := t.options.maxInstrs.isLt
    unfold limitOf
    omega
  refine ⟨res, u, hrun, fun rounds hrounds => ?_, ?_, hlt, ?_, fun hmax => ?_, fun k hk => ?_⟩
  · rw [run_lowerBlockUpTo ht entry hrounds, StateT.run_map, hrun]
    rfl
  · rintro b rfl
    obtain ⟨r, hr, -, rfl⟩ := exists_restLowered ht.fits hrun
    exact hr.count_eq.trans hcount.symm
  · rw [hcount]
    exact extent_le_succ fetch _ entry
  · rw [hmax]
    exact Nat.le_of_lt_succ hlt
  · rw [hcount, limitOf, hk]
    exact lt_extent_iff

/-- The branch is counted with its slot, past the limit; no limit is larger than the second one. -/
theorem count_of_called_branchFirst :
    (∃ b u, (lowerBlockUpTo branchFirst 0x1000 2).run (.fresh ⟨1, 0⟩) = .ok (some (.ok b), u) ∧
      b.count = 2) ∧
      ∃ res u, (lowerBlock branchFirst 0x1000).run (.fresh ⟨0xffffffff, 0⟩) = .ok (res, u) ∧
        u.progress.count ≤ 0xffffffff := by
  constructor
  · obtain ⟨res, u, hrun, hrounds, hblock, -, hle, -, hpast⟩ :=
      count_of_called (.fresh ⟨1, 0⟩) branchFirst 0x1000
    have hlt : 1 < u.progress.count := (hpast 0 rfl).mpr
      ⟨nofun, .branchPair .eq false, by decide, rfl⟩
    have hlowered : ((lowerBlock branchFirst 0x1000).run (.fresh ⟨1, 0⟩)).map
        (fun p => p.1.toOption.isSome) = .ok true := by decide +kernel
    rw [hrun] at hlowered
    cases res with
    | error refusal => cases hlowered
    | ok b => exact ⟨b, u, hrounds 2 (by decide), (hblock b rfl).trans (Nat.le_antisymm hle hlt)⟩
  · obtain ⟨res, u, hrun, -, -, -, -, hmax, -⟩ :=
      count_of_called (.fresh ⟨0xffffffff, 0⟩) branchFirst 0x1000
    exact ⟨res, u, hrun, hmax rfl⟩

end MipsOnArm
