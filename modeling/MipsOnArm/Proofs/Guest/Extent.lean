import MipsOnArm.Guest.Instr
import MipsOnArm.Lowering.Report

/-! How far a block reaches, and whether it is refused, read off the guest's words alone. Addresses
    wrap around, so the words repeat after 2^30 instructions: a long block without a control
    instruction never meets one. -/

namespace MipsOnArm.Guest

/-- The number of instructions of a block from `pc` on that begins at most `limit`, with a delay
    slot on top. -/
def extent (fetch : Word → Word) : (limit : Nat) → (pc : Word) → Nat
  | 0, _ => 0
  | limit + 1, pc =>
    match Instr.decode ⟨fetch pc⟩ with
    | some (.operation _) => extent fetch limit (pc + instrBytes) + 1
    | some (.control c) => if c.hasDelaySlot then 2 else 1
    | none => 1

/-- Whether the word at `addr` may stand in a delay slot. -/
def slotVerdict (fetch : Word → Word) (addr : Word) : Verdict :=
  match Instr.decode ⟨fetch addr⟩ with
  | some (.operation _) => .ok ()
  | some (.control c) => if c.hasDelaySlot then .error (.branchInDelaySlot addr) else .ok ()
  | none => .error (.unsupported addr (fetch addr))

/-- Whether a block from `pc` on that begins at most `limit` instructions can be lowered. -/
def verdict (fetch : Word → Word) : (limit : Nat) → (pc : Word) → Verdict
  | 0, _ => .ok ()
  | limit + 1, pc =>
    match Instr.decode ⟨fetch pc⟩ with
    | some (.operation _) => verdict fetch limit (pc + instrBytes)
    | some (.control c) => if c.hasDelaySlot then slotVerdict fetch (pc + instrBytes) else .ok ()
    | none => .error (.unsupported pc (fetch pc))

/-- The address of the instruction number `i` from `pc` on. -/
def addrAt (pc : Word) (i : Nat) : Word := pc + BitVec.ofNat 32 (4 * i)

theorem addrAt_zero (pc : Word) : addrAt pc 0 = pc := by
  simp [addrAt]

theorem addrAt_next (pc : Word) (i : Nat) : addrAt (pc + instrBytes) i = addrAt pc (i + 1) := by
  unfold addrAt instrBytes
  rw [BitVec.add_assoc, show (4 : Word) = BitVec.ofNat 32 4 from rfl, ← BitVec.ofNat_add,
    show 4 + 4 * i = 4 * (i + 1) by omega]

/-- The instruction after number `i` is number `i + 1`. -/
theorem addrAt_succ (pc : Word) (i : Nat) : addrAt pc i + instrBytes = addrAt pc (i + 1) := by
  rw [← addrAt_next, addrAt, addrAt, BitVec.add_assoc, BitVec.add_comm _ instrBytes,
    ← BitVec.add_assoc]

theorem addrAt_one (pc : Word) : addrAt pc 1 = pc + instrBytes := rfl

/-- After 2^30 instructions the addresses come round again. -/
theorem addrAt_add (pc : Word) (i : Nat) : addrAt pc (i + 0x40000000) = addrAt pc i := by
  have hround : BitVec.ofNat 32 (4 * (i + 0x40000000)) = BitVec.ofNat 32 (4 * i) := by
    apply BitVec.eq_of_toNat_eq
    simp only [BitVec.toNat_ofNat]
    omega
  rw [addrAt, hround, addrAt]

variable (fetch : Word → Word)

theorem extent_le_succ (limit : Nat) (pc : Word) : extent fetch limit pc ≤ limit + 1 := by
  induction limit generalizing pc with
  | zero => exact Nat.zero_le 1
  | succ limit ih =>
    unfold extent
    split
    · have := ih (pc + instrBytes)
      omega
    · split <;> omega
    · omega

theorem one_le_extent (limit : Nat) (pc : Word) : 1 ≤ extent fetch (limit + 1) pc := by
  unfold extent
  split
  · omega
  · split <;> omega
  · omega

/-- A block passes its limit only when the last instruction it may begin is the first control
    instruction. -/
theorem of_extent_eq_succ {limit : Nat} {pc : Word} (h : extent fetch limit pc = limit + 1) :
    ∃ k c, limit = k + 1 ∧ Instr.decode ⟨fetch (addrAt pc k)⟩ = some (.control c) ∧
      ∀ i < k, ∃ o, Instr.decode ⟨fetch (addrAt pc i)⟩ = some (.operation o) := by
  induction limit generalizing pc with
  | zero => cases h
  | succ limit ih =>
    unfold extent at h
    split at h
    · next o hdecode =>
      obtain ⟨k, c, rfl, hc, hops⟩ := ih (Nat.succ.inj h)
      refine ⟨k + 1, c, rfl, addrAt_next pc k ▸ hc, fun i hi => ?_⟩
      cases i with
      | zero => exact ⟨o, by rw [addrAt_zero, hdecode]⟩
      | succ i => exact addrAt_next pc i ▸ hops i (by omega)
    · next c hdecode =>
      have hlimit : limit = 0 := by
        split at h <;> omega
      subst hlimit
      exact ⟨0, c, rfl, by rw [addrAt_zero, hdecode], fun i hi => absurd hi (by omega)⟩
    · next => omega

/-- The count of a block fits into a word. -/
theorem extent_lt {limit : Nat} (hlimit : limit < 0x100000000) (pc : Word) :
    extent fetch limit pc < 0x100000000 := by
  have hle := extent_le_succ fetch limit pc
  by_cases heq : extent fetch limit pc = limit + 1
  · obtain ⟨k, c, rfl, hc, hops⟩ := of_extent_eq_succ fetch heq
    by_cases hk : k < 0x40000000
    · omega
    · -- otherwise the control instruction was met one round earlier
      obtain ⟨i, rfl⟩ : ∃ i, k = i + 0x40000000 := ⟨k - 0x40000000, by omega⟩
      obtain ⟨o, ho⟩ := hops i (by omega)
      rw [addrAt_add, ho] at hc
      cases hc
  · omega

/-! ### Instructions begun -/

/-- Whether a block from `pc` on that begins at most `limit` instructions ends with one that has a
    delay slot. -/
def endsInSlot (fetch : Word → Word) : (limit : Nat) → (pc : Word) → Bool
  | 0, _ => false
  | limit + 1, pc =>
    match Instr.decode ⟨fetch pc⟩ with
    | some (.operation _) => endsInSlot fetch limit (pc + instrBytes)
    | some (.control c) => c.hasDelaySlot
    | none => false

/-- The number of instructions that a block from `pc` on begins, without a delay slot. -/
def begun (fetch : Word → Word) : (limit : Nat) → (pc : Word) → Nat
  | 0, _ => 0
  | limit + 1, pc =>
    match Instr.decode ⟨fetch pc⟩ with
    | some (.operation _) => begun fetch limit (pc + instrBytes) + 1
    | _ => 1

theorem begun_add_slot (limit : Nat) (pc : Word) :
    begun fetch limit pc + (if endsInSlot fetch limit pc then 1 else 0) =
      extent fetch limit pc := by
  induction limit generalizing pc with
  | zero => rfl
  | succ limit ih =>
    rw [begun, endsInSlot, extent]
    cases hdecode : Instr.decode ⟨fetch pc⟩ with
    | none => rfl
    | some i =>
      cases i with
      | operation o =>
        have := ih (pc + instrBytes)
        dsimp only
        omega
      | control c => cases c <;> rfl

theorem one_le_begun (limit : Nat) (pc : Word) : 1 ≤ begun fetch (limit + 1) pc := by
  rw [begun]
  split <;> omega

variable {fetch}

theorem begun_of_control {pc : Word} {c : Control}
    (hdecode : Instr.decode ⟨fetch pc⟩ = some (.control c)) (limit : Nat) :
    begun fetch (limit + 1) pc = 1 := by
  rw [begun, hdecode]

theorem extent_of_control {pc : Word} {c : Control}
    (hdecode : Instr.decode ⟨fetch pc⟩ = some (.control c)) (limit : Nat) :
    extent fetch (limit + 1) pc = if c.hasDelaySlot then 2 else 1 := by
  rw [extent, hdecode]

end MipsOnArm.Guest
