import MipsOnArm.Proofs.Lowering.Outcome
import MipsOnArm.Proofs.Preservation

/-! The exits of a block. The list that is kept while the code is written names the exits of the
    finished code one by one, with their places, and no slot twice. Which exits there are depends on
    the instruction that ends the block, and on whether its delay slot holds a system call. -/

namespace MipsOnArm
open Guest Lowering

/-! ### The exits that stand in code -/

/-- The fixed target of an exit, with its slot. -/
def Host.Instr.fixed? : Host.Instr → Option (Word × ExitSlot)
  | exit target slot => some (target, slot)
  | _ => none

/-- The exits with a fixed target in code that starts at index `base`, in order. -/
def exitsOf (base : Nat) : List Host.Instr → List Exit
  | [] => []
  | i :: is =>
    match i.fixed? with
    | some (target, slot) => ⟨target, slot, base⟩ :: exitsOf (base + 1) is
    | none => exitsOf (base + 1) is

/-- Where an exit leads, and its slot. -/
def Exit.way (e : Exit) : Word × ExitSlot := (e.target, e.slot)

variable {base : Nat} {is js : List Host.Instr}

theorem exitsOf_append (base : Nat) (is js : List Host.Instr) :
    exitsOf base (is ++ js) = exitsOf base is ++ exitsOf (base + is.length) js := by
  induction is generalizing base with
  | nil => rfl
  | cons i is ih =>
    rw [List.cons_append, exitsOf, exitsOf, ih, List.length_cons, Nat.add_assoc base 1,
      Nat.add_comm 1]
    cases i.fixed? with
    | none => rfl
    | some p => rfl

theorem exitsOf_eq_nil (h : ∀ i ∈ is, i.fixed? = none) : exitsOf base is = [] := by
  induction is generalizing base with
  | nil => rfl
  | cons i is ih =>
    rw [exitsOf, h i List.mem_cons_self]
    exact ih fun j hj => h j (List.mem_cons_of_mem i hj)

theorem fixed?_eq_some {i : Host.Instr} {target : Word} {slot : ExitSlot} :
    i.fixed? = some (target, slot) ↔ i = .exit target slot := by
  cases i <;> simp [Host.Instr.fixed?]

/-- An exit is listed when it stands at its index. -/
theorem mem_exitsOf {e : Exit} : e ∈ exitsOf base is ↔
    ∃ k, e.index = base + k ∧ is[k]? = some (.exit e.target e.slot) := by
  induction is generalizing base with
  | nil => simp [exitsOf]
  | cons i is ih =>
    rw [exitsOf]
    constructor
    · intro he
      have htail : e ∈ exitsOf (base + 1) is →
          ∃ k, e.index = base + k ∧ (i :: is)[k]? = some (.exit e.target e.slot) := by
        intro he
        obtain ⟨k, hk, hget⟩ := ih.mp he
        exact ⟨k + 1, by omega, hget⟩
      split at he
      · next target slot hi =>
        rcases List.mem_cons.mp he with rfl | he
        · exact ⟨0, rfl, congrArg some (fixed?_eq_some.mp hi)⟩
        · exact htail he
      · exact htail he
    · rintro ⟨k, hk, hget⟩
      cases k with
      | zero =>
        cases hget
        cases e
        cases hk
        exact List.mem_cons_self
      | succ k =>
        have he : e ∈ exitsOf (base + 1) is := ih.mpr ⟨k, by omega, hget⟩
        split
        · exact List.mem_cons_of_mem _ he
        · exact he

/-- The exits are listed in the order in which they stand. -/
theorem sorted_exitsOf (base : Nat) (is : List Host.Instr) :
    (exitsOf base is).Pairwise (·.index < ·.index) := by
  induction is generalizing base with
  | nil => exact .nil
  | cons i is ih =>
    rw [exitsOf]
    split
    · refine (ih (base + 1)).cons ?_
      intro e he
      obtain ⟨k, hk, -⟩ := mem_exitsOf.mp he
      show base < e.index
      omega
    · exact ih (base + 1)

/-! ### The list kept while the code is written -/

theorem Host.Confined.fixed?_eq_none {budget : List Host.Reg} {i : Host.Instr}
    (h : Host.Confined budget i) : i.fixed? = none := by
  cases h <;> rfl

theorem Host.Listed.exitsOf_eq_nil {budget : List Host.Reg} (h : Host.Listed budget is) :
    exitsOf base is = [] := by
  refine MipsOnArm.exitsOf_eq_nil ?_
  intro i hi
  rcases h i hi with hi | hi
  · exact hi.fixed?_eq_none
  · cases hi <;> rfl

theorem exitsOf_confined {budget : List Host.Reg} (h : ∀ i ∈ is, Host.Confined budget i) :
    exitsOf base is = [] :=
  exitsOf_eq_nil fun i hi => (h i hi).fixed?_eq_none

variable {fetch : Word → Word} {addr pc : Word} {m : RegisterMap} {n : Nat}

/-- A delay slot has no exit with a fixed target. -/
theorem SlotLowered.exitsOf_eq_nil {r : SlotOutput} (h : SlotLowered fetch addr m r)
    (hm : m.Idle) : exitsOf base r.code = [] := by
  cases h with
  | operation _ hrun hflush =>
    have he := realises_of_run hm hrun
    rw [exitsOf_append, exitsOf_confined he.confined,
      exitsOf_confined (he.idle.flushes_of_run hflush).confined]
    rfl
  | syscall _ hflush =>
    rw [exitsOf_append, exitsOf_confined (hm.flushes_of_run hflush).confined]
    rfl
  | branch _ _ hflush => exact exitsOf_confined (hm.flushes_of_run hflush).confined
  | unsupported => rfl

/-- The exits around a slot are those that were put down. -/
theorem Delayed.exitsOf_around (d : Delayed) (pc : Word) {r : SlotOutput}
    (hr : ∀ base, exitsOf base r.code = []) :
    exitsOf base (d.around pc base r).1 = (d.around pc base r).2 := by
  have hreturn : ∀ base link, exitsOf base (returnCode pc link) = [] := fun base link =>
    (listed_returnCode [] pc link).exitsOf_eq_nil
  cases d with
  | branch b target =>
    cases hl : b.likely <;> cases ho : r.isOpen <;>
      simp only [around, aroundBranch, hl, ho, exitsOf, Host.Instr.fixed?, exitsOf_append, hr,
        List.nil_append, Nat.add_assoc]
  | jump link target =>
    cases ho : r.isOpen <;>
      simp only [around, ho, Bool.false_eq_true, if_true, if_false, exitsOf, Host.Instr.fixed?,
        exitsOf_append, hr, hreturn, List.nil_append]
  | jumpReg link rs =>
    cases ho : r.isOpen <;>
      simp only [around, ho, Bool.false_eq_true, if_true, if_false, exitsOf, Host.Instr.fixed?,
        exitsOf_append, hr, hreturn, List.nil_append]

/-- The list that was kept names the exits of the code. -/
theorem RestLowered.exits_eq {r : RestOutput} (h : RestLowered fetch n pc m base r) (hm : m.Idle) :
    r.exits = exitsOf base r.code := by
  induction h with
  | limit hflush =>
    rw [exitsOf_append, exitsOf_confined (hm.flushes_of_run hflush).confined]
    rfl
  | operation _ hrun _ ih =>
    have he := realises_of_run hm hrun
    rw [exitsOf_append, exitsOf_confined he.confined, List.nil_append]
    exact ih he.idle
  | syscall _ hflush =>
    rw [exitsOf_append, exitsOf_append, exitsOf_confined (hm.flushes_of_run hflush).confined,
      (listed_storePcCode [] _).exitsOf_eq_nil]
    rfl
  | @delayed n pc m base c d e r _ _ hrun hslot =>
    have he := Delayed.opens_of_run hm hrun
    rw [exitsOf_append, he.listed.exitsOf_eq_nil, List.nil_append,
      d.exitsOf_around pc fun base => hslot.exitsOf_eq_nil he.idle]
  | unsupported => rfl

/-! ### The exits told by the guest's words -/

namespace Guest

/-- Whether the word at `addr` is a system call. -/
def holdsCall (fetch : Word → Word) (addr : Word) : Bool :=
  match Instr.decode ⟨fetch addr⟩ with
  | some (.control .syscall) => true
  | _ => false

/-- The exits of a conditional branch: a system call in its slot ends the block there, unless the
    branch is likely and skips it. -/
def branchWays (target past : Word) (likely slotCalls : Bool) : List (Word × ExitSlot) :=
  if slotCalls then (if likely then [(past, 1)] else []) else [(target, 0), (past, 1)]

/-- The exits of the control instruction at `pc`, whose slot holds a system call or not. -/
def Control.ways (w : InstrWord) (pc : Word) (slotCalls : Bool) :
    Control → List (Word × ExitSlot)
  | syscall => []
  | jumpReg _ => []
  | jump _ => if slotCalls then [] else [(w.jumpTarget pc, 0)]
  | branchPair _ likely => branchWays (w.branchTarget pc) (pc + delaySlotSkip) likely slotCalls
  | branchZero _ likely => branchWays (w.branchTarget pc) (pc + delaySlotSkip) likely slotCalls
  | branchFpu _ likely => branchWays (w.branchTarget pc) (pc + delaySlotSkip) likely slotCalls
  | branchVfpu _ likely => branchWays (w.branchTarget pc) (pc + delaySlotSkip) likely slotCalls

/-- The exits of the instruction at `pc` that ends a block. -/
def waysAt (fetch : Word → Word) (pc : Word) : List (Word × ExitSlot) :=
  match Instr.decode ⟨fetch pc⟩ with
  | some (.control c) => c.ways ⟨fetch pc⟩ pc (holdsCall fetch (pc + instrBytes))
  | _ => []

/-- The exits of the block from `pc` on that begins at most `limit` instructions. -/
def ways (fetch : Word → Word) : (limit : Nat) → (pc : Word) → List (Word × ExitSlot)
  | 0, pc => [(pc, 0)]
  | limit + 1, pc =>
    if isOperation fetch pc then ways fetch limit (pc + instrBytes) else waysAt fetch pc

theorem ways_add {k : Nat} (hops : ∀ i < k, isOperation fetch (addrAt pc i) = true) (n : Nat) :
    ways fetch (k + n) pc = ways fetch n (addrAt pc k) := by
  induction k generalizing pc with
  | zero => rw [Nat.zero_add, addrAt_zero]
  | succ k ih =>
    have hop := hops 0 (Nat.zero_lt_succ k)
    rw [addrAt_zero] at hop
    rw [Nat.succ_add, ways, if_pos hop, ← addrAt_next]
    exact ih fun i hi => addrAt_next pc i ▸ hops (i + 1) (Nat.succ_lt_succ hi)

/-- The exits are those at the limit, or those of the first instruction that is no operation. -/
theorem ways_eq (fetch : Word → Word) (limit : Nat) (pc : Word) :
    ways fetch limit pc = match firstStop? fetch limit pc with
      | none => [(addrAt pc (extent fetch limit pc), 0)]
      | some k => waysAt fetch (addrAt pc k) := by
  cases hstop : firstStop? fetch limit pc with
  | none =>
    have hops := isOperation_of_firstStop?_none hstop
    have hextent := (extent_and_verdict_add hops 0).1
    have hways := ways_add hops 0
    rw [Nat.add_zero] at hextent hways
    rw [hways, hextent]
    rfl
  | some k =>
    obtain ⟨hops, hno, n, rfl⟩ := of_firstStop?_eq_some hstop
    rw [ways_add hops, ways, hno]
    rfl

theorem nodup_ways (fetch : Word → Word) (limit : Nat) (pc : Word) :
    ((ways fetch limit pc).map Prod.snd).Nodup := by
  have hbranch : ∀ target past likely slotCalls,
      ((branchWays target past likely slotCalls).map Prod.snd).Nodup := by
    intro target past likely slotCalls
    cases slotCalls <;> cases likely <;> simp [branchWays]
  induction limit generalizing pc with
  | zero => simp [ways]
  | succ limit ih =>
    rw [ways, waysAt]
    split
    · exact ih _
    · split
      · next c _ =>
        cases c with
        | syscall | jumpReg => exact List.nodup_nil
        | jump => rw [Control.ways]; split <;> simp
        | _ => exact hbranch _ _ _ _
      · exact List.nodup_nil

end Guest

/-- A slot that is not refused ends the block just when it holds a system call. -/
theorem SlotLowered.isOpen_eq {r : SlotOutput} (h : SlotLowered fetch addr m r)
    (hok : r.verdict = .ok ()) : r.isOpen = !holdsCall fetch addr := by
  cases h with
  | operation hdecode => rw [holdsCall, hdecode]; rfl
  | syscall hdecode => rw [holdsCall, hdecode]; rfl
  | branch => cases hok
  | unsupported => cases hok

theorem Delayed.ways_around {c : Control} {w : InstrWord} {d : Delayed}
    (hd : c.delayed? w pc = some d) (r : SlotOutput) :
    (d.around pc base r).2.map Exit.way = c.ways w pc (!r.isOpen) := by
  cases c with
  | syscall => cases hd
  | jumpReg link => cases hd; rfl
  | jump link =>
    cases hd
    rw [around]
    cases ho : r.isOpen <;> simp [Control.ways, Exit.way]
  | branchPair test likely | branchZero test likely | branchFpu test likely
  | branchVfpu test likely =>
    cases hd
    rw [around, aroundBranch]
    cases ho : r.isOpen <;> cases likely <;> simp [Control.ways, branchWays, Exit.way]

theorem RestLowered.ways_eq {r : RestOutput} (h : RestLowered fetch n pc m base r)
    (hok : r.verdict = .ok ()) : r.exits.map Exit.way = ways fetch n pc := by
  induction h with
  | limit => rfl
  | operation hdecode _ _ ih => rw [ways, isOperation, hdecode, if_pos rfl]; exact ih hok
  | syscall hdecode =>
    rw [ways, isOperation, waysAt, hdecode]
    rfl
  | @delayed n pc m base c d e r hdecode hd _ hslot =>
    rw [ways, isOperation, waysAt, hdecode, Delayed.ways_around hd, hslot.isOpen_eq hok,
      Bool.not_not]
    rfl
  | unsupported => cases hok

theorem RestLowered.nodup_slots {r : RestOutput} (h : RestLowered fetch n pc m base r)
    (hok : r.verdict = .ok ()) : (r.exits.map Exit.slot).Nodup := by
  have hnodup := nodup_ways fetch n pc
  rw [← h.ways_eq hok, List.map_map] at hnodup
  exact hnodup

/-! ### Whole blocks -/

/-- The list of exits is exact. It names the exits that stand in the code, in order and each at its
    index, and no slot twice; their targets and slots are told by the instruction that ends the
    block, or by the limit. -/
theorem exits_of_lowerBlock {t u : Compiler} (ht : Driven t) {entry : Word} {b : Block}
    (h : (lowerBlock fetch entry).run t = .ok (.ok b, u)) :
    b.exits = exitsOf 0 b.code.toList ∧
      (∀ e, e ∈ b.exits ↔ b.code[e.index]? = some (.exit e.target e.slot)) ∧
      b.exits.Pairwise (·.index < ·.index) ∧ (b.exits.map Exit.slot).Nodup ∧
      b.exits.map Exit.way =
        match firstStop? fetch (max t.options.maxInstrs.toNat 1) entry with
        | none => [(addrAt entry b.count, 0)]
        | some k => waysAt fetch (addrAt entry k) := by
  obtain ⟨r, hr, hok, rfl⟩ := exists_restLowered ht.atRest.fits h
  have hexits := hr.exits_eq (RegisterMap.idle_fresh _)
  refine ⟨hexits, ?_, hexits ▸ sorted_exitsOf 0 r.code, hr.nodup_slots hok, ?_⟩
  · intro e
    show e ∈ r.exits ↔ r.code.toArray[e.index]? = _
    rw [hexits, mem_exitsOf, List.getElem?_toArray]
    simp only [Nat.zero_add, exists_eq_left']
  · rw [← limitOf, hr.count_eq, ← Guest.ways_eq]
    exact hr.ways_eq hok

/-- A branch with an operation in its slot has both exits. -/
theorem exits_of_lowerBlock_branchFirst :
    ∃ b u, (lowerBlock branchFirst 0x1000).run (.fresh ⟨1, 0⟩) = .ok (.ok b, u) ∧
      b.exits.map Exit.way = [(0x100c, 0), (0x1008, 1)] ∧
      ∀ e, e ∈ b.exits ↔ b.code[e.index]? = some (.exit e.target e.slot) := by
  obtain ⟨b, hfresh⟩ : ∃ b, freshly branchFirst ⟨1, 0⟩ 0x1000 = .ok (.ok b) :=
    exists_freshly_ok_iff.mpr (by decide)
  obtain ⟨u, h⟩ := exists_run_of_freshly hfresh
  obtain ⟨-, hmem, -, -, hways⟩ := exits_of_lowerBlock (.fresh ⟨1, 0⟩) h
  have hstop : firstStop? branchFirst (max (1 : BitVec 32).toNat 1) 0x1000 = some 0 := by decide
  rw [show (Compiler.fresh ⟨1, 0⟩).options.maxInstrs = 1 from rfl, hstop] at hways
  have hat : waysAt branchFirst (addrAt 0x1000 0) = [(0x100c, 0), (0x1008, 1)] := by decide
  exact ⟨b, u, h, hways.trans hat, hmem⟩

end MipsOnArm
