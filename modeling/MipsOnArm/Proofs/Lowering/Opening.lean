import MipsOnArm.Proofs.Guest.Execution
import MipsOnArm.Proofs.Lowering.Actions
import MipsOnArm.Proofs.Lowering.Comparison
import MipsOnArm.Proofs.Lowering.Operation

/-! What stands before the delay slot of a branch or jump: the comparison with its flags, the
    destination of a register jump, and the stores that a system call in the slot relies on.
    Whatever is stored there early, the machine still stands for the guest state, up to the program
    counter. -/

namespace MipsOnArm
open Guest

variable {σ : Type}

/-- A branch or jump, with what it takes from its word. -/
inductive Delayed
  | branch (b : Branch) (target : Word)
  | jump (link : Option Reg) (target : Word)
  | jumpReg (link : Option Reg) (rs : Reg)

/-- The branch or jump that a control instruction at `pc` is. -/
def Guest.Control.delayed? (w : InstrWord) (pc : Word) : Control → Option Delayed
  | jump link => some (.jump (if link then some Reg.ra else none) (w.jumpTarget pc))
  | jumpReg link => some (.jumpReg (if link then some w.rd else none) w.rs)
  | c => (c.branch? w).map fun b => .branch b (w.branchTarget pc)

namespace Delayed

/-- What stands before the delay slot. -/
def opening (pc : Word) (slotEnds : Bool) : Delayed → Emit Unit
  | branch b target => do
    b.comparison.emit b.notTaken
    Emit.flushAll
    Emit.write (if slotEnds then branchPcCode b pc target else [])
  | jump link target =>
    if slotEnds then do
      Emit.flushAll
      Emit.write (storePcCode target ++ returnCode pc link)
    else return ()
  | jumpReg link rs => do
    let src ← Emit.map rs .read
    Emit.write [.mov Host.Reg.jumpDest src, .store Host.Reg.jumpDest Field.pc.offset]
    Emit.flushAll
    Emit.write (if slotEnds then returnCode pc link else [])

/-- The register that receives the return address, if any. -/
def link : Delayed → Option Reg
  | branch .. => none
  | jump link _ => link
  | jumpReg link _ => link

/-- The way on from the instruction at `pc`, decided on the state before its slot. -/
def departure (pc : Word) (taken : Bool) (s : Cpu) : Delayed → Departure
  | branch _ target => if taken then .linked target 0 else .linked (pc + delaySlotSkip) 1
  | jump _ target => .linked target 0
  | jumpReg _ rs => .indirect (s.gpr rs)

/-- Whether the slot is skipped. -/
def skips (taken : Bool) : Delayed → Bool
  | branch b _ => b.likely && !taken
  | _ => false

/-- In the state `s` the branch is taken or not, as its comparison tells. -/
def Asks (s : Cpu) (taken : Bool) : Delayed → Prop
  | branch b _ => b.notTaken ≠ .always ∧
      ∀ f, b.comparison.Decided s b.notTaken f → b.notTaken.holds f = !taken
  | _ => True

/-- What the slot must leave alone until the branch or jump is carried out. -/
def Prepared (s : Cpu) (taken : Bool) (y : Host.Machine σ) : Delayed → Prop
  | branch b _ => b.notTaken.holds y.flags = !taken
  | jump .. => True
  | jumpReg _ rs => y.reg Host.Reg.jumpDest = s.gpr rs

end Delayed

/-- The guest runs a delayed control instruction by its slot and its way on. -/
theorem Guest.runControl_of_delayed {c : Control} {w : InstrWord} {pc : Word} {d : Delayed}
    (hd : c.delayed? w pc = some d) (fetch : Word → Word) (handler : Handler σ) (s : Cpu)
    (env : σ) :
    runControl fetch handler pc w c s env =
      if d.skips (c.taken w s) then some ((d.departure pc (c.taken w s) s).execution s env [])
      else runSlot fetch handler pc d.link (d.departure pc (c.taken w s) s) s env := by
  cases c with
  | syscall => cases hd
  | jump link => cases hd; rfl
  | jumpReg link => cases hd; rfl
  | _ =>
    cases hd
    simp only [runControl, runBranch, Delayed.skips, Delayed.departure, Delayed.link]
    generalize Control.taken w s _ = taken
    cases taken <;> simp

theorem Guest.Control.asks_of_delayed {c : Control} {w : InstrWord} {pc : Word} {d : Delayed}
    (hd : c.delayed? w pc = some d) (s : Cpu) : d.Asks s (c.taken w s) := by
  cases d with
  | branch b target =>
    have hb : c.branch? w = some b := by
      cases c <;> simp_all [Control.delayed?]
    exact ⟨notTaken_ne_always hb, fun f hf => notTaken_holds hb hf⟩
  | _ => trivial

/-! ### Stores of early addresses -/

/-- What is written besides to store an address, or to keep the destination of a register jump. -/
inductive Host.Auxiliary : Host.Instr → Prop
  | movImm (imm : Word) : Auxiliary (.movImm Reg.scratch imm)
  | movIf (cond : Cond) (imm : Word) : Auxiliary (.movIf cond Reg.scratch imm)
  | keep (src : Reg) : Auxiliary (.mov Reg.jumpDest src)
  | storePc (src : Reg) : Auxiliary (.store src Field.pc.offset)

/-- All of the code moves guest registers, computes with them or stores addresses. -/
def Host.Listed (budget : List Host.Reg) (code : List Host.Instr) : Prop :=
  ∀ i ∈ code, Confined budget i ∨ Auxiliary i

theorem Host.Listed.append {budget : List Host.Reg} {is js : List Host.Instr}
    (h : Listed budget is) (h' : Listed budget js) : Listed budget (is ++ js) := fun i hi =>
  (List.mem_append.mp hi).elim (h i) (h' i)

/-- Every branch has its target. -/
def Host.Bound (code : List Host.Instr) : Prop :=
  ∀ i ∈ code, Code.waits i = false

theorem Host.bound_cons {i : Host.Instr} {is : List Host.Instr} :
    Bound (i :: is) ↔ Code.waits i = false ∧ Bound is := List.forall_mem_cons

theorem Host.bound_append {is js : List Host.Instr} : Bound (is ++ js) ↔ Bound is ∧ Bound js :=
  List.forall_mem_append

theorem Host.bound_nil : Bound [] := fun _ hi => absurd hi List.not_mem_nil

theorem Host.Listed.bound {budget : List Host.Reg} {code : List Host.Instr}
    (h : Listed budget code) : Bound code := by
  intro i hi
  rcases h i hi with h | h
  · cases h <;> rfl
  · cases h <;> rfl

theorem Host.bound_of_confined {budget : List Host.Reg} {code : List Host.Instr}
    (h : ∀ i ∈ code, Confined budget i) : Bound code :=
  Listed.bound fun i hi => .inl (h i hi)

theorem listed_storePcCode (budget : List Host.Reg) (target : Word) :
    Host.Listed budget (storePcCode target) := by
  intro i hi
  rcases List.mem_cons.mp hi with rfl | hi
  · exact .inr (.movImm target)
  · cases List.mem_singleton.mp hi; exact .inr (.storePc _)

theorem listed_returnCode (budget : List Host.Reg) (pc : Word) (link : Option Reg) :
    Host.Listed budget (returnCode pc link) := by
  cases link with
  | none => exact fun i hi => absurd hi List.not_mem_nil
  | some r =>
    intro i hi
    rw [returnCode] at hi
    split at hi
    · exact absurd hi List.not_mem_nil
    · next hr =>
      rcases List.mem_cons.mp hi with rfl | hi
      · exact .inr (.movImm _)
      · cases List.mem_singleton.mp hi; exact .inl (.store _ hr)

theorem listed_branchPcCode (budget : List Host.Reg) (b : Branch) (pc target : Word) :
    Host.Listed budget (branchPcCode b pc target) := by
  intro i hi
  rcases List.mem_cons.mp hi with rfl | hi
  · exact .inr (.movImm _)
  · rcases List.mem_cons.mp hi with rfl | hi
    · exact .inr (.movIf _ target)
    · cases List.mem_singleton.mp hi; exact .inr (.storePc _)

/-- The machine `y` stores the state `s`; otherwise only the scratch register may have changed. -/
structure Stores (x y : Host.Machine σ) (s : Cpu) : Prop where
  cpu : y.cpu = s
  flags : y.flags = x.flags
  reg : ∀ h, h ≠ Host.Reg.scratch → y.reg h = x.reg h

/-- A constant is stored by way of the scratch register. -/
theorem follows_storeConst (x : Host.Machine σ) (f : Field) (value : Word) :
    ∃ y, Host.Follows [.movImm Host.Reg.scratch value, .store Host.Reg.scratch f.offset] x y ∧
      Stores x y (x.cpu.set f value) := by
  refine ⟨_, .step (fun _ _ _ => rfl) (.single (Host.step_store _ _ f)), ?_, rfl, fun h hh => ?_⟩
  · simp only [Host.Machine.reg_setReg, if_true]
    rfl
  · exact Host.reg_setReg_of_ne x value hh

theorem follows_returnCode (x : Host.Machine σ) (pc : Word) (link : Option Reg) :
    ∃ y, Host.Follows (returnCode pc link) x y ∧ Stores x y (writeLink link pc x.cpu) := by
  cases link with
  | none => exact ⟨x, .done x, rfl, rfl, fun _ _ => rfl⟩
  | some r =>
    by_cases hr : r = Reg.zero
    · refine ⟨x, ?_, ?_, rfl, fun _ _ => rfl⟩
      · simp only [returnCode, hr, if_true]
        exact .done x
      · simp only [writeLink, hr, Cpu.setGpr_zero]
    · simp only [returnCode, hr, if_false]
      exact follows_storeConst x (.gpr r) (pc + delaySlotSkip)

/-- The flags choose the address that is stored. -/
theorem follows_branchPcCode (x : Host.Machine σ) {b : Branch} (hb : b.notTaken ≠ .always)
    {taken : Bool} (htaken : b.notTaken.holds x.flags = !taken) (pc target : Word) :
    ∃ y, Host.Follows (branchPcCode b pc target) x y ∧
      Stores x y (x.cpu.set .pc (if taken then target else pc + delaySlotSkip)) := by
  have hinvert : b.notTaken.invert.holds x.flags = taken := by
    rw [Host.Cond.holds_invert _ hb, htaken, Bool.not_not]
  cases taken with
  | true =>
    refine ⟨_, .step (fun _ _ _ => rfl) (.step (fun _ _ _ => ?_)
      (.single (Host.step_store ((x.setReg Host.Reg.scratch (pc + delaySlotSkip)).setReg
        Host.Reg.scratch target) _ .pc))), ?_, rfl, fun h hh => ?_⟩
    · show Except.ok (if b.notTaken.invert.holds x.flags then _ else _, _) = _
      rw [if_pos hinvert]
    · simp only [Host.Machine.reg_setReg, if_true]
      rfl
    · exact (Host.reg_setReg_of_ne _ _ hh).trans (Host.reg_setReg_of_ne _ _ hh)
  | false =>
    refine ⟨_, .step (fun _ _ _ => rfl) (.step (fun _ _ _ => ?_)
      (.single (Host.step_store (x.setReg Host.Reg.scratch (pc + delaySlotSkip)) _ .pc))), ?_, rfl,
      fun h hh => Host.reg_setReg_of_ne _ _ hh⟩
    · show Except.ok (if b.notTaken.invert.holds x.flags then _ else _, _) = _
      rw [hinvert]
      rfl
    · simp only [Host.Machine.reg_setReg, if_true]
      rfl

/-- The destination of a register jump is kept, and stored as the address to resume at. -/
theorem follows_jumpDest (x : Host.Machine σ) (src : Host.Reg) :
    ∃ y, Host.Follows [.mov Host.Reg.jumpDest src, .store Host.Reg.jumpDest Field.pc.offset] x y ∧
      y.cpu = x.cpu.set .pc (x.reg src) ∧ y.reg Host.Reg.jumpDest = x.reg src ∧
      ∀ h, h ≠ Host.Reg.jumpDest → y.reg h = x.reg h := by
  have hdest : (x.setReg Host.Reg.jumpDest (x.reg src)).reg Host.Reg.jumpDest = x.reg src := by
    rw [Host.Machine.reg_setReg, if_pos rfl]
  refine ⟨_, .step (fun _ _ _ => rfl) (.single (Host.step_store _ _ .pc)), ?_, hdest,
    fun h hh => Host.reg_setReg_of_ne x _ hh⟩
  exact congrArg (x.cpu.set .pc) hdest

/-- The program counter is always stored. -/
theorem Represents.set_pc {m : RegisterMap} {x y : Host.Machine σ} {s : Cpu} {v : Word}
    (hx : Represents m x s) (hcpu : y.cpu = x.cpu.set .pc v)
    (hregs : ∀ r h, m.host? r = some h → y.reg h = x.reg h) : Represents m y (s.set .pc v) where
  held r h hr := (hregs r h hr).trans (hx.held r h hr)
  stored r hr := by rw [hcpu]; exact hx.stored r hr
  rest f hf := by
    rw [hcpu]
    by_cases hpc : f = .pc
    · subst hpc; rfl
    · rw [Cpu.get_set_of_ne _ _ _ _ hpc, Cpu.get_set_of_ne _ _ _ _ hpc]
      exact hx.rest f hf

/-- The opening leaves an idle map and a machine that stands for the guest state, with a program
    counter of its own. If the slot ends the block, that is the address to resume at, and a return
    address is written. -/
structure Opens (d : Delayed) (pc : Word) (slotEnds : Bool) (m : RegisterMap) (e : Emitted Unit) :
    Prop where
  idle : e.map.Idle
  budget : e.map.budget = m.budget
  flushed : (slotEnds = true ∨ ∀ link target, d ≠ .jump link target) → e.map.Flushed
  listed : Host.Listed m.budget e.code
  carries : ∀ {σ : Type} (x : Host.Machine σ) (s : Cpu) (taken : Bool), d.Asks s taken →
    Represents m x s → ∃ y v, Host.Follows e.code x y ∧
      Represents e.map y ((if slotEnds then writeLink d.link pc s else s).set .pc v) ∧
      (slotEnds = true → v = (d.departure pc taken s).address) ∧ d.Prepared s taken y

namespace Delayed

variable {m : RegisterMap}

theorem exists_run_opening_branch (hm : m.Idle) (b : Branch) (target pc : Word) (slotEnds : Bool) :
    ∃ e, ((branch b target).opening pc slotEnds).run m = .ok e ∧
      Opens (.branch b target) pc slotEnds m e := by
  obtain ⟨e, hrun, he⟩ := b.comparison.exists_run_emit hm b.notTaken
  obtain ⟨e', hflush, he'⟩ := he.idle.exists_run_flushAll
  refine ⟨⟨(), e.code ++ (e'.code ++ if slotEnds then branchPcCode b pc target else []), e'.map⟩,
    ?_, he'.idle, he'.budget.trans he.budget, fun _ => he'.flushed, ?_,
    fun x s taken hasks hx => ?_⟩
  · simp only [opening, Emit.run_bind, hrun, hflush, Emit.run_write]
  · refine .append (fun i hi => .inl (he.confined i hi)) (.append (fun i hi => .inl ?_) ?_)
    · exact he.budget ▸ he'.confined i hi
    · split
      · exact listed_branchPcCode _ b pc target
      · exact fun i hi => absurd hi List.not_mem_nil
  · obtain ⟨y, hxy, hy, hdecided⟩ := he.carries x s hx
    obtain ⟨z, hyz, hz, honly⟩ := he'.carries y s hy
    have htaken : b.notTaken.holds z.flags = !taken := honly.flags ▸ hasks.2 _ hdecided
    cases slotEnds with
    | false =>
      refine ⟨z, s.pc, ?_, ?_, nofun, htaken⟩
      · simpa using hxy.append hyz
      · exact (represents_iff_of_flushed he'.flushed).mpr hz
    | true =>
      obtain ⟨u, hzu, hu⟩ := follows_branchPcCode z hasks.1 htaken pc target
      refine ⟨u, if taken then target else pc + delaySlotSkip, hxy.append (hyz.append hzu),
        (represents_iff_of_flushed he'.flushed).mpr ?_, fun _ => ?_, ?_⟩
      · rw [hu.cpu, hz]
        rfl
      · cases taken <;> rfl
      · rw [Prepared, hu.flags, htaken]

theorem exists_run_opening_jump (hm : m.Idle) (link : Option Reg) (target pc : Word)
    (slotEnds : Bool) : ∃ e, ((jump link target).opening pc slotEnds).run m = .ok e ∧
      Opens (.jump link target) pc slotEnds m e := by
  cases slotEnds with
  | false =>
    refine ⟨⟨(), [], m⟩, rfl, hm, rfl, fun h => ?_, fun i hi => absurd hi List.not_mem_nil,
      fun x s _ _ hx => ⟨x, s.pc, .done x, hx, nofun, trivial⟩⟩
    exact absurd rfl (h.resolve_left nofun link target)
  | true =>
    obtain ⟨e, hflush, he⟩ := hm.exists_run_flushAll
    refine ⟨⟨(), e.code ++ (storePcCode target ++ returnCode pc link), e.map⟩, ?_, he.idle,
      he.budget, fun _ => he.flushed, ?_, fun x s taken _ hx => ?_⟩
    · simp only [opening, if_true, Emit.run_bind, hflush, Emit.run_write]
    · exact .append (fun i hi => .inl (he.confined i hi))
        ((listed_storePcCode _ target).append (listed_returnCode _ pc link))
    · obtain ⟨y, hxy, hy, -⟩ := he.carries x s hx
      obtain ⟨z, hyz, hz⟩ := follows_storeConst y .pc target
      obtain ⟨u, hzu, hu⟩ := follows_returnCode z pc link
      refine ⟨u, target, hxy.append (hyz.append hzu),
        (represents_iff_of_flushed he.flushed).mpr ?_, fun _ => rfl, trivial⟩
      rw [hu.cpu, hz.cpu, hy, writeLink_set_pc]
      rfl

theorem exists_run_opening_jumpReg (hm : m.Idle) (link : Option Reg) (rs : Reg) (pc : Word)
    (slotEnds : Bool) : ∃ e, ((jumpReg link rs).opening pc slotEnds).run m = .ok e ∧
      Opens (.jumpReg link rs) pc slotEnds m e := by
  obtain ⟨e, hrun, he⟩ := hm.exists_run_map rs .read (hm.unpinned.room rs)
  have hidle : e.map.Idle := he.idle hm
  obtain ⟨e', hflush, he'⟩ := hidle.exists_run_flushAll
  refine ⟨⟨(), e.code ++ ([.mov Host.Reg.jumpDest e.value,
      .store Host.Reg.jumpDest Field.pc.offset] ++ (e'.code ++
        if slotEnds then returnCode pc link else [])), e'.map⟩, ?_, he'.idle,
    he'.budget.trans he.budget, fun _ => he'.flushed, ?_, fun x s taken _ hx => ?_⟩
  · simp only [opening, Emit.run_bind, hrun, hflush, Emit.run_write]
  · refine .append (fun i hi => .inl (he.confined i hi)) (.append (fun i hi => .inr ?_)
      (.append (fun i hi => .inl (he.budget ▸ he'.confined i hi)) ?_))
    · rcases List.mem_cons.mp hi with rfl | hi
      · exact .keep _
      · cases List.mem_singleton.mp hi; exact .storePc _
    · split
      · exact listed_returnCode _ pc link
      · exact fun i hi => absurd hi List.not_mem_nil
  · obtain ⟨y, hxy, hy, -⟩ := he.read hx
    have hsrc : y.reg e.value = s.gpr rs := hy.held rs _ he.host
    obtain ⟨u, hyu, hcpu, hdest, hother⟩ := follows_jumpDest y e.value
    -- the destination goes to a register that no guest register ever is in
    have hu : Represents e.map u (s.set .pc (s.gpr rs)) := by
      refine hy.set_pc (hsrc ▸ hcpu) fun r h hr => hother h ?_
      exact (he.wellFormed.ne_reserved (he.wellFormed.within r h hr)).2.1
    obtain ⟨z, huz, hz, honly⟩ := he'.carries u _ hu
    have hdest' : z.reg Host.Reg.jumpDest = s.gpr rs :=
      (honly.reg _).trans (hdest.trans hsrc)
    have hxz := hxy.append (hyu.append huz)
    cases slotEnds with
    | false =>
      refine ⟨z, s.gpr rs, ?_, (represents_iff_of_flushed he'.flushed).mpr hz, nofun, hdest'⟩
      simpa using hxz
    | true =>
      obtain ⟨u', hzu, hu'⟩ := follows_returnCode z pc link
      refine ⟨u', s.gpr rs, ?_, (represents_iff_of_flushed he'.flushed).mpr ?_, fun _ => rfl, ?_⟩
      · simpa only [if_true, List.append_assoc] using hxz.append hzu
      · rw [hu'.cpu, hz, writeLink_set_pc]
        rfl
      · exact (hu'.reg _ (by decide)).trans hdest'

theorem exists_run_opening (hm : m.Idle) (d : Delayed) (pc : Word) (slotEnds : Bool) :
    ∃ e, (d.opening pc slotEnds).run m = .ok e ∧ Opens d pc slotEnds m e := by
  cases d with
  | branch b target => exact exists_run_opening_branch hm b target pc slotEnds
  | jump link target => exact exists_run_opening_jump hm link target pc slotEnds
  | jumpReg link rs => exact exists_run_opening_jumpReg hm link rs pc slotEnds

/-- The opening that was written is one that opens. -/
theorem opens_of_run (hm : m.Idle) {d : Delayed} {pc : Word} {slotEnds : Bool} {e : Emitted Unit}
    (hrun : (d.opening pc slotEnds).run m = .ok e) : Opens d pc slotEnds m e := by
  obtain ⟨e', hrun', he'⟩ := exists_run_opening hm d pc slotEnds
  cases hrun.symm.trans hrun'
  exact he'

end Delayed

end MipsOnArm
