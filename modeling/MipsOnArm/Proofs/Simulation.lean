import MipsOnArm.Proofs.Lowering.WholeBlock

/-! Lowered code does what the guest does. From a machine that stands for a guest state, the code of
    the rest of a block hands control back with the execution of the guest's own run, whatever the
    other host registers, the flags and the residue of native calls are. -/

namespace MipsOnArm
open Guest Host

variable {σ : Type} {handler : Handler σ} {residue : Residue} {entry : Word}
  {code : Array Host.Instr} {index base : Nat} {x y : Machine σ} {s : Cpu} {m : RegisterMap}

/-! ### Ways out -/

/-- The program counter is set anew when a block is left. -/
theorem Departure.execution_set_pc (d : Departure) (s : Cpu) (v : Word) (env : σ)
    (calls : List Call) : d.execution (s.set .pc v) env calls = d.execution s env calls := rfl

theorem leaves_of_cpu_eq {i : Host.Instr} {d : Departure} {t : Cpu} {v : Word} {env : σ}
    (hi : code[index]? = some i) (hs : x.perform handler residue index i = .ok (x, .leave d))
    (hcpu : x.cpu = t.set .pc v) (henv : x.env = env) (hcalls : x.calls = []) :
    Leaves handler residue entry code index x (d.execution t env []) := by
  have hleave : Leaves handler residue entry code index x
      (d.execution x.cpu x.env x.calls) := leaves_of_leave hi hs
  have hexecution : d.execution x.cpu x.env x.calls = d.execution t env [] := by
    rw [hcpu, henv, hcalls, Departure.execution_set_pc]
  exact hexecution ▸ hleave

/-- Straight-line code is run through to a way out. -/
theorem leaves_of_follows_leave {is : List Host.Instr} {i : Host.Instr} {d : Departure} {t : Cpu}
    {v : Word} (hp : Placed code index is) (hi : code[index + is.length]? = some i)
    (hxy : Follows is x y)
    (hs : y.perform handler residue (index + is.length) i = .ok (y, .leave d))
    (hcpu : y.cpu = t.set .pc v) (hcalls : x.calls = []) :
    Leaves handler residue entry code index x (d.execution t x.env []) :=
  leaves_of_follows hp hxy
    (leaves_of_cpu_eq hi hs hcpu hxy.quiet.1 (hxy.quiet.2.trans hcalls))

/-- A native call with the address to resume at stored before it. -/
theorem leaves_of_follows_call {is : List Host.Instr} {w resume : Word}
    (hp : Placed code index (is ++ [.callSyscall w, .exitSyscall])) (hxy : Follows is x y)
    (hcpu : y.cpu = s.set .pc resume) (hcalls : x.calls = []) :
    Leaves handler residue entry code index x (callNative handler ⟨w⟩ resume s x.env) := by
  obtain ⟨his, hlast⟩ := placed_append.mp hp
  obtain ⟨hcall, hexit⟩ := placed_cons.mp hlast
  obtain ⟨henv, hcalls'⟩ := hxy.quiet
  refine leaves_of_follows his hxy (leaves_of_step hcall rfl ?_)
  have hleave : Leaves handler residue entry code (index + is.length + 1)
      (y.call handler residue w) _ := leaves_of_leave (placed_cons.mp hexit).1 rfl
  have hnative : callNative handler ⟨w⟩ resume s x.env =
      (Departure.syscall (y.call handler residue w).cpu.pc).execution
        (y.call handler residue w).cpu (y.call handler residue w).env
        (y.call handler residue w).calls := by
    simp only [Machine.call, hcpu, henv, hcalls', hcalls]
    rfl
  rw [hnative]
  exact hleave

/-! ### Delay slots -/

/-- The register of the saved flags and of the jump destination holds no guest register. -/
theorem RegisterMap.WellFormed.reg_eq (hm : m.WellFormed) {is : List Host.Instr}
    (hxy : Follows is x y) (his : ∀ i ∈ is, Confined m.budget i) :
    y.reg Reg.savedFlags = x.reg Reg.savedFlags :=
  hxy.reg_eq his (fun h => (hm.ne_reserved h).2.1 rfl) (by decide)

theorem exists_follows_flush (hm : m.Idle) {e : Emitted Unit}
    (hflush : Emit.flushAll.run m = .ok e) (hx : Represents m x s) :
    ∃ y, Follows e.code x y ∧ y.cpu = s ∧ y.flags = x.flags ∧
      y.reg Reg.savedFlags = x.reg Reg.savedFlags := by
  obtain ⟨y, hxy, hy, honly⟩ := (hm.flushes_of_run hflush).carries x s hx
  exact ⟨y, hxy, hy, honly.flags, honly.reg _⟩

/-- An operation in a slot is performed and written back. -/
theorem exists_follows_operation (hm : m.Idle) {o : Operation} {e e' : Emitted Unit}
    (hrun : o.emit.run m = .ok e) (hflush : Emit.flushAll.run e.map = .ok e')
    (hx : Represents m x s) :
    ∃ y, Follows (e.code ++ e'.code) x y ∧ y.cpu = o.perform s ∧
      y.reg Reg.savedFlags = x.reg Reg.savedFlags := by
  have he := realises_of_run hm hrun
  obtain ⟨y, hxy, hy⟩ := he.carries x s hx
  obtain ⟨z, hyz, hz, -, hreg⟩ := exists_follows_flush he.idle hflush hy
  exact ⟨z, hxy.append hyz, hz, hreg.trans (hm.reg_eq hxy he.confined)⟩

/-- An operation in the slot of a jump is performed, and then the return address is written. -/
theorem exists_follows_return (hm : m.Idle) {o : Operation} {e e' : Emitted Unit}
    (hrun : o.emit.run m = .ok e) (hflush : Emit.flushAll.run e.map = .ok e') {v : Word}
    (hx : Represents m x (s.set .pc v)) (pc : Word) (link : Option Guest.Reg) :
    ∃ y, Follows (e.code ++ e'.code ++ returnCode pc link) x y ∧
      y.cpu = (writeLink link pc (o.perform s)).set .pc v ∧
      y.reg Reg.savedFlags = x.reg Reg.savedFlags := by
  obtain ⟨y, hxy, hy, hreg⟩ := exists_follows_operation hm hrun hflush hx
  obtain ⟨z, hyz, hz⟩ := follows_returnCode y pc link
  refine ⟨z, hxy.append hyz, ?_, (hz.reg _ (by decide)).trans hreg⟩
  rw [hz.cpu, hy, o.perform_set_pc, writeLink_set_pc]

section
variable {o : Operation} {e e' : Emitted Unit} {pc v : Word} {taken : Bool} {b : Branch}
  {target : Word}

/-- The slot of a likely branch is run if the branch is taken, and branched past if it is not. -/
theorem leaves_around_operation_of_likely (hl : b.likely = true) (hm : m.Idle)
    (hflushed : m.Flushed) (hrun : o.emit.run m = .ok e)
    (hflush : Emit.flushAll.run e.map = .ok e') (hx : Represents m x (s.set .pc v))
    (hholds : b.notTaken.holds x.flags = !taken) (hcalls : x.calls = [])
    (hp : Placed code base ((Delayed.branch b target).around pc base
      ⟨.ok (), true, e.code ++ e'.code, e'.map, []⟩).1) :
    Leaves handler residue entry code base x
      (((Delayed.branch b target).departure pc taken s).execution
        (if (Delayed.branch b target).skips taken then s else o.perform s) x.env []) := by
  simp only [Delayed.around, Delayed.aroundBranch, hl] at hp
  obtain ⟨hbranch, hrest⟩ := placed_cons.mp hp
  refine leaves_of_branch hbranch (by omega) ?_
  rw [hholds]
  obtain ⟨hslot, hout⟩ := placed_append.mp hrest
  obtain ⟨htarget, hpast⟩ := placed_cons.mp hout
  cases taken with
  | true =>
    obtain ⟨y, hxy, hy, -⟩ := exists_follows_operation hm hrun hflush hx
    rw [o.perform_set_pc] at hy
    simp only [Delayed.skips, Bool.not_true, Bool.and_false, Bool.false_eq_true, if_false]
    exact leaves_of_follows_leave hslot htarget hxy rfl hy hcalls
  | false =>
    have hcpu : x.cpu = s.set .pc v := (represents_iff_of_flushed hflushed).mp hx
    simp only [Delayed.skips, hl, Bool.not_false, Bool.and_self, if_true]
    exact leaves_of_follows_leave placed_nil (placed_cons.mp hpast).1 (.done x) rfl hcpu hcalls

/-- The slot of a plain branch is always run, with the flags kept in their register. -/
theorem leaves_around_operation_of_plain (hl : b.likely = false) (hm : m.Idle)
    (hflushed : m.Flushed) (hrun : o.emit.run m = .ok e)
    (hflush : Emit.flushAll.run e.map = .ok e') (hx : Represents m x (s.set .pc v))
    (hholds : b.notTaken.holds x.flags = !taken) (hcalls : x.calls = [])
    (hp : Placed code base ((Delayed.branch b target).around pc base
      ⟨.ok (), true, e.code ++ e'.code, e'.map, []⟩).1) :
    Leaves handler residue entry code base x
      (((Delayed.branch b target).departure pc taken s).execution
        (if (Delayed.branch b target).skips taken then s else o.perform s) x.env []) := by
  simp only [Delayed.around, Delayed.aroundBranch, hl] at hp
  obtain ⟨hsave, hrest⟩ := placed_cons.mp hp
  obtain ⟨hslot, hout⟩ := placed_append.mp hrest
  obtain ⟨hrestore, hout⟩ := placed_cons.mp hout
  obtain ⟨hbranch, hout⟩ := placed_cons.mp hout
  obtain ⟨htarget, hpast⟩ := placed_cons.mp hout
  have hcpu : x.cpu = s.set .pc v := (represents_iff_of_flushed hflushed).mp hx
  have hx' : Represents m (x.setReg Reg.savedFlags x.flags.toWord) (s.set .pc v) :=
    (represents_iff_of_flushed hflushed).mpr hcpu
  obtain ⟨y, hxy, hy, hreg⟩ := exists_follows_operation hm hrun hflush hx'
  rw [Machine.reg_setReg, if_pos rfl] at hreg
  rw [o.perform_set_pc] at hy
  have henv : y.env = x.env := hxy.quiet.1
  have hcalls' : y.calls = [] := hxy.quiet.2.trans hcalls
  have hrestored : Flags.ofWord (y.reg Reg.savedFlags) = x.flags := by
    rw [hreg, Flags.ofWord_toWord]
  refine leaves_of_step hsave rfl (leaves_of_follows hslot hxy
    (leaves_of_step hrestore rfl (leaves_of_branch hbranch (by omega) ?_)))
  simp only [hrestored, hholds, Delayed.skips, hl, Bool.false_and, Bool.false_eq_true, if_false]
  cases taken with
  | true => exact leaves_of_cpu_eq htarget rfl hy henv hcalls'
  | false => exact leaves_of_cpu_eq (placed_cons.mp hpast).1 rfl hy henv hcalls'

end

/-- An operation runs in the slot and the way on is taken, unless the slot is skipped. -/
theorem leaves_around_operation (hm : m.Idle) {o : Operation} {e e' : Emitted Unit}
    (hrun : o.emit.run m = .ok e) (hflush : Emit.flushAll.run e.map = .ok e') {d : Delayed}
    (hflushed : (∀ link target, d ≠ .jump link target) → m.Flushed) {pc v : Word} {taken : Bool}
    (hx : Represents m x (s.set .pc v)) (hprep : d.Prepared s taken x) (hcalls : x.calls = [])
    (hp : Placed code base
      (d.around pc base ⟨.ok (), true, e.code ++ e'.code, e'.map, []⟩).1) :
    Leaves handler residue entry code base x ((d.departure pc taken s).execution
      (if d.skips taken then s else writeLink d.link pc (o.perform s)) x.env []) := by
  cases d with
  | branch b target =>
    have hm' : m.Flushed := hflushed nofun
    cases hl : b.likely with
    | true => exact leaves_around_operation_of_likely hl hm hm' hrun hflush hx hprep hcalls hp
    | false => exact leaves_around_operation_of_plain hl hm hm' hrun hflush hx hprep hcalls hp
  | jump link target =>
    obtain ⟨hcode, hout⟩ := placed_append.mp hp
    obtain ⟨y, hxy, hcpu, -⟩ := exists_follows_return hm hrun hflush hx pc link
    exact leaves_of_follows_leave hcode (placed_cons.mp hout).1 hxy rfl hcpu hcalls
  | jumpReg link rs =>
    obtain ⟨hcode, hout⟩ := placed_append.mp hp
    obtain ⟨y, hxy, hcpu, hreg⟩ := exists_follows_return hm hrun hflush hx pc link
    have hdest : y.reg Reg.jumpDest = s.gpr rs := hreg.trans hprep
    refine leaves_of_follows_leave hcode (placed_cons.mp hout).1 hxy ?_ hcpu hcalls
    rw [Machine.perform, hdest]
    rfl

/-- A system call in the slot ends the block there, unless the slot is skipped. -/
theorem leaves_around_syscall (hm : m.Idle) {e : Emitted Unit}
    (hflush : Emit.flushAll.run m = .ok e) {d : Delayed} (hflushed : m.Flushed) {pc w : Word}
    {taken : Bool}
    (hx : Represents m x ((writeLink d.link pc s).set .pc (d.departure pc taken s).address))
    (hprep : d.Prepared s taken x) (hcalls : x.calls = [])
    (hp : Placed code base
      (d.around pc base ⟨.ok (), false, e.code ++ [.callSyscall w, .exitSyscall], e.map, []⟩).1) :
    Leaves handler residue entry code base x
      (if d.skips taken then (d.departure pc taken s).execution s x.env []
      else callNative handler ⟨w⟩ (d.departure pc taken s).address (writeLink d.link pc s)
        x.env) := by
  obtain ⟨y, hxy, hy, -⟩ := exists_follows_flush hm hflush hx
  cases d with
  | branch b target =>
    have hholds : b.notTaken.holds x.flags = !taken := hprep
    cases hl : b.likely with
    | true =>
      simp only [Delayed.around, Delayed.aroundBranch, hl] at hp
      obtain ⟨hbranch, hrest⟩ := placed_cons.mp hp
      obtain ⟨hslot, hout⟩ := placed_append.mp hrest
      refine leaves_of_branch hbranch (by omega) ?_
      rw [hholds]
      cases taken with
      | true =>
        simp only [Delayed.skips, Bool.not_true, Bool.and_false, Bool.false_eq_true, if_false]
        exact leaves_of_follows_call hslot hxy hy hcalls
      | false =>
        simp only [Delayed.skips, hl, Bool.not_false, Bool.and_self, if_true]
        have hcpu := (represents_iff_of_flushed hflushed).mp hx
        exact leaves_of_cpu_eq (placed_cons.mp hout).1 rfl hcpu rfl hcalls
    | false =>
      simp only [Delayed.around, Delayed.aroundBranch, hl] at hp
      obtain ⟨hsave, hslot⟩ := placed_cons.mp hp
      simp only [Delayed.skips, hl, Bool.false_and, Bool.false_eq_true, if_false]
      have hx' := hx.of_regs (y := x.setReg Reg.savedFlags x.flags.toWord) rfl
        fun r h hr => by cases (hflushed r).symm.trans hr
      obtain ⟨z, hxz, hz, -⟩ := exists_follows_flush hm hflush hx'
      exact leaves_of_step hsave rfl (leaves_of_follows_call hslot hxz hz hcalls)
  | jump link target => exact leaves_of_follows_call hp hxy hy hcalls
  | jumpReg link rs => exact leaves_of_follows_call hp hxy hy hcalls

/-- A branch or jump with its slot does what the guest does. -/
theorem exists_leaves_delayed {fetch : Word → Word} {pc : Word} {c : Control} {d : Delayed}
    (hd : c.delayed? ⟨fetch pc⟩ pc = some d) (hm : m.Idle) {e : Emitted Unit}
    (hrun : (d.opening pc (Lowering.slotEndsBlock fetch pc)).run m = .ok e) {r : SlotOutput}
    (hr : SlotLowered fetch (pc + instrBytes) e.map r) (hok : r.verdict = .ok ())
    (hp : Placed code base (e.code ++ (d.around pc (base + e.code.length) r).1))
    (hx : Represents m x s) (hcalls : x.calls = []) :
    ∃ ex, runControl fetch handler pc ⟨fetch pc⟩ c s x.env = some ex ∧
      Leaves handler residue entry code base x ex := by
  have he := Delayed.opens_of_run hm hrun
  obtain ⟨y, v, hxy, hy, hv, hprep⟩ := he.carries x s _ (Control.asks_of_delayed hd s) hx
  obtain ⟨hopening, haround⟩ := placed_append.mp hp
  have hcalls' : y.calls = [] := hxy.quiet.2.trans hcalls
  rw [runControl_of_delayed hd, ← hxy.quiet.1]
  cases hr with
  | operation hdecode hop hflush =>
    have hends := Lowering.slotEndsBlock_of_operation hdecode
    simp only [hends, Bool.false_eq_true, if_false] at hy
    refine ⟨_, ?_, leaves_of_follows hopening hxy (leaves_around_operation he.idle hop hflush
      (fun h => he.flushed (.inr h)) hy hprep hcalls' haround)⟩
    rw [runSlot, hdecode]
    split <;> rfl
  | syscall hdecode hflush =>
    have hends : Lowering.slotEndsBlock fetch pc = true := Lowering.slotEndsBlock_of_control hdecode
    simp only [hends, if_true, hv hends] at hy
    refine ⟨_, ?_, leaves_of_follows hopening hxy (leaves_around_syscall he.idle hflush
      (he.flushed (.inl hends)) hy hprep hcalls' haround)⟩
    rw [runSlot, hdecode]
    split <;> rfl
  | branch => cases hok
  | unsupported => cases hok

/-! ### The rest of a block -/

/-- Lowered code of the rest of a block does what the guest does from there. -/
theorem RestLowered.exists_leaves {fetch : Word → Word} {n : Nat} {pc : Word} {r : RestOutput}
    (h : RestLowered fetch n pc m base r) (hm : m.Idle) (hok : r.verdict = .ok ())
    (hp : Placed code base r.code) (hx : Represents m x s) (hcalls : x.calls = []) :
    ∃ ex, runBlock fetch handler n pc s x.env = some ex ∧
      Leaves handler residue entry code base x ex := by
  induction h generalizing x s with
  | @limit pc m base e hflush =>
    obtain ⟨hflushes, hout⟩ := placed_append.mp hp
    obtain ⟨y, hxy, hy, -⟩ := exists_follows_flush hm hflush hx
    exact ⟨_, rfl, leaves_of_follows_leave (v := s.pc) hflushes (placed_cons.mp hout).1 hxy rfl hy
      hcalls⟩
  | @operation n pc m base o e r hdecode hrun _ ih =>
    have he := realises_of_run hm hrun
    obtain ⟨hop, hrest⟩ := placed_append.mp hp
    obtain ⟨y, hxy, hy⟩ := he.carries x s hx
    obtain ⟨ex, hguest, hhost⟩ := ih he.idle hok hrest hy (hxy.quiet.2.trans hcalls)
    refine ⟨ex, ?_, leaves_of_follows hop hxy hhost⟩
    rw [runBlock, hdecode, ← hguest, hxy.quiet.1]
  | @syscall n pc m base e hdecode hflush =>
    obtain ⟨y, hxy, hy, -⟩ := exists_follows_flush hm hflush hx
    obtain ⟨z, hyz, hz⟩ := follows_storeConst y .pc (pc + instrBytes)
    refine ⟨callNative handler ⟨fetch pc⟩ (pc + instrBytes) s x.env, ?_,
      leaves_of_follows_call hp (hxy.append hyz) (hz.cpu.trans (hy ▸ rfl)) hcalls⟩
    rw [runBlock, hdecode]
    rfl
  | @delayed n pc m base c d e r hdecode hd hrun hslot =>
    obtain ⟨ex, hguest, hhost⟩ := exists_leaves_delayed hd hm hrun hslot hok hp hx hcalls
    refine ⟨ex, ?_, hhost⟩
    rw [runBlock, hdecode, ← hguest]
  | unsupported => cases hok

end MipsOnArm
