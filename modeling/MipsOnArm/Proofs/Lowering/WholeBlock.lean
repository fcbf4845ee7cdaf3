import MipsOnArm.Lowering.WholeBlock
import MipsOnArm.Proofs.Guest.Extent
import MipsOnArm.Proofs.Lowering.Delayed

/-! The output of a whole block, written out instruction by instruction. Lowering never fails: from
    an idle map it hands over the output that `RestLowered` describes. How many instructions are
    lowered, and whether the block is refused, depends on the words alone. -/

namespace MipsOnArm
open Guest

/-- What lowering the rest of a block yields. -/
structure RestOutput where
  verdict : Verdict
  /-- Guest instructions lowered. -/
  count : Nat
  /-- Guest address at which lowering stopped. -/
  stop : Word
  code : List Host.Instr
  exits : List Exit
  map : RegisterMap
  log : List Event

/-- The address at which lowering stops after the control instruction at `pc`. -/
def stopAt (pc : Word) : Verdict → Word
  | .ok () => pc + instrBytes
  | .error _ => pc

/-- The outputs of the instructions from `pc` on, at most `remaining` of which are begun, with the
    register map `m` and with `base` host instructions before them. -/
inductive RestLowered (fetch : Word → Word) :
    (remaining : Nat) → (pc : Word) → (m : RegisterMap) → (base : Nat) → RestOutput → Prop
  | limit {pc : Word} {m : RegisterMap} {base : Nat} {e : Emitted Unit}
      (hflush : Emit.flushAll.run m = .ok e) :
      RestLowered fetch 0 pc m base
        ⟨.ok (), 0, pc, e.code ++ [.exit pc 0], [⟨pc, 0, base + e.code.length⟩], e.map, []⟩
  | operation {n : Nat} {pc : Word} {m : RegisterMap} {base : Nat} {o : Operation}
      {e : Emitted Unit} {r : RestOutput}
      (hdecode : Instr.decode ⟨fetch pc⟩ = some (.operation o)) (hrun : o.emit.run m = .ok e)
      (hrest : RestLowered fetch n (pc + instrBytes) e.map (base + e.code.length) r) :
      RestLowered fetch (n + 1) pc m base
        ⟨r.verdict, r.count + 1, r.stop, e.code ++ r.code, r.exits, r.map, r.log⟩
  | syscall {n : Nat} {pc : Word} {m : RegisterMap} {base : Nat} {e : Emitted Unit}
      (hdecode : Instr.decode ⟨fetch pc⟩ = some (.control .syscall))
      (hflush : Emit.flushAll.run m = .ok e) :
      RestLowered fetch (n + 1) pc m base
        ⟨.ok (), 1, pc + instrBytes, e.code ++ storePcCode (pc + instrBytes) ++
          [.callSyscall (fetch pc), .exitSyscall], [], e.map, []⟩
  | delayed {n : Nat} {pc : Word} {m : RegisterMap} {base : Nat} {c : Control} {d : Delayed}
      {e : Emitted Unit} {r : SlotOutput}
      (hdecode : Instr.decode ⟨fetch pc⟩ = some (.control c))
      (hd : c.delayed? ⟨fetch pc⟩ pc = some d)
      (hrun : (d.opening pc (Lowering.slotEndsBlock fetch pc)).run m = .ok e)
      (hslot : SlotLowered fetch (pc + instrBytes) e.map r) :
      RestLowered fetch (n + 1) pc m base
        ⟨r.verdict, 2, stopAt pc r.verdict, e.code ++ (d.around pc (base + e.code.length) r).1,
          (d.around pc (base + e.code.length) r).2, r.map,
          d.notice pc ⟨fetch (pc + instrBytes)⟩ ++ r.log⟩
  | unsupported {n : Nat} {pc : Word} {m : RegisterMap} {base : Nat}
      (hdecode : Instr.decode ⟨fetch pc⟩ = none) :
      RestLowered fetch (n + 1) pc m base
        ⟨.error (.unsupported pc (fetch pc)), 1, pc, [], [], m, [.wordRefused pc (fetch pc)]⟩

/-- Every control instruction but a system call has a delay slot. -/
theorem Guest.Control.delayed?_isSome (c : Control) (w : InstrWord) (pc : Word) :
    (c.delayed? w pc).isSome = c.hasDelaySlot := by
  cases c <;> rfl

theorem Guest.Control.eq_syscall {c : Control} (hc : ¬ c.hasDelaySlot = true) : c = .syscall := by
  cases c with
  | syscall => rfl
  | _ => exact absurd rfl hc

/-- Whether a slot ends the block depends on its word alone. -/
theorem Lowering.slotEndsBlock_congr {fetch fetch' : Word → Word} {pc : Word}
    (hword : fetch' (pc + instrBytes) = fetch (pc + instrBytes)) :
    slotEndsBlock fetch' pc = slotEndsBlock fetch pc := by
  rw [slotEndsBlock, slotEndsBlock, hword]

theorem Lowering.slotEndsBlock_of_operation {fetch : Word → Word} {pc : Word} {o : Operation}
    (h : Instr.decode ⟨fetch (pc + instrBytes)⟩ = some (.operation o)) :
    slotEndsBlock fetch pc = false := by
  rw [slotEndsBlock]
  cases hc : Control.decode ⟨fetch (pc + instrBytes)⟩ with
  | none => rfl
  | some c =>
    rw [Instr.decode, hc] at h
    cases h

/-- Of the control instructions a system call ends the block. -/
theorem Lowering.slotEndsBlock_of_control {fetch : Word → Word} {pc : Word} {c : Control}
    (h : Instr.decode ⟨fetch (pc + instrBytes)⟩ = some (.control c)) :
    slotEndsBlock fetch pc = !c.hasDelaySlot := by
  rw [slotEndsBlock]
  cases hc : Control.decode ⟨fetch (pc + instrBytes)⟩ with
  | none =>
    rw [Instr.decode, hc] at h
    simp at h
  | some c' =>
    rw [Instr.decode, hc] at h
    cases h
    rfl

namespace RestLowered

variable {fetch : Word → Word} {n : Nat} {pc : Word} {m : RegisterMap} {base : Nat}
  {r : RestOutput}

/-- There is one output. -/
theorem unique (h : RestLowered fetch n pc m base r) {r' : RestOutput}
    (h' : RestLowered fetch n pc m base r') : r = r' := by
  induction h generalizing r' with
  | limit hflush =>
    cases h' with
    | limit hflush' => cases hflush.symm.trans hflush'; rfl
  | operation hdecode hrun _ ih =>
    cases h' with
    | operation hdecode' hrun' hrest' =>
      cases hdecode.symm.trans hdecode'
      cases hrun.symm.trans hrun'
      cases ih hrest'
      rfl
    | _ hdecode' => cases hdecode.symm.trans hdecode'
  | syscall hdecode hflush =>
    cases h' with
    | syscall _ hflush' => cases hflush.symm.trans hflush'; rfl
    | delayed hdecode' hd => cases hdecode.symm.trans hdecode'; cases hd
    | _ hdecode' => cases hdecode.symm.trans hdecode'
  | delayed hdecode hd hrun hslot =>
    cases h' with
    | delayed hdecode' hd' hrun' hslot' =>
      cases hdecode.symm.trans hdecode'
      cases hd.symm.trans hd'
      cases hrun.symm.trans hrun'
      cases hslot.unique hslot'
      rfl
    | syscall hdecode' => cases hdecode.symm.trans hdecode'; cases hd
    | _ hdecode' => cases hdecode.symm.trans hdecode'
  | unsupported hdecode =>
    cases h' with
    | unsupported => rfl
    | _ hdecode' => cases hdecode.symm.trans hdecode'

theorem count_eq (h : RestLowered fetch n pc m base r) : r.count = extent fetch n pc := by
  induction h with
  | limit => rfl
  | operation hdecode _ _ ih => simp only [extent, hdecode, ih]
  | syscall hdecode => simp only [extent, hdecode]; rfl
  | @delayed n pc m base c d e r hdecode hd =>
    have hc := c.delayed?_isSome ⟨fetch pc⟩ pc
    rw [hd] at hc
    simp only [extent, hdecode, ← hc, Option.isSome_some, if_true]
  | unsupported hdecode => simp only [extent, hdecode]

theorem verdict_eq (h : RestLowered fetch n pc m base r) : r.verdict = verdict fetch n pc := by
  induction h with
  | limit => rfl
  | operation hdecode _ _ ih => simp only [verdict, hdecode, ih]
  | syscall hdecode => simp only [verdict, hdecode]; rfl
  | @delayed n pc m base c d e r hdecode hd _ hslot =>
    have hc := c.delayed?_isSome ⟨fetch pc⟩ pc
    rw [hd] at hc
    simp only [verdict, hdecode, ← hc, Option.isSome_some, if_true, hslot.verdict_eq]
  | unsupported hdecode => simp only [verdict, hdecode]

/-- The output depends only on the words of the instructions that were lowered. -/
theorem congr (h : RestLowered fetch n pc m base r) {fetch' : Word → Word}
    (hwords : ∀ i < r.count, fetch' (addrAt pc i) = fetch (addrAt pc i)) :
    RestLowered fetch' n pc m base r := by
  induction h with
  | limit hflush => exact .limit hflush
  | @operation n pc m base o e r hdecode hrun _ ih =>
    have hword : fetch' pc = fetch pc := by simpa [addrAt_zero] using hwords 0 (by simp)
    refine .operation (hword ▸ hdecode) hrun (ih fun i hi => ?_)
    rw [addrAt_next]
    exact hwords (i + 1) (Nat.succ_lt_succ hi)
  | @syscall n pc m base e hdecode hflush =>
    have hword : fetch' pc = fetch pc := by simpa [addrAt_zero] using hwords 0 (by simp)
    exact hword ▸ .syscall (hword ▸ hdecode) hflush
  | @delayed n pc m base c d e r hdecode hd hrun hslot =>
    have hword : fetch' pc = fetch pc := by simpa [addrAt_zero] using hwords 0 (by simp)
    have hnext : fetch' (pc + instrBytes) = fetch (pc + instrBytes) := by
      simpa [addrAt_one] using hwords 1 (by simp)
    have hends := Lowering.slotEndsBlock_congr hnext
    exact hnext ▸ .delayed (hword ▸ hdecode) (hword ▸ hd) (hends ▸ hrun) (hslot.congr hnext)
  | @unsupported n pc m base hdecode =>
    have hword : fetch' pc = fetch pc := by simpa [addrAt_zero] using hwords 0 (by simp)
    exact hword ▸ .unsupported (hword ▸ hdecode)

/-- A block that is not refused ends with nothing mapped, and with every branch bound. -/
theorem idle (h : RestLowered fetch n pc m base r) (hm : m.Idle) :
    r.map.Idle ∧ r.map.budget = m.budget ∧ (r.verdict = .ok () → r.map.Flushed) ∧
      Host.Bound r.code := by
  induction h with
  | limit hflush =>
    have he := hm.flushes_of_run hflush
    refine ⟨he.idle, he.budget, fun _ => he.flushed, Host.bound_append.mpr
      ⟨Host.bound_of_confined he.confined, Host.bound_cons.mpr ⟨rfl, Host.bound_nil⟩⟩⟩
  | operation _ hrun _ ih =>
    have he := realises_of_run hm hrun
    obtain ⟨hidle, hbudget, hflushed, hbound⟩ := ih he.idle
    exact ⟨hidle, hbudget.trans he.budget, hflushed,
      Host.bound_append.mpr ⟨Host.bound_of_confined he.confined, hbound⟩⟩
  | syscall _ hflush =>
    have he := hm.flushes_of_run hflush
    refine ⟨he.idle, he.budget, fun _ => he.flushed, Host.bound_append.mpr ⟨Host.bound_append.mpr
      ⟨Host.bound_of_confined he.confined, (listed_storePcCode [] _).bound⟩, ?_⟩⟩
    exact Host.bound_cons.mpr ⟨rfl, Host.bound_cons.mpr ⟨rfl, Host.bound_nil⟩⟩
  | @delayed n pc m base c d e r hdecode hd hrun hslot =>
    have he := Delayed.opens_of_run hm hrun
    obtain ⟨hidle, hbudget, hflushed⟩ := hslot.idle he.idle
    exact ⟨hidle, hbudget.trans he.budget, fun hok => hflushed (.inr (.inl hok)),
      Host.bound_append.mpr ⟨he.listed.bound, d.bound_around _ _ (hslot.bound he.idle)⟩⟩
  | unsupported => exact ⟨hm, rfl, nofun, Host.bound_nil⟩

end RestLowered

namespace Lowering

variable {fetch : Word → Word} {t : Compiler}

theorem run_endAtLimit {e : Emitted Unit} (hm : t.map.Idle)
    (hflush : Emit.flushAll.run t.map = .ok e) :
    endAtLimit.run t = .ok ((), t.extend { t.progress with isOpen := false } e.map
      (e.code ++ [.exit t.progress.pc 0])
      [⟨t.progress.pc, 0, t.code.size + e.code.length⟩] []) := by
  have he := hm.flushes_of_run hflush
  have hleave := run_leaveTo (t.extend t.progress e.map e.code [] []) he.flushed t.progress.pc 0
  simp only [Compiler.extend_extend, Compiler.progress_extend, Compiler.size_code_extend,
    List.nil_append] at hleave
  simp only [endAtLimit, flushAll, StateT.run_bind, run_progress, ok_bind, run_emit t hflush,
    hleave, run_close, Compiler.extend_extend, Compiler.progress_extend, Compiler.map_extend,
    List.append_nil]

/-! ### One instruction outside a slot -/

theorem run_lowerAt_syscall (hcount : t.progress.count < 0xffffffff)
    (hslot : t.progress.inSlot = false) {addr : Word}
    (hdecode : Instr.decode ⟨fetch addr⟩ = some (.control .syscall)) {e : Emitted Unit}
    (hflush : Emit.flushAll.run t.map = .ok e) :
    (lowerAt fetch addr).run t = .ok (.ok (), t.extend { t.progress with
      isOpen := false
      count := t.progress.count + 1 } e.map
      (e.code ++ storePcCode (addr + instrBytes) ++ [.callSyscall (fetch addr), .exitSyscall])
      [] []) := by
  have hcall := run_lowerControl_syscall fetch (t := t.extend { t.progress with
    pc := addr
    count := t.progress.count + 1 } t.map [] [] []) hflush hslot ⟨fetch addr⟩
  rw [lowerAt, run_lowerWith_control hcount hdecode hcall]
  simp only [Compiler.extend_extend, Compiler.progress_extend, Compiler.map_extend, List.append_nil,
    List.nil_append]

theorem exists_run_lowerAt_delayed (hm : t.map.Idle) (hcount : t.progress.count + 2 < 0x100000000)
    (hopen : t.progress.isOpen = true) (hslot : t.progress.inSlot = false)
    (hflags : t.progress.flagsSaved = false) {addr : Word} {c : Control} {d : Delayed}
    (hdecode : Instr.decode ⟨fetch addr⟩ = some (.control c))
    (hd : c.delayed? ⟨fetch addr⟩ addr = some d) :
    ∃ e r, (d.opening addr (slotEndsBlock fetch addr)).run t.map = .ok e ∧
      SlotLowered fetch (addr + instrBytes) e.map r ∧
      (lowerAt fetch addr).run t =
        let out := d.around addr (t.code.size + e.code.length) r
        .ok (r.verdict, t.extend { t.progress with
          isOpen := false
          count := t.progress.count + 2 } r.map (e.code ++ out.1) out.2
          (d.notice addr ⟨fetch (addr + instrBytes)⟩ ++ r.log)) := by
  obtain ⟨e, r, hrun, hr, hcontrol⟩ := exists_run_delayed fetch (t := t.extend
    { t.progress with pc := addr, count := t.progress.count + 1 } t.map [] [] []) hm
    (show t.progress.count + 1 < 0xffffffff by omega) hopen hslot hflags hd
  refine ⟨e, r, hrun, hr, ?_⟩
  rw [lowerAt, run_lowerWith_control (by omega) hdecode hcontrol]
  simp only [Compiler.extend_extend, Compiler.progress_extend, Compiler.map_extend,
    Compiler.size_code_extend, List.length_nil, Nat.add_zero, List.append_nil, List.nil_append]

/-! ### The rest of a block -/

theorem exists_run_lowerRest (fetch : Word → Word) (n : Nat) (t : Compiler) (hm : t.map.Idle)
    (hcount : t.progress.count + extent fetch n t.progress.pc < 0x100000000)
    (hopen : t.progress.isOpen = true) (hslot : t.progress.inSlot = false)
    (hflags : t.progress.flagsSaved = false) :
    ∃ r, RestLowered fetch n t.progress.pc t.map t.code.size r ∧
      (lowerRest fetch n).run t = .ok (r.verdict, t.extend { t.progress with
        pc := r.stop
        isOpen := false
        count := t.progress.count + r.count } r.map r.code r.exits r.log) := by
  induction n generalizing t with
  | zero =>
    obtain ⟨e, hflush, -⟩ := hm.exists_run_flushAll
    refine ⟨_, .limit hflush, ?_⟩
    simp only [lowerRest, StateT.run_bind, run_endAtLimit hm hflush, ok_bind, run_pure,
      Nat.add_zero]
  | succ n ih =>
    have hone := one_le_extent fetch n t.progress.pc
    cases hdecode : Instr.decode ⟨fetch t.progress.pc⟩ with
    | none =>
      refine ⟨_, .unsupported hdecode, ?_⟩
      simp only [lowerRest, lowerAt, StateT.run_bind, run_progress, ok_bind,
        run_lowerWith_unsupported (show t.progress.count < 0xffffffff by omega) hdecode, run_pure]
    | some i =>
      cases i with
      | operation o =>
        obtain ⟨e, hrun, he⟩ := exists_run_operation hm o
        simp only [extent, hdecode] at hcount
        have hcount' : t.progress.count + 1 + extent fetch n (t.progress.pc + instrBytes) <
            0x100000000 := by omega
        obtain ⟨r, hr, hrest⟩ := ih (t.extend { t.progress with
          pc := t.progress.pc + instrBytes
          count := t.progress.count + 1 } e.map e.code [] []) he.idle hcount' hopen hslot hflags
        rw [Compiler.size_code_extend] at hr
        refine ⟨_, .operation hdecode hrun hr, ?_⟩
        simp only [Compiler.extend_extend, Compiler.progress_extend, List.nil_append, hopen,
          Nat.add_assoc, Nat.add_comm 1] at hrest
        simp only [lowerRest, lowerAt, StateT.run_bind, run_progress, ok_bind,
          run_lowerWith_operation (show t.progress.count < 0xffffffff by omega) hdecode hrun,
          run_setPc, run_isOpen, Compiler.extend_extend, Compiler.progress_extend,
          Compiler.map_extend, List.append_nil, hopen, if_true, hrest]
      | control c =>
        by_cases hc : c.hasDelaySlot = true
        · obtain ⟨d, hd⟩ := Option.isSome_iff_exists.mp
            ((c.delayed?_isSome ⟨fetch t.progress.pc⟩ t.progress.pc).trans hc)
          simp only [extent, hdecode, hc, if_true] at hcount
          obtain ⟨e, r, hrun, hr, hat⟩ :=
            exists_run_lowerAt_delayed hm hcount hopen hslot hflags hdecode hd
          refine ⟨_, .delayed hdecode hd hrun hr, ?_⟩
          cases hv : r.verdict with
          | ok =>
            simp only [lowerRest, StateT.run_bind, run_progress, ok_bind, hat, hv, run_setPc,
              run_isOpen, Compiler.extend_extend, Compiler.progress_extend, Compiler.map_extend,
              List.append_nil, Bool.false_eq_true, if_false, run_pure, stopAt]
          | error refusal =>
            simp only [lowerRest, StateT.run_bind, run_progress, ok_bind, hat, hv, run_pure, stopAt]
        · cases Control.eq_syscall hc
          obtain ⟨e, hflush, -⟩ := hm.exists_run_flushAll
          refine ⟨_, .syscall hdecode hflush, ?_⟩
          simp only [lowerRest, StateT.run_bind, run_progress, ok_bind,
            run_lowerAt_syscall (show t.progress.count < 0xffffffff by omega) hslot hdecode hflush,
            run_setPc, run_isOpen, Compiler.extend_extend, Compiler.progress_extend,
            Compiler.map_extend, List.append_nil, Bool.false_eq_true, if_false, run_pure]

/-! ### Whole blocks -/

theorem run_finish {p : Progress} {m : RegisterMap} (hm : m.Flushed) {is : List Host.Instr}
    (his : Host.Bound is) (entry : Word) (options : Options) (xs : List Exit) (log : List Event)
    (hslot : p.inSlot = false) :
    (finish entry).run ⟨options, p, m, ⟨is.toArray⟩, xs, log⟩ =
      .ok (⟨entry, p.count, is.toArray, xs⟩, ⟨options, p, m, .empty, [],
        log ++ [.blockFinished entry p.count is.length xs.length]⟩) := by
  have htake : Host.Code.take ⟨is.toArray⟩ = .ok (is.toArray, .empty) := by
    have hany : is.toArray.any Host.Code.waits = false := by
      rw [List.any_toArray, List.any_eq_false]
      exact fun i hi => by simp [his i hi]
    rw [Host.Code.take, hany]
    rfl
  have hassert := run_assertFlushed ⟨options, p, m, ⟨is.toArray⟩, xs, log⟩ hm .endWhileMapped
  simp only [finish, StateT.run_bind, run_progress, hslot, Bool.false_eq_true, if_false, run_pure,
    hassert, ok_bind, StateT.run_get, pure_bind, htake]
  rfl

/-- The block, or the reason why there is none. -/
def result (entry : Word) (r : RestOutput) : Except Refusal Block :=
  match r.verdict with
  | .ok () => .ok ⟨entry, r.count, r.code.toArray, r.exits⟩
  | .error refusal => .error refusal

theorem verdict_of_result_error {entry : Word} {r : RestOutput} {refusal : Refusal}
    (h : result entry r = .error refusal) : r.verdict = .error refusal := by
  unfold result at h
  split at h
  · cases h
  · next hv => rw [hv, Except.error.inj h]

/-- The compiler after a block. A refused block stays where it is. -/
def compilerAfter (options : Options) (entry : Word) (r : RestOutput) : Compiler :=
  let p : Progress := ⟨r.stop, false, r.count, false, false⟩
  match r.verdict with
  | .ok () => ⟨options, p, r.map, .empty, [],
      r.log ++ [.blockFinished entry r.count r.code.length r.exits.length]⟩
  | .error _ => ⟨options, p, r.map, ⟨r.code.toArray⟩, r.exits, r.log⟩

section
variable (options : Options) (entry : Word) (r : RestOutput)

@[simp] theorem options_compilerAfter : (compilerAfter options entry r).options = options := by
  rw [compilerAfter]
  cases r.verdict <;> rfl

@[simp] theorem map_compilerAfter : (compilerAfter options entry r).map = r.map := by
  rw [compilerAfter]
  cases r.verdict <;> rfl

/-- The block is closed, and so is its slot. -/
@[simp] theorem progress_compilerAfter :
    (compilerAfter options entry r).progress = ⟨r.stop, false, r.count, false, false⟩ := by
  rw [compilerAfter]
  cases r.verdict <;> rfl

end

/-- How many instructions may be begun. -/
def limitOf (options : Options) : Nat := max options.maxInstrs.toNat 1

/-- Lowering a block never fails, and goes by the options alone, whatever was lowered before. -/
theorem exists_run_lowerBlock (fetch : Word → Word) (entry : Word) (t : Compiler)
    (ht : t.map.budget = RegisterMap.budgetOf t.options.hostRegs) :
    ∃ r, RestLowered fetch (limitOf t.options) entry (.fresh t.options.hostRegs) 0 r ∧
      (lowerBlock fetch entry).run t =
        .ok (result entry r, compilerAfter t.options entry r) := by
  have hm := RegisterMap.idle_fresh t.options.hostRegs
  have hlimit : limitOf t.options < 0x100000000 := by
    have := t.options.maxInstrs.isLt
    unfold limitOf
    omega
  have hbegin : (begin entry).run t = .ok ((), ⟨t.options, .start entry,
      .fresh t.options.hostRegs, .empty, [], []⟩) := by
    simp only [RegisterMap.fresh, ← ht]
    rfl
  obtain ⟨r, hr, hrest⟩ := exists_run_lowerRest fetch (limitOf t.options)
    ⟨t.options, .start entry, .fresh t.options.hostRegs, .empty, [], []⟩ hm
    (by simpa [Progress.start] using extent_lt fetch hlimit entry) rfl rfl rfl
  obtain ⟨hidle, hbudget, hflushed, hbound⟩ := hr.idle hm
  refine ⟨r, hr, ?_⟩
  simp only [Compiler.extend, Host.Code.append, Host.Code.empty, Progress.start, Nat.zero_add,
    List.nil_append, Array.empty_append] at hrest
  simp only [lowerBlock, StateT.run_bind, hbegin, ok_bind, StateT.run_get, pure_bind]
  show (StateT.run (lowerRest fetch (limitOf t.options)) _ >>= _) = _
  rw [show Host.Code.empty = ⟨#[]⟩ from rfl, Progress.start, hrest, ok_bind]
  cases hv : r.verdict with
  | error refusal => simp only [run_pure, result, compilerAfter, hv]
  | ok =>
    simp only [StateT.run_bind, run_finish (hflushed hv) hbound, ok_bind, run_pure, result,
      compilerAfter, hv]

end Lowering

end MipsOnArm
