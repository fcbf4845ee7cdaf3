import MipsOnArm.Lowering.Control
import MipsOnArm.Proofs.Guest.Extent
import MipsOnArm.Proofs.Lowering.Actions
import MipsOnArm.Proofs.Lowering.Opening

/-! The output of a delay slot, written out for each kind of word that may stand in it. Lowering a
    slot never fails: it hands over the output that `SlotLowered` describes. -/

namespace MipsOnArm
open Guest

/-- What lowering a delay slot yields. -/
structure SlotOutput where
  verdict : Verdict
  /-- Whether the block goes on behind the slot. -/
  isOpen : Bool
  code : List Host.Instr
  map : RegisterMap
  log : List Event

/-- The outputs of the delay slot at `addr`, which begins with the register map `m`. -/
inductive SlotLowered (fetch : Word → Word) (addr : Word) (m : RegisterMap) : SlotOutput → Prop
  | operation {o : Operation} {e e' : Emitted Unit}
      (hdecode : Instr.decode ⟨fetch addr⟩ = some (.operation o))
      (hrun : o.emit.run m = .ok e) (hflush : Emit.flushAll.run e.map = .ok e') :
      SlotLowered fetch addr m ⟨.ok (), true, e.code ++ e'.code, e'.map, []⟩
  | syscall {e : Emitted Unit} (hdecode : Instr.decode ⟨fetch addr⟩ = some (.control .syscall))
      (hflush : Emit.flushAll.run m = .ok e) :
      SlotLowered fetch addr m
        ⟨.ok (), false, e.code ++ [.callSyscall (fetch addr), .exitSyscall], e.map, []⟩
  | branch {c : Control} {e : Emitted Unit}
      (hdecode : Instr.decode ⟨fetch addr⟩ = some (.control c))
      (hslot : c.hasDelaySlot = true) (hflush : Emit.flushAll.run m = .ok e) :
      SlotLowered fetch addr m
        ⟨.error (.branchInDelaySlot addr), true, e.code, e.map, [.branchRefused addr]⟩
  | unsupported (hdecode : Instr.decode ⟨fetch addr⟩ = none) :
      SlotLowered fetch addr m
        ⟨.error (.unsupported addr (fetch addr)), false, [], m, [.wordRefused addr (fetch addr)]⟩

namespace SlotLowered

variable {fetch : Word → Word} {addr : Word} {m : RegisterMap} {r : SlotOutput}

/-- Nothing is left pinned, and nothing is mapped unless the word was refused at once. -/
theorem idle (h : SlotLowered fetch addr m r) (hm : m.Idle) :
    r.map.Idle ∧ r.map.budget = m.budget ∧
      (r.isOpen = true ∨ r.verdict = .ok () ∨ m.Flushed → r.map.Flushed) := by
  cases h with
  | operation _ hrun hflush =>
    have he := realises_of_run hm hrun
    have he' := he.idle.flushes_of_run hflush
    exact ⟨he'.idle, he'.budget.trans he.budget, fun _ => he'.flushed⟩
  | syscall _ hflush =>
    have he := hm.flushes_of_run hflush
    exact ⟨he.idle, he.budget, fun _ => he.flushed⟩
  | branch _ _ hflush =>
    have he := hm.flushes_of_run hflush
    exact ⟨he.idle, he.budget, fun _ => he.flushed⟩
  | unsupported => exact ⟨hm, rfl, fun h =>
      (h.resolve_left (nomatch ·)).resolve_left (nomatch ·)⟩

/-- The slot holds no branch of its own. -/
theorem bound (h : SlotLowered fetch addr m r) (hm : m.Idle) : Host.Bound r.code := by
  cases h with
  | operation _ hrun hflush =>
    have he := realises_of_run hm hrun
    exact Host.bound_append.mpr ⟨Host.bound_of_confined he.confined,
      Host.bound_of_confined (he.idle.flushes_of_run hflush).confined⟩
  | syscall _ hflush =>
    refine Host.bound_append.mpr ⟨Host.bound_of_confined (hm.flushes_of_run hflush).confined, ?_⟩
    exact Host.bound_cons.mpr ⟨rfl, Host.bound_cons.mpr ⟨rfl, Host.bound_nil⟩⟩
  | branch _ _ hflush => exact Host.bound_of_confined (hm.flushes_of_run hflush).confined
  | unsupported => exact Host.bound_nil

/-- There is one output. -/
theorem unique (h : SlotLowered fetch addr m r) {r' : SlotOutput}
    (h' : SlotLowered fetch addr m r') : r = r' := by
  cases h with
  | operation hdecode hrun hflush =>
    cases h' with
    | operation hdecode' hrun' hflush' =>
      cases hdecode.symm.trans hdecode'
      cases hrun.symm.trans hrun'
      cases hflush.symm.trans hflush'
      rfl
    | _ hdecode' => cases hdecode.symm.trans hdecode'
  | syscall hdecode hflush =>
    cases h' with
    | syscall _ hflush' => cases hflush.symm.trans hflush'; rfl
    | branch hdecode' hslot => cases hdecode.symm.trans hdecode'; cases hslot
    | _ hdecode' => cases hdecode.symm.trans hdecode'
  | branch hdecode hslot hflush =>
    cases h' with
    | branch _ _ hflush' => cases hflush.symm.trans hflush'; rfl
    | syscall hdecode' => cases hdecode.symm.trans hdecode'; cases hslot
    | _ hdecode' => cases hdecode.symm.trans hdecode'
  | unsupported hdecode =>
    cases h' with
    | unsupported => rfl
    | _ hdecode' => cases hdecode.symm.trans hdecode'

/-- The output depends on the word at `addr` alone. -/
theorem congr (h : SlotLowered fetch addr m r) {fetch' : Word → Word}
    (hword : fetch' addr = fetch addr) : SlotLowered fetch' addr m r := by
  cases h with
  | operation hdecode hrun hflush => exact .operation (hword ▸ hdecode) hrun hflush
  | syscall hdecode hflush => exact hword ▸ .syscall (hword ▸ hdecode) hflush
  | branch hdecode hslot hflush => exact .branch (hword ▸ hdecode) hslot hflush
  | unsupported hdecode => exact hword ▸ .unsupported (hword ▸ hdecode)

theorem verdict_eq (h : SlotLowered fetch addr m r) : r.verdict = slotVerdict fetch addr := by
  cases h with
  | operation hdecode => simp only [slotVerdict, hdecode]
  | syscall hdecode => simp only [slotVerdict, hdecode]; rfl
  | branch hdecode hslot => simp only [slotVerdict, hdecode, hslot, if_true]
  | unsupported hdecode => simp only [slotVerdict, hdecode]

end SlotLowered

namespace Lowering

variable {fetch : Word → Word} {addr : Word} {t : Compiler}
  {onControl : Control → InstrWord → Lowering Verdict}

/-! ### One instruction, inside or outside a slot -/

theorem run_lowerWith_operation (hcount : t.progress.count < 0xffffffff) {o : Operation}
    (hdecode : Instr.decode ⟨fetch addr⟩ = some (.operation o)) {e : Emitted Unit}
    (hrun : o.emit.run t.map = .ok e) :
    (lowerWith onControl fetch addr).run t =
      .ok (.ok (), t.extend { t.progress with count := t.progress.count + 1 } e.map e.code
        [] []) := by
  have hemit := run_emit (t.extend { t.progress with pc := addr, count := t.progress.count + 1 }
    t.map [] [] []) hrun
  simp only [lowerWith, hdecode, lowerOperation, StateT.run_bind, run_progress, ok_bind,
    run_enterInstr t hcount, hemit, run_pure, run_setPc, Compiler.extend_extend,
    Compiler.progress_extend, Compiler.map_extend, List.append_nil, List.nil_append]

theorem run_lowerWith_unsupported (hcount : t.progress.count < 0xffffffff)
    (hdecode : Instr.decode ⟨fetch addr⟩ = none) :
    (lowerWith onControl fetch addr).run t =
      .ok (.error (.unsupported addr (fetch addr)),
        t.extend { t.progress with isOpen := false, count := t.progress.count + 1 } t.map [] []
          [.wordRefused addr (fetch addr)]) := by
  simp only [lowerWith, hdecode, refuseWord, StateT.run_bind, run_progress, ok_bind,
    run_enterInstr t hcount, run_tell, run_close, run_pure, run_setPc,
    Compiler.extend_extend, Compiler.progress_extend, Compiler.map_extend, List.append_nil,
    List.nil_append]

/-- A control instruction is lowered at its address, which is left again afterwards. -/
theorem run_lowerWith_control (hcount : t.progress.count < 0xffffffff) {c : Control}
    (hdecode : Instr.decode ⟨fetch addr⟩ = some (.control c)) {v : Verdict} {u : Compiler}
    (hrun : (onControl c ⟨fetch addr⟩).run (t.extend
      { t.progress with pc := addr, count := t.progress.count + 1 } t.map [] [] []) = .ok (v, u)) :
    (lowerWith onControl fetch addr).run t =
      .ok (v, u.extend { u.progress with pc := t.progress.pc } u.map [] [] []) := by
  simp only [lowerWith, hdecode, StateT.run_bind, run_progress, ok_bind,
    run_enterInstr t hcount, hrun, run_setPc, run_pure]

/-- A system call stores the address to resume at, unless it stands in a slot. -/
theorem run_lowerSyscall {e : Emitted Unit} (hflush : Emit.flushAll.run t.map = .ok e)
    (w : InstrWord) : (lowerSyscall w).run t =
      .ok ((), t.extend { t.progress with isOpen := false } e.map
        (e.code ++ (if t.progress.inSlot then [] else storePcCode (t.progress.pc + instrBytes)) ++
          [.callSyscall w.bits, .exitSyscall]) [] []) := by
  have hemit := run_emit t hflush
  cases hslot : t.progress.inSlot with
  | true =>
    simp only [lowerSyscall, flushAll, StateT.run_bind, hemit, ok_bind, run_progress, run_write,
      run_close, Compiler.extend_extend, Compiler.progress_extend, Compiler.map_extend,
      hslot, Bool.not_true, Bool.false_eq_true, if_true, if_false, List.append_nil]
  | false =>
    simp only [lowerSyscall, flushAll, StateT.run_bind, hemit, ok_bind, run_progress, run_write,
      run_close, Compiler.extend_extend, Compiler.progress_extend, Compiler.map_extend,
      hslot, Bool.not_false, Bool.false_eq_true, if_true, if_false, List.append_nil, storePc,
      storePcCode]

theorem run_lowerSlot_of_open {v : Verdict} {u : Compiler}
    (hrun : (lowerWith lowerSlotControl fetch addr).run t = .ok (v, u))
    (hopen : u.progress.isOpen = true) {e : Emitted Unit}
    (hflush : Emit.flushAll.run u.map = .ok e) :
    (lowerSlot fetch addr).run t = .ok (v, u.extend u.progress e.map e.code [] []) := by
  simp only [lowerSlot, flushAll, StateT.run_bind, hrun, ok_bind, run_isOpen, hopen, if_true,
    run_emit u hflush, run_pure]

theorem run_lowerSlot_of_closed {v : Verdict} {u : Compiler}
    (hrun : (lowerWith lowerSlotControl fetch addr).run t = .ok (v, u))
    (hclosed : u.progress.isOpen = false) : (lowerSlot fetch addr).run t = .ok (v, u) := by
  simp only [lowerSlot, StateT.run_bind, hrun, ok_bind, run_isOpen, hclosed, Bool.false_eq_true,
    if_false, run_pure]

theorem run_lowerSlotControl_syscall {e : Emitted Unit}
    (hflush : Emit.flushAll.run t.map = .ok e) (hslot : t.progress.inSlot = true) (w : InstrWord) :
    (lowerSlotControl .syscall w).run t = .ok (.ok (), t.extend
      { t.progress with isOpen := false } e.map
      (e.code ++ [.callSyscall w.bits, .exitSyscall]) [] []) := by
  simp only [lowerSlotControl, StateT.run_bind, run_lowerSyscall hflush, ok_bind, run_pure, hslot,
    if_true, List.append_nil]

theorem run_lowerControl_syscall (fetch : Word → Word) {e : Emitted Unit}
    (hflush : Emit.flushAll.run t.map = .ok e) (hslot : t.progress.inSlot = false) (w : InstrWord) :
    (lowerControl fetch .syscall w).run t = .ok (.ok (), t.extend
      { t.progress with isOpen := false } e.map
      (e.code ++ storePcCode (t.progress.pc + instrBytes) ++ [.callSyscall w.bits, .exitSyscall])
      [] []) := by
  simp only [lowerControl, StateT.run_bind, run_lowerSyscall hflush, ok_bind, run_pure, hslot,
    Bool.false_eq_true, if_false]

/-- Only a system call may stand in a slot. -/
theorem run_lowerSlotControl_of_branch {c : Control} (hc : c.hasDelaySlot = true) (w : InstrWord) :
    (lowerSlotControl c w).run t = .ok (.error (.branchInDelaySlot t.progress.pc),
      t.extend t.progress t.map [] [] [.branchRefused t.progress.pc]) := by
  cases c with
  | syscall => cases hc
  | _ =>
    simp only [lowerSlotControl, refuseBranch, StateT.run_bind, run_progress, ok_bind, run_tell,
      run_pure]

/-- Lowering a delay slot yields one of the listed outputs, and counts one instruction. -/
theorem exists_run_lowerSlot (fetch : Word → Word) (addr : Word) (hm : t.map.Idle)
    (hcount : t.progress.count < 0xffffffff)
    (hopen : t.progress.isOpen = true) (hslot : t.progress.inSlot = true) :
    ∃ r, SlotLowered fetch addr t.map r ∧ (lowerSlot fetch addr).run t =
      .ok (r.verdict, t.extend { t.progress with
        isOpen := r.isOpen
        count := t.progress.count + 1 } r.map r.code [] r.log) := by
  obtain ⟨e, hflush, -⟩ := hm.exists_run_flushAll
  cases hdecode : Instr.decode ⟨fetch addr⟩ with
  | none =>
    exact ⟨_, .unsupported hdecode,
      run_lowerSlot_of_closed (run_lowerWith_unsupported hcount hdecode) rfl⟩
  | some i =>
    cases i with
    | operation o =>
      obtain ⟨e₁, hrun, he₁⟩ := exists_run_operation hm o
      obtain ⟨e₂, hflush₂, -⟩ := he₁.idle.exists_run_flushAll
      refine ⟨_, .operation hdecode hrun hflush₂, ?_⟩
      rw [run_lowerSlot_of_open (run_lowerWith_operation hcount hdecode hrun) hopen hflush₂]
      simp only [Compiler.extend_extend, Compiler.progress_extend, List.append_nil, hopen]
    | control c =>
      by_cases hc : c.hasDelaySlot = true
      · refine ⟨_, .branch hdecode hc hflush, ?_⟩
        rw [run_lowerSlot_of_open (run_lowerWith_control hcount hdecode
          (run_lowerSlotControl_of_branch hc _)) hopen hflush]
        simp only [Compiler.extend_extend, Compiler.progress_extend, List.append_nil,
          List.nil_append, hopen]
      · cases c with
        | syscall =>
          refine ⟨_, .syscall hdecode hflush, ?_⟩
          have hcall := run_lowerSlotControl_syscall (t := t.extend { t.progress with
            pc := addr
            count := t.progress.count + 1 } t.map [] [] []) hflush hslot ⟨fetch addr⟩
          rw [run_lowerSlot_of_closed (run_lowerWith_control hcount hdecode hcall) rfl]
          simp only [Compiler.extend_extend, Compiler.progress_extend, Compiler.map_extend,
            List.append_nil, List.nil_append]
        | _ => exact absurd rfl hc

end Lowering

end MipsOnArm
