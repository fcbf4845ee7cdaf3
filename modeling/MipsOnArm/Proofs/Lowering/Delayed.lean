import MipsOnArm.Proofs.Lowering.Opening
import MipsOnArm.Proofs.Lowering.Slot

/-! The output of branches and jumps, written out. Each has an opening that stands before its delay
    slot, and code around the slot that depends on whether the slot ends the block. -/

namespace MipsOnArm
open Guest

namespace Delayed

/-- The slot of a branch with the code around it, which starts at `base`, and the exits there. -/
def aroundBranch (b : Branch) (target past : Word) (base : Nat) (r : SlotOutput) :
    List Host.Instr × List Exit :=
  let next := base + 1 + r.code.length
  match b.likely, r.isOpen with
  | true, true =>
    (.branch b.notTaken (some (next + 1)) :: (r.code ++ [.exit target 0, .exit past 1]),
      [⟨target, 0, next⟩, ⟨past, 1, next + 1⟩])
  | true, false =>
    (.branch b.notTaken (some next) :: (r.code ++ [.exit past 1]), [⟨past, 1, next⟩])
  | false, true =>
    (.saveFlags Host.Reg.savedFlags :: (r.code ++ [.restoreFlags Host.Reg.savedFlags,
        .branch b.notTaken (some (next + 3)), .exit target 0, .exit past 1]),
      [⟨target, 0, next + 2⟩, ⟨past, 1, next + 3⟩])
  | false, false => (.saveFlags Host.Reg.savedFlags :: r.code, [])

/-- The delay slot with the code around it, which starts at `base`, and the exits there. -/
def around (pc : Word) (base : Nat) (r : SlotOutput) : Delayed → List Host.Instr × List Exit
  | branch b target => aroundBranch b target (pc + delaySlotSkip) base r
  | jump link target =>
    if r.isOpen then
      (r.code ++ returnCode pc link ++ [.exit target 0],
        [⟨target, 0, base + (r.code ++ returnCode pc link).length⟩])
    else (r.code, [])
  | jumpReg link _ =>
    (if r.isOpen then r.code ++ returnCode pc link ++ [.exitToReg Host.Reg.jumpDest] else r.code,
      [])

theorem bound_around (d : Delayed) (pc : Word) (base : Nat) {r : SlotOutput}
    (hr : Host.Bound r.code) : Host.Bound (d.around pc base r).1 := by
  have hreturn : ∀ link, Host.Bound (returnCode pc link) :=
    fun link => (listed_returnCode [] pc link).bound
  cases d with
  | branch b target =>
    cases hl : b.likely <;> cases ho : r.isOpen <;>
      simp only [around, aroundBranch, hl, ho, Host.bound_cons, Host.bound_append, hr,
        Host.bound_nil, Host.Code.waits, and_self]
  | jump link target =>
    cases ho : r.isOpen <;>
      simp only [around, ho, Bool.false_eq_true, if_true, if_false, Host.bound_cons,
        Host.bound_append, hr, hreturn, Host.bound_nil, Host.Code.waits, and_self]
  | jumpReg link rs =>
    cases ho : r.isOpen <;>
      simp only [around, ho, Bool.false_eq_true, if_true, if_false, Host.bound_cons,
        Host.bound_append, hr, hreturn, Host.bound_nil, Host.Code.waits, and_self]

/-- The event that reports the instruction, whose slot holds `slot`. -/
def notice (pc : Word) (slot : InstrWord) : Delayed → List Event
  | branch b _ => [.slotInspected pc slot (b.comparison.survives slot) b.comparison]
  | jump _ _ => []
  | jumpReg _ rs => [.registerJump pc rs (slot.written? ≠ some rs)]

end Delayed

/-- Only a conditional branch is lowered as one. -/
theorem Guest.Control.branch?_of_delayed {c : Control} {w : InstrWord} {pc target : Word}
    {b : Branch} (hd : c.delayed? w pc = some (.branch b target)) :
    c.branch? w = some b ∧ w.branchTarget pc = target := by
  cases c <;> simp_all [Control.delayed?]

theorem Guest.Control.eq_jump_of_delayed {c : Control} {w : InstrWord} {pc target : Word}
    {link : Option Reg} (hd : c.delayed? w pc = some (.jump link target)) :
    ∃ l, c = .jump l ∧ (if l then some Reg.ra else none) = link ∧ w.jumpTarget pc = target := by
  cases c <;> simp_all [Control.delayed?]

theorem Guest.Control.eq_jumpReg_of_delayed {c : Control} {w : InstrWord} {pc : Word} {rs : Reg}
    {link : Option Reg} (hd : c.delayed? w pc = some (.jumpReg link rs)) :
    ∃ l, c = .jumpReg l ∧ (if l then some w.rd else none) = link ∧ w.rs = rs := by
  cases c <;> simp_all [Control.delayed?]

namespace Lowering

variable {fetch : Word → Word} {t : Compiler}

/-- The end of a branch, behind its slot. -/
def branchEnd (pc target : Word) (verdict : Verdict) (fixup? : Option Host.Fixup) :
    Lowering Verdict := do
  closeSlot
  if ← isOpen then leaveTo target 0
  if let some fixup := fixup? then
    patch fixup
    leaveTo (pc + delaySlotSkip) 1
  close
  return verdict

/-- What is left of a branch behind its opening. -/
def branchRest (fetch : Word → Word) (b : Branch) (pc target : Word) : Lowering Verdict := do
  let slot ← openSlot
  let (verdict, fixup?) ← if b.likely then likelySlot fetch b slot else plainSlot fetch b slot
  branchEnd pc target verdict fixup?

theorem lowerBranch_eq (fetch : Word → Word) (w : InstrWord) (b : Branch) :
    lowerBranch fetch w b = (do
      let pc := (← progress).pc
      let slotWord : InstrWord := ⟨fetch (pc + instrBytes)⟩
      let target := w.branchTarget pc
      tell (.slotInspected pc slotWord (b.comparison.survives slotWord) b.comparison)
      emit ((Delayed.branch b target).opening pc (slotEndsBlock fetch pc))
      branchRest fetch b pc target) := by
  simp only [Delayed.opening, emit_bind, bind_assoc, emit_write]
  refine congrArg (progress >>= ·) (funext fun p => ?_)
  show (tell _ >>= _) = _
  refine congrArg (tell _ >>= ·) (funext fun _ => ?_)
  refine congrArg (emit _ >>= ·) (funext fun _ => ?_)
  refine congrArg (flushAll >>= ·) (funext fun _ => ?_)
  cases slotEndsBlock fetch p.pc with
  | true => rfl
  | false => rw [if_neg Bool.false_ne_true, if_neg Bool.false_ne_true, write_nil, pure_bind]; rfl

theorem lowerControl_of_branch (fetch : Word → Word) {c : Control} {w : InstrWord} {b : Branch}
    (hb : c.branch? w = some b) :
    lowerControl fetch c w = admitted (lowerBranch fetch w b) := by
  cases c with
  | jump | jumpReg | syscall => cases hb
  | _ => cases hb; rfl

/-- What is left of a jump behind its opening. -/
def jumpRest (fetch : Word → Word) (pc : Word) (link : Bool) (r : Reg) (leave : Lowering Unit) :
    Lowering Verdict := do
  let slot ← openSlot
  let verdict ← lowerSlot fetch slot
  closeSlot
  if ← isOpen then
    if link then storeReturn r pc
    leave
  close
  return verdict

theorem lowerJump_eq (fetch : Word → Word) (w : InstrWord) (link : Bool) :
    lowerJump fetch w link = (do
      let pc := (← progress).pc
      let target := w.jumpTarget pc
      emit ((Delayed.jump (if link then some Reg.ra else none) target).opening pc
        (slotEndsBlock fetch pc))
      jumpRest fetch pc link Reg.ra (leaveTo target 0)) := by
  refine congrArg (progress >>= ·) (funext fun p => ?_)
  simp only [Delayed.opening]
  cases slotEndsBlock fetch p.pc with
  | false => rw [if_neg Bool.false_ne_true, if_neg Bool.false_ne_true, emit_pure, pure_bind]; rfl
  | true =>
    simp only [if_true, emit_bind, emit_write, write_append, bind_assoc]
    refine congrArg (flushAll >>= ·) (funext fun _ => ?_)
    refine congrArg (write _ >>= ·) (funext fun _ => ?_)
    cases link with
    | false =>
      simp only [Bool.false_eq_true, if_false, returnCode, write_nil, pure_bind]
      rfl
    | true =>
      simp only [if_true, ← storeReturn_eq]
      rfl

theorem lowerJumpReg_eq (fetch : Word → Word) (w : InstrWord) (link : Bool) :
    lowerJumpReg fetch w link = (do
      let pc := (← progress).pc
      let slotWord : InstrWord := ⟨fetch (pc + instrBytes)⟩
      tell (.registerJump pc w.rs (slotWord.written? ≠ some w.rs))
      emit ((Delayed.jumpReg (if link then some w.rd else none) w.rs).opening pc
        (slotEndsBlock fetch pc))
      jumpRest fetch pc link w.rd (leaveToReg Host.Reg.jumpDest)) := by
  simp only [Delayed.opening, emit_bind, bind_assoc, emit_write]
  refine congrArg (progress >>= ·) (funext fun p => ?_)
  show (tell _ >>= _) = _
  refine congrArg (tell _ >>= ·) (funext fun _ => ?_)
  refine congrArg (emit _ >>= ·) (funext fun src => ?_)
  refine congrArg (write _ >>= ·) (funext fun _ => ?_)
  refine congrArg (flushAll >>= ·) (funext fun _ => ?_)
  cases link with
  | false =>
    simp only [Bool.false_and, Bool.false_eq_true, if_false, returnCode, ite_self, write_nil,
      pure_bind]
    rfl
  | true =>
    cases slotEndsBlock fetch p.pc with
    | false =>
      simp only [Bool.and_false, Bool.false_eq_true, if_false, write_nil, pure_bind]
      rfl
    | true =>
      simp only [Bool.and_self, if_true, ← storeReturn_eq]
      rfl

section
variable (fetch : Word → Word) (addr : Word) (hm : t.map.Idle)
  (hcount : t.progress.count < 0xffffffff) (hopen : t.progress.isOpen = true)
  (hslot : t.progress.inSlot = true) (hflags : t.progress.flagsSaved = false) (b : Branch)
include hm hcount hopen hslot

theorem exists_run_likelySlot :
    ∃ r, SlotLowered fetch addr t.map r ∧ (likelySlot fetch b addr).run t =
      .ok ((r.verdict, some ⟨t.code.size⟩), t.extend { t.progress with
        isOpen := r.isOpen
        count := t.progress.count + 1 } r.map (.branch b.notTaken none :: r.code) [] r.log) := by
  obtain ⟨r, hr, hrun⟩ := exists_run_lowerSlot fetch addr
    (t := t.extend t.progress t.map [.branch b.notTaken none] [] []) hm hcount hopen hslot
  refine ⟨r, hr, ?_⟩
  simp only [likelySlot, StateT.run_bind, run_forwardBranch, ok_bind, hrun, run_pure,
    Compiler.extend_extend, Compiler.progress_extend, List.nil_append, List.cons_append]

include hflags in
theorem exists_run_plainSlot :
    ∃ r, SlotLowered fetch addr t.map r ∧ (plainSlot fetch b addr).run t =
      .ok ((r.verdict, if r.isOpen then some ⟨t.code.size + (r.code.length + 2)⟩ else none),
        t.extend { t.progress with
          isOpen := r.isOpen
          count := t.progress.count + 1 } r.map
          (.saveFlags Host.Reg.savedFlags :: (r.code ++ if r.isOpen then
            [.restoreFlags Host.Reg.savedFlags, .branch b.notTaken none] else [])) [] r.log) := by
  obtain ⟨r, hr, hrun⟩ := exists_run_lowerSlot fetch addr
    (t := t.extend { t.progress with flagsSaved := true } t.map
      [.saveFlags Host.Reg.savedFlags] [] []) hm hcount hopen hslot
  refine ⟨r, hr, ?_⟩
  cases hr' : r.isOpen with
  | true =>
    simp only [plainSlot, StateT.run_bind, run_saveFlags t hflags, ok_bind, hrun, run_isOpen, hr',
      run_restoreFlags, run_forwardBranch, run_pure, if_true, Compiler.extend_extend,
      Compiler.progress_extend, Compiler.map_extend, Compiler.size_code_extend]
    simp only [hflags, List.length_append, List.length_cons, List.length_nil, List.nil_append,
      List.append_nil, List.cons_append, List.append_assoc]
  | false =>
    simp only [plainSlot, StateT.run_bind, run_saveFlags t hflags, ok_bind, hrun, run_isOpen, hr',
      run_dropFlags, run_pure, Bool.false_eq_true, if_false, Compiler.extend_extend,
      Compiler.progress_extend, Compiler.map_extend, List.append_nil]
    simp only [hflags, List.nil_append, List.cons_append]

end

theorem run_branchEnd_of_closed (t : Compiler) (hclosed : t.progress.isOpen = false)
    (hslot : t.progress.inSlot = true) (hflags : t.progress.flagsSaved = false) (pc target : Word)
    (v : Verdict) :
    (branchEnd pc target v none).run t =
      .ok (v, t.extend { t.progress with isOpen := false, inSlot := false } t.map [] [] []) := by
  simp only [branchEnd, StateT.run_bind, run_closeSlot t hslot hflags, ok_bind, run_isOpen,
    hclosed, Bool.false_eq_true, if_false, run_close, run_pure, Compiler.extend_extend,
    Compiler.progress_extend, Compiler.map_extend, List.append_nil]

/-- A waiting branch is patched to reach the exit that lies past it. -/
theorem run_branchEnd_of_fixup {p : Progress} (hslot : p.inSlot = true)
    (hflags : p.flagsSaved = false) {m : RegisterMap} (hm : m.Flushed) (pc target : Word)
    (v : Verdict) (before after : List Host.Instr) (cond : Host.Cond) (log : List Event) :
    (branchEnd pc target v (some ⟨t.code.size + before.length⟩)).run
        (t.extend p m (before ++ .branch cond none :: after) [] log) =
      let next := t.code.size + before.length + 1 + after.length
      let past : Word := pc + delaySlotSkip
      .ok (v, if p.isOpen then
        t.extend { p with isOpen := false, inSlot := false } m
          (before ++ .branch cond (some (next + 1)) :: after ++ [.exit target 0, .exit past 1])
          [⟨target, 0, next⟩, ⟨past, 1, next + 1⟩] log
      else
        t.extend { p with isOpen := false, inSlot := false } m
          (before ++ .branch cond (some next) :: after ++ [.exit past 1])
          [⟨past, 1, next⟩] log) := by
  have hclose := run_closeSlot (t.extend p m (before ++ .branch cond none :: after) [] log) hslot
    hflags
  have hleave := fun q is xs es dest slot =>
    run_leaveTo (t.extend q m is xs es) hm dest slot
  cases hopen : p.isOpen with
  | true =>
    have hpatch := fun q xs => run_patch t q m before (after ++ [.exit target 0]) cond xs log
    simp only [branchEnd, StateT.run_bind, hclose, ok_bind, run_isOpen, run_close, run_pure, hleave,
      hpatch, hopen, if_true, Compiler.extend_extend, Compiler.progress_extend,
      Compiler.map_extend, Compiler.size_code_extend, List.append_nil, List.nil_append,
      List.append_assoc, List.cons_append, List.length_append, List.length_cons, List.length_nil,
      Nat.add_assoc, Nat.add_comm 1, Nat.zero_add]
  | false =>
    have hpatch := fun q xs => run_patch t q m before after cond xs log
    simp only [branchEnd, StateT.run_bind, hclose, ok_bind, run_isOpen, run_close, run_pure, hleave,
      hpatch, hopen, Bool.false_eq_true, if_false, Compiler.extend_extend, Compiler.progress_extend,
      Compiler.map_extend, Compiler.size_code_extend, List.append_nil, List.nil_append,
      List.append_assoc, List.cons_append, List.length_append, List.length_cons, Nat.add_assoc,
      Nat.add_comm 1]

section
variable (fetch : Word → Word) (hm : t.map.Idle) (hflushed : t.map.Flushed)
  (hcount : t.progress.count < 0xffffffff) (hopen : t.progress.isOpen = true)
  (hslot : t.progress.inSlot = false) (hflags : t.progress.flagsSaved = false) {b : Branch}
  (target : Word)
include hm hflushed hcount hopen hslot hflags

/-- A likely branch is completed behind its opening: the branch past the slot, and the exits. -/
theorem exists_run_branchRest_of_likely (hl : b.likely = true) :
    ∃ r, SlotLowered fetch (t.progress.pc + instrBytes) t.map r ∧
      (branchRest fetch b t.progress.pc target).run t =
        let out := Delayed.aroundBranch b target (t.progress.pc + delaySlotSkip) t.code.size r
        .ok (r.verdict, t.extend { t.progress with
          isOpen := false
          count := t.progress.count + 1 } r.map out.1 out.2 r.log) := by
  have hopenSlot := run_openSlot t hslot
  obtain ⟨r, hr, hrun⟩ := exists_run_likelySlot fetch (t.progress.pc + instrBytes)
    (t := t.extend { t.progress with inSlot := true } t.map [] [] []) hm hcount hopen rfl b
  refine ⟨r, hr, ?_⟩
  have hrflushed : r.map.Flushed := (hr.idle hm).2.2 (.inr (.inr hflushed))
  have hend := run_branchEnd_of_fixup (t := t) (p := { t.progress with
    isOpen := r.isOpen
    inSlot := true
    count := t.progress.count + 1 }) rfl hflags hrflushed t.progress.pc target r.verdict [] r.code
    b.notTaken r.log
  simp only [Compiler.extend_extend, Compiler.progress_extend, Compiler.size_code_extend,
    List.length_nil, Nat.add_zero, List.nil_append] at hrun hend
  simp only [branchRest, StateT.run_bind, hopenSlot, ok_bind, hl, if_true, hrun]
  rw [hend]
  cases hr' : r.isOpen <;>
    simp only [Delayed.aroundBranch, hl, hr', hslot, Bool.false_eq_true, if_true, if_false,
      List.cons_append]

/-- A plain branch is completed behind its opening: the slot, the branch, and the exits. -/
theorem exists_run_branchRest_of_plain (hl : b.likely = false) :
    ∃ r, SlotLowered fetch (t.progress.pc + instrBytes) t.map r ∧
      (branchRest fetch b t.progress.pc target).run t =
        let out := Delayed.aroundBranch b target (t.progress.pc + delaySlotSkip) t.code.size r
        .ok (r.verdict, t.extend { t.progress with
          isOpen := false
          count := t.progress.count + 1 } r.map out.1 out.2 r.log) := by
  have hopenSlot := run_openSlot t hslot
  obtain ⟨r, hr, hrun⟩ := exists_run_plainSlot fetch (t.progress.pc + instrBytes)
    (t := t.extend { t.progress with inSlot := true } t.map [] [] []) hm hcount hopen rfl hflags b
  refine ⟨r, hr, ?_⟩
  have hrflushed : r.map.Flushed := (hr.idle hm).2.2 (.inr (.inr hflushed))
  simp only [branchRest, StateT.run_bind, hopenSlot, ok_bind, hl, Bool.false_eq_true, if_false,
    hrun, Compiler.extend_extend, Compiler.progress_extend, Compiler.size_code_extend,
    List.length_nil, Nat.add_zero, List.nil_append]
  cases hr' : r.isOpen with
  | true =>
    have hend := run_branchEnd_of_fixup (t := t) (p := { t.progress with
      isOpen := true
      inSlot := true
      count := t.progress.count + 1 }) rfl hflags hrflushed t.progress.pc target r.verdict
      (.saveFlags Host.Reg.savedFlags :: (r.code ++ [.restoreFlags Host.Reg.savedFlags])) []
      b.notTaken r.log
    simp only [List.length_cons, List.length_append, List.length_nil, List.cons_append,
      List.append_assoc, List.nil_append] at hend
    simp only [if_true, hend]
    rw [show t.code.size + (r.code.length + (0 + 1) + 1) + 1 + 0 =
      t.code.size + 1 + r.code.length + 2 by omega]
    simp only [Delayed.aroundBranch, hl, hr', hslot]
  | false =>
    have hend := run_branchEnd_of_closed (t.extend { t.progress with
      isOpen := false
      inSlot := true
      count := t.progress.count + 1 } r.map (.saveFlags Host.Reg.savedFlags :: r.code) [] r.log)
      rfl rfl hflags t.progress.pc target r.verdict
    simp only [Compiler.extend_extend, Compiler.progress_extend, Compiler.map_extend,
      List.append_nil] at hend
    simp only [Bool.false_eq_true, if_false, List.append_nil, hend, Delayed.aroundBranch, hl, hr',
      hslot]

theorem exists_run_branchRest (b : Branch) :
    ∃ r, SlotLowered fetch (t.progress.pc + instrBytes) t.map r ∧
      (branchRest fetch b t.progress.pc target).run t =
        let out := Delayed.aroundBranch b target (t.progress.pc + delaySlotSkip) t.code.size r
        .ok (r.verdict, t.extend { t.progress with
          isOpen := false
          count := t.progress.count + 1 } r.map out.1 out.2 r.log) := by
  cases hl : b.likely with
  | true => exact exists_run_branchRest_of_likely fetch hm hflushed hcount hopen hslot hflags _ hl
  | false => exact exists_run_branchRest_of_plain fetch hm hflushed hcount hopen hslot hflags _ hl

end

/-- A jump is completed behind its opening: the slot, the return address, and the way out. -/
theorem exists_run_jumpRest (fetch : Word → Word) (hm : t.map.Idle)
    (hcount : t.progress.count < 0xffffffff)
    (hopen : t.progress.isOpen = true) (hslot : t.progress.inSlot = false)
    (hflags : t.progress.flagsSaved = false) (link : Bool) (q : Reg) {leave : Lowering Unit}
    {out : Host.Instr} (exits : Nat → List Exit)
    (hleave : ∀ u : Compiler, u.map.Flushed → leave.run u =
      .ok ((), u.extend u.progress u.map [out] (exits u.code.size) [])) :
    ∃ r, SlotLowered fetch (t.progress.pc + instrBytes) t.map r ∧
      (jumpRest fetch t.progress.pc link q leave).run t =
        let code := r.code ++ returnCode t.progress.pc (if link then some q else none)
        let after := { t.progress with isOpen := false, count := t.progress.count + 1 }
        .ok (r.verdict, if r.isOpen then
          t.extend after r.map (code ++ [out]) (exits (t.code.size + code.length)) r.log
        else t.extend after r.map r.code [] r.log) := by
  obtain ⟨r, hr, hrun⟩ := exists_run_lowerSlot fetch (t.progress.pc + instrBytes)
    (t := t.extend { t.progress with inSlot := true } t.map [] [] []) hm hcount hopen rfl
  refine ⟨r, hr, ?_⟩
  have hclose := run_closeSlot (t.extend { t.progress with
    isOpen := r.isOpen
    inSlot := true
    count := t.progress.count + 1 } r.map r.code [] r.log) rfl hflags
  simp only [Compiler.extend_extend, Compiler.progress_extend, Compiler.map_extend,
    List.nil_append, List.append_nil] at hrun hclose
  simp only [jumpRest, StateT.run_bind, run_openSlot t hslot, ok_bind, hrun, hclose, run_isOpen,
    Compiler.progress_extend]
  cases hr' : r.isOpen with
  | false =>
    simp only [Bool.false_eq_true, if_false, StateT.run_bind, run_close, run_pure, ok_bind,
      Compiler.extend_extend, Compiler.progress_extend, Compiler.map_extend, List.append_nil, hslot]
  | true =>
    have hrflushed : r.map.Flushed := (hr.idle hm).2.2 (.inl hr')
    have hleave' := fun p code => hleave (t.extend p r.map code [] r.log) hrflushed
    simp only [Compiler.extend_extend, Compiler.progress_extend, Compiler.map_extend,
      Compiler.size_code_extend, List.nil_append, List.append_nil] at hleave'
    cases link with
    | true =>
      simp only [if_true, StateT.run_bind, storeReturn_eq, run_write, run_close, run_pure, ok_bind,
        hleave', Compiler.extend_extend, Compiler.progress_extend, Compiler.map_extend,
        List.append_nil, hslot]
    | false =>
      simp only [Bool.false_eq_true, if_true, if_false, StateT.run_bind, run_close, run_pure,
        ok_bind, hleave', returnCode, Compiler.extend_extend, Compiler.progress_extend,
        Compiler.map_extend, List.append_nil, hslot]

/-- Outside a slot a branch or jump is let in. -/
theorem run_admitted (hslot : t.progress.inSlot = false) (body : Lowering Verdict) :
    (admitted body).run t = body.run t := by
  simp only [admitted, StateT.run_bind, run_progress, ok_bind, Progress.admitBranch, hslot,
    Bool.false_eq_true, if_false]

/-- A branch or jump outside a slot is lowered to its opening and the code around its slot. -/
theorem exists_run_delayed (fetch : Word → Word) (hm : t.map.Idle)
    (hcount : t.progress.count < 0xffffffff)
    (hopen : t.progress.isOpen = true) (hslot : t.progress.inSlot = false)
    (hflags : t.progress.flagsSaved = false) {c : Control} {w : InstrWord} {d : Delayed}
    (hd : c.delayed? w t.progress.pc = some d) :
    ∃ e r, (d.opening t.progress.pc (slotEndsBlock fetch t.progress.pc)).run t.map = .ok e ∧
      SlotLowered fetch (t.progress.pc + instrBytes) e.map r ∧
      (lowerControl fetch c w).run t =
        let out := d.around t.progress.pc (t.code.size + e.code.length) r
        .ok (r.verdict, t.extend { t.progress with
          isOpen := false
          count := t.progress.count + 1 } r.map (e.code ++ out.1) out.2
          (d.notice t.progress.pc ⟨fetch (t.progress.pc + instrBytes)⟩ ++ r.log)) := by
  obtain ⟨e, hrun, he⟩ := d.exists_run_opening hm t.progress.pc (slotEndsBlock fetch t.progress.pc)
  have hemit := fun es => run_emit (t.extend t.progress t.map [] [] es) hrun
  simp only [Compiler.extend_extend, Compiler.progress_extend, List.nil_append,
    List.append_nil] at hemit
  cases d with
  | branch b target =>
    obtain ⟨hb, rfl⟩ := Control.branch?_of_delayed hd
    obtain ⟨r, hr, hrest⟩ := exists_run_branchRest fetch
      (t := t.extend t.progress e.map e.code [] [.slotInspected t.progress.pc
        ⟨fetch (t.progress.pc + instrBytes)⟩
        (b.comparison.survives ⟨fetch (t.progress.pc + instrBytes)⟩) b.comparison])
      he.idle (he.flushed (.inr nofun)) hcount hopen hslot hflags (w.branchTarget t.progress.pc) b
    simp only [Compiler.extend_extend, Compiler.progress_extend, Compiler.size_code_extend,
      List.nil_append] at hrest
    refine ⟨e, r, hrun, hr, ?_⟩
    rw [lowerControl_of_branch fetch hb, run_admitted hslot, lowerBranch_eq]
    simp only [StateT.run_bind, run_progress, run_tell, ok_bind, hemit, hrest]
    rfl
  | jump link target =>
    obtain ⟨l, rfl, rfl, rfl⟩ := Control.eq_jump_of_delayed hd
    obtain ⟨r, hr, hrest⟩ := exists_run_jumpRest fetch
      (t := t.extend t.progress e.map e.code [] []) he.idle hcount hopen hslot hflags l Reg.ra
      (fun n => [⟨w.jumpTarget t.progress.pc, 0, n⟩])
      (fun u hu => run_leaveTo u hu (w.jumpTarget t.progress.pc) 0)
    refine ⟨e, r, hrun, hr, ?_⟩
    simp only [Compiler.extend_extend, Compiler.progress_extend, Compiler.size_code_extend,
      List.nil_append] at hrest
    rw [lowerControl, run_admitted hslot, lowerJump_eq]
    simp only [StateT.run_bind, run_progress, ok_bind, run_emit t hrun, hrest]
    cases hr' : r.isOpen <;>
      simp only [Delayed.around, Delayed.notice, hr', Bool.false_eq_true, if_true, if_false,
        List.nil_append]
  | jumpReg link rs =>
    obtain ⟨l, rfl, rfl, rfl⟩ := Control.eq_jumpReg_of_delayed hd
    obtain ⟨r, hr, hrest⟩ := exists_run_jumpRest fetch
      (t := t.extend t.progress e.map e.code [] [.registerJump t.progress.pc w.rs
        (InstrWord.written? ⟨fetch (t.progress.pc + instrBytes)⟩ ≠ some w.rs)])
      he.idle hcount hopen hslot hflags l w.rd (fun _ => [])
      (fun u hu => run_leaveToReg u hu Host.Reg.jumpDest)
    refine ⟨e, r, hrun, hr, ?_⟩
    simp only [Compiler.extend_extend, Compiler.progress_extend, List.nil_append] at hrest
    rw [lowerControl, run_admitted hslot, lowerJumpReg_eq]
    simp only [StateT.run_bind, run_progress, run_tell, ok_bind, hemit, hrest]
    cases hr' : r.isOpen <;>
      simp only [Delayed.around, Delayed.notice, hr', Bool.false_eq_true, if_true, if_false]

end Lowering

end MipsOnArm
