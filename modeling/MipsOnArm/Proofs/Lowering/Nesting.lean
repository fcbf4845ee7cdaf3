import MipsOnArm.Proofs.Lowering.Ensures
import MipsOnArm.Proofs.Lowering.Faultless

/-! How deep lowering nests. The instruction in a delay slot is lowered as any other instruction is,
    so lowering calls itself there. With that call left open, a control instruction makes it once at
    most, with the slot open; and with the slot open it makes none. So two levels are all there are,
    whatever memory holds. -/

namespace MipsOnArm
open Guest Lowering

/-! ### A branch or jump around its slot -/

namespace Delayed

/-- Everything up to the instruction in the slot: the address of that instruction, and the branch
    that waits for its target if there is one by then. -/
def enter (fetch : Word → Word) (pc : Word) : Delayed → Lowering (Word × Option Host.Fixup)
  | branch b target => do
    let slotWord : InstrWord := ⟨fetch (pc + instrBytes)⟩
    tell (.slotInspected pc slotWord (b.comparison.survives slotWord) b.comparison)
    emit ((branch b target).opening pc (slotEndsBlock fetch pc))
    let slot ← openSlot
    if b.likely then
      let fixup ← forwardBranch b.notTaken
      return (slot, some fixup)
    else
      saveFlags
      return (slot, none)
  | jump link target => do
    emit ((jump link target).opening pc (slotEndsBlock fetch pc))
    let slot ← openSlot
    return (slot, none)
  | jumpReg link rs => do
    let slotWord : InstrWord := ⟨fetch (pc + instrBytes)⟩
    tell (.registerJump pc rs (slotWord.written? ≠ some rs))
    emit ((jumpReg link rs).opening pc (slotEndsBlock fetch pc))
    let slot ← openSlot
    return (slot, none)

/-- The end of a jump, behind its slot. -/
def jumpEnd (pc : Word) (link : Option Reg) (out : Lowering Unit) (verdict : Verdict) :
    Lowering Verdict := do
  closeSlot
  if ← isOpen then
    write (returnCode pc link)
    out
  close
  return verdict

/-- Everything behind the slot. -/
def leave (pc : Word) (fixup? : Option Host.Fixup) (verdict : Verdict) :
    Delayed → Lowering Verdict
  | branch b target => do
    if b.likely then branchEnd pc target verdict fixup?
    else if ← isOpen then
      restoreFlags
      let fixup ← forwardBranch b.notTaken
      branchEnd pc target verdict (some fixup)
    else
      dropFlags
      branchEnd pc target verdict none
  | jump link target => jumpEnd pc link (leaveTo target 0) verdict
  | jumpReg link _ => jumpEnd pc link (leaveToReg Host.Reg.jumpDest) verdict

end Delayed

/-- Lowers the instruction in a delay slot by `nested`, and writes all registers back unless it has
    ended the block. -/
def Lowering.slotVia (nested : Word → Lowering Verdict) (slot : Word) : Lowering Verdict := do
  let verdict ← nested slot
  if ← isOpen then flushAll
  return verdict

/-- The branch or jump at `pc`, with the instruction in its slot left to `nested`. -/
def Delayed.via (nested : Word → Lowering Verdict) (fetch : Word → Word) (pc : Word)
    (d : Delayed) : Lowering Verdict := do
  let (slot, fixup?) ← d.enter fetch pc
  let verdict ← slotVia nested slot
  d.leave pc fixup? verdict

namespace Lowering

/-- Lowers a control instruction, leaving the instruction in its slot to `nested`. -/
def controlVia (nested : Word → Lowering Verdict) (fetch : Word → Word) (c : Control)
    (w : InstrWord) : Lowering Verdict := do
  let pc := (← progress).pc
  match c.delayed? w pc with
  | none =>
    lowerSyscall w
    return .ok ()
  | some d => admitted (d.via nested fetch pc)

/-- Lowers the instruction at an address, leaving the instruction in its slot to `nested`. -/
def instrVia (nested : Word → Lowering Verdict) (fetch : Word → Word) (addr : Word) :
    Lowering Verdict :=
  lowerWith (controlVia nested fetch) fetch addr

end Lowering

/-! ### With only a system call allowed in the slot -/

namespace Delayed

variable (fetch : Word → Word)

/-- The slot of a branch is lowered in one place, whether it may be skipped or not. -/
theorem via_branch (b : Branch) (pc target : Word) :
    (branch b target).via (lowerWith lowerSlotControl fetch) fetch pc = (do
      let slotWord : InstrWord := ⟨fetch (pc + instrBytes)⟩
      tell (.slotInspected pc slotWord (b.comparison.survives slotWord) b.comparison)
      emit ((branch b target).opening pc (slotEndsBlock fetch pc))
      branchRest fetch b pc target) := by
  simp only [via, enter, branchRest, bind_assoc]
  refine congrArg (tell _ >>= ·) (funext fun _ => ?_)
  refine congrArg (emit _ >>= ·) (funext fun _ => ?_)
  refine congrArg (openSlot >>= ·) (funext fun slot => ?_)
  cases hl : b.likely with
  | true =>
    simp only [if_true, likelySlot, leave, hl, bind_assoc, pure_bind]
    rfl
  | false =>
    simp only [Bool.false_eq_true, if_false, plainSlot, leave, hl, bind_assoc, pure_bind]
    refine congrArg (saveFlags >>= ·) (funext fun _ => ?_)
    refine congrArg (lowerSlot fetch slot >>= ·) (funext fun verdict => ?_)
    refine congrArg (isOpen >>= ·) (funext fun o => ?_)
    cases o with
    | true => simp only [if_true, bind_assoc, pure_bind]
    | false => simp only [Bool.false_eq_true, if_false, bind_assoc, pure_bind]

/-- The end of a jump writes the return address if one is wanted. -/
theorem jumpRest_eq (pc : Word) (link : Bool) (r : Reg) (out : Lowering Unit) :
    jumpRest fetch pc link r out = (do
      let slot ← openSlot
      let verdict ← slotVia (lowerWith lowerSlotControl fetch) slot
      jumpEnd pc (if link then some r else none) out verdict) := by
  simp only [jumpRest, jumpEnd]
  refine congrArg (openSlot >>= ·) (funext fun slot => ?_)
  refine congrArg (lowerSlot fetch slot >>= ·) (funext fun verdict => ?_)
  refine congrArg (closeSlot >>= ·) (funext fun _ => ?_)
  refine congrArg (isOpen >>= ·) (funext fun o => ?_)
  cases o with
  | false => rfl
  | true =>
    cases link with
    | false =>
      simp only [if_true, Bool.false_eq_true, if_false, returnCode, write_nil, pure_bind]
    | true => simp only [if_true, ← storeReturn_eq]

end Delayed

namespace Lowering

variable {nested other : Word → Lowering Verdict} {fetch : Word → Word} {t : Compiler}
  {c : Control} {w : InstrWord}

/-- With a slot open every branch or jump is refused. -/
theorem run_admitted_of_inSlot (hslot : t.progress.inSlot = true) (x : Lowering Verdict) :
    (admitted x).run t = refuseBranch.run t := by
  simp only [admitted, StateT.run_bind, run_progress, ok_bind, Progress.admitBranch, hslot, if_true]

/-- Two branches or jumps are lowered alike if they are where both are let in. -/
theorem run_admitted_congr {x y : Lowering Verdict}
    (h : t.progress.inSlot = false → x.run t = y.run t) :
    (admitted x).run t = (admitted y).run t := by
  cases hslot : t.progress.inSlot with
  | false => rw [run_admitted hslot, run_admitted hslot, h hslot]
  | true => rw [run_admitted_of_inSlot hslot, run_admitted_of_inSlot hslot]

/-- A control instruction is lowered with only a system call allowed in its slot. -/
theorem lowerControl_eq (fetch : Word → Word) :
    lowerControl fetch = controlVia (lowerWith lowerSlotControl fetch) fetch := by
  funext c w t
  show (lowerControl fetch c w).run t = (controlVia _ fetch c w).run t
  rw [controlVia, StateT.run_bind, run_progress, ok_bind]
  dsimp only
  cases hd : c.delayed? w t.progress.pc with
  | none =>
    cases c with
    | syscall => rfl
    | _ => cases hd
  | some d =>
    cases d with
    | branch b target =>
      obtain ⟨hb, rfl⟩ := Control.branch?_of_delayed hd
      rw [lowerControl_of_branch fetch hb]
      refine run_admitted_congr fun _ => ?_
      rw [Delayed.via_branch, lowerBranch_eq, StateT.run_bind, run_progress, ok_bind]
    | jump link target =>
      obtain ⟨l, rfl, rfl, rfl⟩ := Control.eq_jump_of_delayed hd
      refine run_admitted_congr fun _ => ?_
      rw [lowerJump_eq, Delayed.via, Delayed.enter, StateT.run_bind, run_progress, ok_bind]
      simp only [Delayed.jumpRest_eq, Delayed.leave, bind_assoc, pure_bind]
    | jumpReg link rs =>
      obtain ⟨l, rfl, rfl, rfl⟩ := Control.eq_jumpReg_of_delayed hd
      refine run_admitted_congr fun _ => ?_
      rw [lowerJumpReg_eq, Delayed.via, Delayed.enter, StateT.run_bind, run_progress, ok_bind]
      simp only [Delayed.jumpRest_eq, Delayed.leave, bind_assoc, pure_bind]

/-! ### With the slot open -/

/-- A control instruction in a slot makes no call for a slot of its own. -/
theorem run_controlVia_of_inSlot (hslot : t.progress.inSlot = true) :
    (controlVia nested fetch c w).run t = (lowerSlotControl c w).run t := by
  rw [controlVia, StateT.run_bind, run_progress, ok_bind]
  dsimp only
  cases c with
  | syscall => rfl
  | _ => exact run_admitted_of_inSlot hslot _

theorem run_instrVia_of_inSlot (hslot : t.progress.inSlot = true) (addr : Word) :
    (instrVia nested fetch addr).run t = (lowerWith lowerSlotControl fetch addr).run t := by
  by_cases hcount : t.progress.count < 0xffffffff
  · simp only [instrVia, lowerWith, StateT.run_bind, run_progress, ok_bind,
      run_enterInstr t hcount]
    cases Instr.decode ⟨fetch addr⟩ with
    | none => rfl
    | some i =>
      cases i with
      | operation o => rfl
      | control c =>
        dsimp only
        rw [StateT.run_bind, StateT.run_bind]
        exact congrArg (· >>= _) (run_controlVia_of_inSlot hslot)
  · simp only [instrVia, lowerWith, enterInstr, StateT.run_bind, run_progress, ok_bind,
      if_neg hcount]
    rfl

end Lowering

/-! ### One call -/

namespace Lowering

variable {α β : Type}

/-- Two sequences with the same beginning do the same if they do after it. -/
theorem run_bind_congr {x : Lowering α} {f g : α → Lowering β} {t : Compiler}
    (h : ∀ a u, x.run t = .ok (a, u) → (f a).run u = (g a).run u) :
    (x >>= f).run t = (x >>= g).run t := by
  rw [StateT.run_bind, StateT.run_bind]
  cases hx : x.run t with
  | error fault => rfl
  | ok p => exact h p.1 p.2 hx

/-- Of what it is given for the instruction in a slot, an action calls on it once at most, and only
    with the slot open: nothing else about it makes a difference. -/
def CallsOnce (x : (Word → Lowering Verdict) → Lowering α) (t : Compiler) : Prop :=
  ∃ call : Option (Word × Compiler), (∀ p ∈ call, p.2.progress.inSlot = true) ∧
    ∀ nested other, (∀ p ∈ call, (nested p.1).run p.2 = (other p.1).run p.2) →
      (x nested).run t = (x other).run t

namespace CallsOnce

variable {t : Compiler}

theorem const (x : Lowering α) : CallsOnce (fun _ => x) t :=
  ⟨none, nofun, fun _ _ _ => rfl⟩

theorem call (hslot : t.progress.inSlot = true) (addr : Word) :
    CallsOnce (fun nested => nested addr) t := by
  refine ⟨some (addr, t), ?_, ?_⟩
  · rintro p ⟨⟩
    exact hslot
  · intro nested other h
    exact h (addr, t) rfl

/-- What goes before the call makes none. -/
theorem bind {x : Lowering α} {f : (Word → Lowering Verdict) → α → Lowering β}
    (h : ∀ a u, x.run t = .ok (a, u) → CallsOnce (f · a) u) :
    CallsOnce (fun nested => x >>= f nested) t := by
  cases hx : x.run t with
  | error fault =>
    refine ⟨none, nofun, fun nested other _ => run_bind_congr fun a u hrun => ?_⟩
    cases hx.symm.trans hrun
  | ok p =>
    obtain ⟨call, hslot, hcall⟩ := h p.1 p.2 hx
    refine ⟨call, hslot, fun nested other hagree => run_bind_congr fun a u hrun => ?_⟩
    cases hx.symm.trans hrun
    exact hcall nested other hagree

/-- What goes after the call makes none. -/
theorem followed {x : (Word → Lowering Verdict) → Lowering α} (h : CallsOnce x t)
    (f : α → Lowering β) : CallsOnce (fun nested => x nested >>= f) t := by
  obtain ⟨call, hslot, hcall⟩ := h
  refine ⟨call, hslot, fun nested other hagree => ?_⟩
  rw [StateT.run_bind, StateT.run_bind, hcall nested other hagree]

end CallsOnce

end Lowering

namespace Delayed

variable {fetch : Word → Word} {pc : Word} {d : Delayed} {P Q R : Core → Prop}

/-- The slot is opened behind the opening; the flags may be saved then. -/
theorem ensures_enter
    (hopening : Ensures P (emit (d.opening pc (slotEndsBlock fetch pc))) Q)
    (hopen : ∀ s, Q s → R (s.at { s.progress with inSlot := true }))
    (hsave : ∀ s, R s → R (s.at { s.progress with flagsSaved := true })) :
    Ensures P (d.enter fetch pc) R := by
  cases d with
  | branch b target =>
    refine (Ensures.tell _).bind fun _ => hopening.bind fun _ => (Ensures.openSlot hopen).bind ?_
    intro slot
    split
    · exact (Ensures.forwardBranch _).bind fun _ => .pure _
    · exact (Ensures.saveFlags hsave).bind fun _ => .pure _
  | jump link target =>
    exact hopening.bind fun _ => (Ensures.openSlot hopen).bind fun _ => .pure _
  | jumpReg link rs =>
    exact (Ensures.tell _).bind fun _ => hopening.bind fun _ =>
      (Ensures.openSlot hopen).bind fun _ => .pure _

/-- By the time of the call the slot is open. -/
theorem inSlot_of_run_enter {t u : Compiler} {p : Word × Option Host.Fixup}
    (h : (d.enter fetch pc).run t = .ok (p, u)) : u.progress.inSlot = true := by
  have hopening : Ensures (fun _ => True) (emit (d.opening pc (slotEndsBlock fetch pc)))
      fun _ => True := .emit fun _ _ _ _ => trivial
  have henter : Ensures (fun _ => True) (d.enter fetch pc) fun s => s.progress.inSlot = true :=
    ensures_enter hopening (fun _ _ => rfl) fun _ hs => hs
  exact henter t p u trivial h

end Delayed

namespace Lowering

variable {fetch : Word → Word} {c : Control} {w : InstrWord}

/-- A control instruction makes the call for its slot once at most. -/
theorem callsOnce_controlVia (fetch : Word → Word) (c : Control) (w : InstrWord) (t : Compiler) :
    CallsOnce (controlVia · fetch c w) t := by
  refine .bind fun p u _ => ?_
  dsimp only
  cases c.delayed? w p.pc with
  | none => exact .const _
  | some d =>
    refine .bind fun q u _ => ?_
    split
    · refine .bind fun r u hrun => ?_
      exact ((CallsOnce.call (Delayed.inSlot_of_run_enter hrun) r.1).followed _).followed _
    · exact .const _

theorem callsOnce_instrVia (fetch : Word → Word) (addr : Word) (t : Compiler) :
    CallsOnce (instrVia · fetch addr) t := by
  refine .bind fun p u _ => .bind fun _ u _ => ?_
  dsimp only
  cases Instr.decode ⟨fetch addr⟩ with
  | none => exact .const _
  | some i =>
    cases i with
    | operation o => exact .const _
    | control c => exact (callsOnce_controlVia fetch c _ u).followed _

/-! ### Two levels -/

/-- Only what is done with the slot open counts. -/
theorem controlVia_congr {nested other : Word → Lowering Verdict}
    (h : ∀ addr t, t.progress.inSlot = true → (nested addr).run t = (other addr).run t) :
    controlVia nested fetch = controlVia other fetch := by
  funext c w t
  obtain ⟨call, hslot, hcall⟩ := callsOnce_controlVia fetch c w t
  exact hcall nested other fun p hp => h p.1 p.2 (hslot p hp)

/-- The instruction in the slot may be any, lowered as anywhere else. What a call from there would
    do makes no difference. -/
theorem lowerControl_eq_via (fetch : Word → Word) (rec : Word → Lowering Verdict) :
    lowerControl fetch = controlVia (instrVia rec fetch) fetch := by
  rw [lowerControl_eq]
  exact controlVia_congr fun addr t hslot => (run_instrVia_of_inSlot hslot addr).symm

theorem lowerAt_eq_via (fetch : Word → Word) (rec : Word → Lowering Verdict) :
    lowerAt fetch = instrVia (instrVia rec fetch) fetch := by
  funext addr
  rw [lowerAt, instrVia, ← lowerControl_eq_via]

/-- Lowering calls itself for the slot. -/
theorem lowerControl_eq_self (fetch : Word → Word) :
    lowerControl fetch = controlVia (lowerAt fetch) fetch := by
  rw [lowerAt_eq_via fetch (lowerAt fetch)]
  exact lowerControl_eq_via fetch _

end Lowering

end MipsOnArm
