import MipsOnArm.Proofs.Lowering.Family
import MipsOnArm.Proofs.Lowering.Nesting

/-! The compiler between two calls from outside. Any call may end with a refusal, in the middle of a
    block that is closed already, or with a fault, after which there is no compiler. Whatever it was
    called for, a compiler that is left has its slot closed, no flags saved and nothing pinned. -/

namespace MipsOnArm
open Guest Lowering

/-! ### What each kind of instruction ensures -/

namespace Lowering

variable {P Q : Core → Prop}

theorem ensures_refuseBranch : Ensures P refuseBranch P := by
  refine .progress_bind fun p => ?_
  exact ((Ensures.tell _).bind fun _ => .pure _).pre fun s hs => hs.1

/-- An unsupported word closes the block. -/
theorem ensures_refuseWord (hclose : ∀ s, P s → Q (s.at { s.progress with isOpen := false }))
    (w : InstrWord) : Ensures P (refuseWord w) Q := by
  refine .progress_bind fun p => ?_
  refine ((Ensures.tell _).bind fun _ => Ensures.bind ?_ fun _ => .pure _).pre fun s hs => hs.1
  exact .close hclose

/-- A system call closes the block. -/
theorem ensures_lowerSyscall (hflush : Ensures P flushAll P)
    (hclose : ∀ s, P s → Q (s.at { s.progress with isOpen := false })) (w : InstrWord) :
    Ensures P (lowerSyscall w) Q := by
  have hend : Ensures P (do write [.callSyscall w.bits, .exitSyscall]; close) Q :=
    (Ensures.write _).bind fun _ => .close hclose
  refine hflush.bind fun _ => .progress_bind fun p => ?_
  split
  · exact ((Ensures.write _).bind fun _ => hend).pre fun s hs => hs.1
  · exact hend.pre fun s hs => hs.1

theorem ensures_lowerSlotControl (hflush : Ensures P flushAll P)
    (hclose : ∀ s, P s → P (s.at { s.progress with isOpen := false })) (c : Control)
    (w : InstrWord) : Ensures P (lowerSlotControl c w) P := by
  cases c with
  | syscall => exact (ensures_lowerSyscall hflush hclose w).bind fun _ => .pure _
  | _ => exact ensures_refuseBranch

/-- The instruction at any address is lowered, whatever it is, and the address of the one around it
    put back. -/
theorem ensures_instr {R S : Core → Prop} {onControl : Control → InstrWord → Lowering Verdict}
    {fetch : Word → Word} {addr : Word}
    (henter : ∀ s, P s → R (s.at { s.progress with pc := addr, count := s.progress.count + 1 }))
    (hword : Ensures R (refuseWord ⟨fetch addr⟩) S)
    (hoperation : ∀ o, Ensures R (lowerOperation o) S)
    (hcontrol : ∀ c, Ensures R (onControl c ⟨fetch addr⟩) S)
    (hback : ∀ outer s, P outer → S s → Q (s.at { s.progress with pc := outer.progress.pc })) :
    Ensures P (lowerWith onControl fetch addr) Q := by
  refine .progress_bind fun p => ?_
  by_cases hp : ∃ outer, P outer ∧ outer.progress = p
  · obtain ⟨outer, houter, rfl⟩ := hp
    have hinstr : Ensures (fun s => P s ∧ s.progress = outer.progress) (enterInstr addr) R :=
      .enterInstr addr fun s hs => henter s hs.1
    have hend : ∀ v : Verdict, Ensures S (do setPc outer.progress.pc; return v) Q := by
      intro v
      refine Ensures.bind ?_ fun _ => .pure v
      exact .setPc _ fun s hs => hback outer s houter hs
    refine hinstr.bind fun _ => ?_
    dsimp only
    cases Instr.decode ⟨fetch addr⟩ with
    | none => exact hword.bind hend
    | some i =>
      cases i with
      | operation o => exact (hoperation o).bind hend
      | control c => exact (hcontrol c).bind hend
  · -- the compiler is where it is
    rintro t v u ⟨ht, hp'⟩
    exact absurd ⟨t.core, ht, hp'⟩ hp

theorem ensures_slotVia {nested : Word → Lowering Verdict} {slot : Word}
    (hnested : Ensures P (nested slot) Q) (hflush : Ensures Q flushAll Q) :
    Ensures P (slotVia nested slot) Q :=
  hnested.bind fun _ => .whenOpen hflush (.pure _)

end Lowering

/-! ### What every action keeps -/

/-- The compiler stands at `a`, with at most `n` instructions begun and nothing pinned; `F` tells
    whether the slot is open and whether the flags are saved. -/
structure Core.Within (F : Bool → Bool → Prop) (a : Word) (n : Nat) (s : Core) : Prop where
  idle : s.map.Idle
  budget : s.map.budget = RegisterMap.budgetOf s.options.hostRegs
  pc : s.progress.pc = a
  count : s.progress.count ≤ n
  slot : F s.progress.inSlot s.progress.flagsSaved

/-- Nothing is known of the slot, as in the middle of a branch or jump. -/
def AnySlot : Bool → Bool → Prop := fun _ _ => True

/-- The slot is closed, and no flags are saved. -/
def NoSlot : Bool → Bool → Prop := fun inSlot flagsSaved => inSlot = false ∧ flagsSaved = false

namespace Core.Within

variable {F : Bool → Bool → Prop} {a : Word} {n : Nat} {s : Core}

theorem withMap (h : s.Within F a n) {m : RegisterMap} (hm : m.Idle)
    (hbudget : m.budget = s.map.budget) : ({ s with map := m } : Core).Within F a n :=
  ⟨hm, hbudget.trans h.budget, h.pc, h.count, h.slot⟩

/-- The map does not depend on the progress. -/
theorem moved (h : s.Within F a n) {G : Bool → Bool → Prop} {b : Word} {k : Nat} {p : Progress}
    (hpc : p.pc = b) (hcount : p.count ≤ k) (hslot : G p.inSlot p.flagsSaved) :
    (s.at p).Within G b k :=
  ⟨h.idle, h.budget, hpc, hcount, hslot⟩

theorem closed (h : s.Within F a n) :
    (s.at { s.progress with isOpen := false }).Within F a n :=
  h.moved h.pc h.count h.slot

theorem mono (h : s.Within F a n) {k : Nat} (hk : n ≤ k) : s.Within F a k :=
  ⟨h.idle, h.budget, h.pc, Nat.le_trans h.count hk, h.slot⟩

end Core.Within

namespace Lowering

variable {F : Bool → Bool → Prop} {a : Word} {n : Nat}

theorem ensures_flushAll : Ensures (Core.Within F a n) flushAll (Core.Within F a n) := by
  refine .emit ?_
  intro s e hs hrun
  have he := hs.idle.flushes_of_run hrun
  exact hs.withMap he.idle he.budget

theorem ensures_lowerOperation (o : Operation) :
    Ensures (Core.Within F a n) (lowerOperation o) (Core.Within F a n) := by
  refine (Ensures.emit ?_).bind fun _ => .pure _
  intro s e hs hrun
  have he := realises_of_run hs.idle hrun
  exact hs.withMap he.idle he.budget

theorem ensures_opening (d : Delayed) (pc : Word) (slotEnds : Bool) :
    Ensures (Core.Within F a n) (emit (d.opening pc slotEnds)) (Core.Within F a n) := by
  refine .emit ?_
  intro s e hs hrun
  have he := Delayed.opens_of_run hs.idle hrun
  exact hs.withMap he.idle he.budget

theorem ensures_lowerWith {onControl : Control → InstrWord → Lowering Verdict} {k : Nat}
    (hk : n + 1 ≤ k)
    (hcontrol : ∀ b c w, Ensures (Core.Within F b (n + 1)) (onControl c w) (Core.Within F b k))
    (fetch : Word → Word) (addr : Word) :
    Ensures (Core.Within F a n) (lowerWith onControl fetch addr) (Core.Within F a k) := by
  have hmono : ∀ s : Core, s.Within F addr (n + 1) → s.Within F addr k := fun s hs => hs.mono hk
  refine ensures_instr (fun s hs => hs.moved rfl (Nat.succ_le_succ hs.count) hs.slot)
    (ensures_refuseWord (fun s hs => hmono _ hs.closed) _)
    (fun o => (ensures_lowerOperation o).post hmono)
    (fun c => hcontrol addr c _) ?_
  exact fun outer s houter hs => hs.moved houter.pc hs.count hs.slot

end Lowering

namespace Delayed

variable {d : Delayed} {a : Word} {n : Nat} {P Q : Core → Prop}

section
variable (verdict : Verdict)
  (hclose : ∀ s, P s → s.progress.inSlot = true → s.progress.flagsSaved = false →
    Q (s.at { s.progress with isOpen := false, inSlot := false }))
include hclose

/-- The slot is closed first, and the block last. -/
theorem ensures_closing {x : Lowering Verdict}
    (hx : ∀ R, Ensures R (do close; return verdict) Q → Ensures R x Q) :
    Ensures P (do closeSlot; x) Q := by
  have hslot : Ensures P closeSlot fun s => Q (s.at { s.progress with isOpen := false }) :=
    .closeSlot hclose
  refine hslot.bind fun _ => hx _ ?_
  exact (Ensures.close fun _ hs => hs).bind fun _ => .pure _

theorem ensures_jumpEnd {pc : Word} {link : Option Reg} {out : Lowering Unit}
    (hout : ∀ R, Ensures R out R) : Ensures P (jumpEnd pc link out verdict) Q := by
  refine ensures_closing verdict hclose fun R hend => .isOpen_bind fun b => ?_
  cases b with
  | true => exact (Ensures.write _).bind fun _ => (hout _).bind fun _ => hend
  | false => exact hend

theorem ensures_branchEnd {pc target : Word} {fixup? : Option Host.Fixup} :
    Ensures P (branchEnd pc target verdict fixup?) Q := by
  refine ensures_closing verdict hclose fun R hend => .whenOpen (.leaveTo _ _) ?_
  cases fixup? with
  | none => exact hend
  | some fixup => exact (Ensures.patch _).bind fun _ => (Ensures.leaveTo _ _).bind fun _ => hend

end

/-- Behind the slot no flags stay saved, and the block is closed. -/
theorem ensures_leave {pc : Word} {fixup? : Option Host.Fixup} {verdict : Verdict}
    (hdrop : ∀ s, P s → P (s.at { s.progress with flagsSaved := false }))
    (hclose : ∀ s, P s → s.progress.inSlot = true → s.progress.flagsSaved = false →
      Q (s.at { s.progress with isOpen := false, inSlot := false })) :
    Ensures P (d.leave pc fixup? verdict) Q := by
  cases d with
  | branch b target =>
    rw [leave]
    split
    · exact ensures_branchEnd verdict hclose
    · refine .isOpen_bind fun o => ?_
      cases o with
      | true =>
        exact (Ensures.restoreFlags hdrop).bind fun _ => (Ensures.forwardBranch _).bind fun _ =>
          ensures_branchEnd verdict hclose
      | false => exact (Ensures.dropFlags hdrop).bind fun _ => ensures_branchEnd verdict hclose
  | jump link target => exact ensures_jumpEnd verdict hclose fun _ => .leaveTo _ _
  | jumpReg link rs => exact ensures_jumpEnd verdict hclose fun _ => .leaveToReg _

/-- A branch or jump begins one more instruction, and leaves no slot open. -/
theorem ensures_via (fetch : Word → Word) (pc : Word) (d : Delayed) :
    Ensures (Core.Within NoSlot a n) (d.via (lowerWith lowerSlotControl fetch) fetch pc)
      fun s => s.Within NoSlot a (n + 1) ∧ s.progress.isOpen = false := by
  have henter : Ensures (Core.Within NoSlot a n) (d.enter fetch pc) (Core.Within AnySlot a n) :=
    ensures_enter (ensures_opening d pc _) (fun s hs => hs.moved hs.pc hs.count trivial)
      fun s hs => hs.moved hs.pc hs.count trivial
  have hslot : ∀ slot, Ensures (Core.Within AnySlot a n) (lowerWith lowerSlotControl fetch slot)
      (Core.Within AnySlot a (n + 1)) :=
    ensures_lowerWith (Nat.le_refl _)
      (fun _ => ensures_lowerSlotControl ensures_flushAll fun _ hs => hs.closed) fetch
  refine henter.bind fun p => (ensures_slotVia (hslot _) ensures_flushAll).bind fun verdict => ?_
  refine ensures_leave (fun s hs => hs.moved hs.pc hs.count trivial) ?_
  exact fun s hs _ hflags => ⟨hs.moved hs.pc hs.count ⟨rfl, hflags⟩, rfl⟩

end Delayed

namespace Lowering

variable {a : Word} {n : Nat}

/-- A control instruction ends the block, matching its word or not. -/
theorem ensures_lowerControl (fetch : Word → Word) (c : Control) (w : InstrWord) :
    Ensures (Core.Within NoSlot a n) (lowerControl fetch c w)
      fun s => s.Within NoSlot a (n + 1) ∧ s.progress.isOpen = false := by
  rw [lowerControl_eq]
  refine .progress_bind fun p => ?_
  dsimp only
  cases c.delayed? w p.pc with
  | none =>
    have hsyscall := ensures_lowerSyscall (Q := fun s => s.Within NoSlot a (n + 1) ∧
      s.progress.isOpen = false) ensures_flushAll
      (fun s hs => ⟨(hs.mono (Nat.le_succ n)).closed, rfl⟩) w
    exact (hsyscall.pre fun s hs => hs.1).bind fun _ => .pure _
  | some d =>
    refine .progress_bind fun q => ?_
    cases hslot : q.inSlot with
    | true =>
      rintro t v u ⟨⟨hs, -⟩, rfl⟩
      cases hslot.symm.trans hs.slot.1
    | false =>
      rw [Progress.admitBranch, hslot]
      exact (d.ensures_via fetch p.pc).pre fun s hs => hs.1.1

theorem ensures_lowerAt (fetch : Word → Word) (addr : Word) :
    Ensures (Core.Within NoSlot a n) (lowerAt fetch addr) (Core.Within NoSlot a (n + 2)) := by
  refine ensures_lowerWith (Nat.le_succ _) (fun b c w => ?_) fetch addr
  exact (ensures_lowerControl fetch c w).post fun _ hs => hs.1

end Lowering

/-! ### Any calls -/

/-- The compilers that come about by calls from outside. A block may be lowered or begun at any
    time, and so may the instruction at any address or any control instruction with any word,
    through the entry point of its family or not. Each call may find another memory and end with a
    refusal, but with no fault. -/
inductive Called : Compiler → Prop
  | fresh (options : Options) : Called (.fresh options)
  | begin {t u : Compiler} {entry : Word} (ht : Called t)
      (hrun : (begin entry).run t = .ok ((), u)) : Called u
  | block {t u : Compiler} {fetch : Word → Word} {entry : Word} {res : Except Refusal Block}
      (ht : Called t) (hrun : (lowerBlock fetch entry).run t = .ok (res, u)) : Called u
  | instr {t u : Compiler} {fetch : Word → Word} {addr : Word} {v : Verdict} (ht : Called t)
      (hrun : (lowerAt fetch addr).run t = .ok (v, u)) : Called u
  | control {t u : Compiler} {fetch : Word → Word} {c : Control} {w : InstrWord} {v : Verdict}
      (ht : Called t) (hrun : (lowerControl fetch c w).run t = .ok (v, u)) : Called u
  | family {t u : Compiler} {fetch : Word → Word} {f : Family} {w : InstrWord} {v : Verdict}
      (ht : Called t) (hrun : (lowerFamily fetch f w).run t = .ok (v, u)) : Called u

namespace Compiler.AtRest

variable {t u : Compiler}

theorem within (ht : t.AtRest) : t.core.Within NoSlot t.progress.pc t.progress.count :=
  ⟨ht.idle, ht.fits, rfl, Nat.le_refl _, ht.slot, ht.flags⟩

theorem of_within {a : Word} {n : Nat} (h : u.core.Within NoSlot a n) : u.AtRest :=
  ⟨h.budget, h.idle, h.slot.1, h.slot.2⟩

theorem run_lowerControl (ht : t.AtRest) {fetch : Word → Word} {c : Control} {w : InstrWord}
    {v : Verdict} (h : (lowerControl fetch c w).run t = .ok (v, u)) :
    u.AtRest ∧ u.progress.isOpen = false ∧ u.progress.count ≤ t.progress.count + 1 := by
  obtain ⟨hu, hclosed⟩ := ensures_lowerControl fetch c w t v u ht.within h
  exact ⟨of_within hu, hclosed, hu.count⟩

theorem run_lowerAt (ht : t.AtRest) {fetch : Word → Word} {addr : Word} {v : Verdict}
    (h : (lowerAt fetch addr).run t = .ok (v, u)) :
    u.AtRest ∧ u.progress.pc = t.progress.pc ∧ u.progress.count ≤ t.progress.count + 2 := by
  have hu := ensures_lowerAt fetch addr t v u ht.within h
  exact ⟨of_within hu, hu.pc, hu.count⟩

end Compiler.AtRest

variable {t : Compiler}

theorem Called.atRest (h : Called t) : t.AtRest := by
  induction h with
  | fresh options => exact .fresh options
  | begin _ hrun ih =>
    obtain ⟨u, hrun', hu⟩ := ih.exists_run_begin _
    cases hrun.symm.trans hrun'
    exact hu
  | block _ hrun ih =>
    obtain ⟨res, u, hrun', hu⟩ := ih.exists_run_lowerBlock _ _
    cases hrun.symm.trans hrun'
    exact hu
  | instr _ hrun ih => exact (ih.run_lowerAt hrun).1
  | control _ hrun ih => exact (ih.run_lowerControl hrun).1
  | family _ hrun ih =>
    obtain ⟨c, -, hcontrol⟩ := of_run_lowerFamily hrun
    exact (ih.run_lowerControl hcontrol).1

/-- Between two calls the slot is closed, no flags are saved and nothing is pinned. A control
    instruction leaves the block closed, also through the entry point of its family, and begins one
    instruction more at most, the one in its slot; an instruction that is lowered at its address
    leaves the current address as it was. Lowering calls itself for the slot: once at most, with the
    slot open, and no further from there, for what a call from there would do makes no
    difference. -/
theorem state_of_called (h : Called t) (fetch : Word → Word) :
    t.progress.inSlot = false ∧ t.progress.flagsSaved = false ∧
      (∀ r, (t.map.residence r).pinned = false) ∧
      (∀ c w v u, (lowerControl fetch c w).run t = .ok (v, u) →
        u.progress.isOpen = false ∧ u.progress.count ≤ t.progress.count + 1) ∧
      (∀ f w v u, (lowerFamily fetch f w).run t = .ok (v, u) →
        u.progress.isOpen = false ∧ u.progress.count ≤ t.progress.count + 1 ∧
          ∃ c, Control.decode w = some c ∧ (lowerControl fetch c w).run t = .ok (v, u)) ∧
      (∀ addr v u, (lowerAt fetch addr).run t = .ok (v, u) →
        u.progress.pc = t.progress.pc ∧ u.progress.count ≤ t.progress.count + 2) ∧
      (∀ c w, CallsOnce (controlVia · fetch c w) t) ∧
      (∀ addr, CallsOnce (instrVia · fetch addr) t) ∧
      lowerControl fetch = controlVia (lowerAt fetch) fetch ∧
      ∀ rec, lowerControl fetch = controlVia (instrVia rec fetch) fetch ∧
        lowerAt fetch = instrVia (instrVia rec fetch) fetch := by
  have ht := h.atRest
  refine ⟨ht.slot, ht.flags, ht.idle.unpinned, ?_, ?_, ?_,
    fun c w => callsOnce_controlVia fetch c w t, fun addr => callsOnce_instrVia fetch addr t, lowerControl_eq_self fetch,
    fun rec => ⟨lowerControl_eq_via fetch rec, lowerAt_eq_via fetch rec⟩⟩
  · intro c w v u hrun
    exact (ht.run_lowerControl hrun).2
  · intro f w v u hrun
    obtain ⟨c, hdecode, hcontrol⟩ := of_run_lowerFamily hrun
    obtain ⟨-, hclosed, hcount⟩ := ht.run_lowerControl hcontrol
    exact ⟨hclosed, hcount, c, hdecode, hcontrol⟩
  · intro addr v u hrun
    exact (ht.run_lowerAt hrun).2

/-- After a branch that was refused for the branch in its slot. -/
theorem state_of_called_onlyBranches : ∃ t u, Called u ∧
    (lowerAt onlyBranches 0x1000).run t = .ok (.error (.branchInDelaySlot 0x1004), u) ∧
      u.progress.inSlot = false ∧ u.progress.flagsSaved = false ∧
      lowerAt onlyBranches = instrVia (instrVia (fun _ => throw .slotNotOpen) onlyBranches)
        onlyBranches := by
  obtain ⟨t, hbegin, ht⟩ := (Compiler.AtRest.fresh ⟨0, 0⟩).exists_run_begin 0x1000
  have hroom : t.HasRoom := by
    cases hbegin
    exact ⟨rfl, by decide⟩
  have hcount : t.progress.count + 2 < 0x100000000 := by
    have := hroom.2
    omega
  have hdecode : Instr.decode ⟨onlyBranches 0x1000⟩ = some (.control (.branchPair .eq false)) := by
    decide
  obtain ⟨e, r, -, hr, hrun⟩ :=
    exists_run_lowerAt_delayed ht.idle hcount hroom.1 ht.slot ht.flags hdecode rfl
  have hrefused : slotVerdict onlyBranches (0x1000 + instrBytes) =
      .error (.branchInDelaySlot 0x1004) := by decide
  rw [hr.verdict_eq, hrefused] at hrun
  have hcalled : Called t := .begin (.fresh ⟨0, 0⟩) hbegin
  obtain ⟨hslot, hflags, -, -, -, -, -, -, -, hnested⟩ :=
    state_of_called (.instr hcalled hrun) onlyBranches
  exact ⟨t, _, .instr hcalled hrun, hrun, hslot, hflags, (hnested _).2⟩

end MipsOnArm
