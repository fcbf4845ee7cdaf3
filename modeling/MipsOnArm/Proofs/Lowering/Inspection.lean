import MipsOnArm.Proofs.Guest.Destination
import MipsOnArm.Proofs.Lowering.Nesting

/-! What a conditional branch or a jump through a register reports about its delay slot: whether the
    slot leaves alone the registers that the instruction goes by. The report is made on the word in
    the slot, before that is decoded. For a word that holds an operation it is right: the
    instruction goes the same way on the state behind the slot as on the state before, and a slot is
    reported as disturbing only if it writes one of those registers. -/

namespace MipsOnArm
open Guest Lowering

/-- What the event says of the delay slot, if it is about one. -/
def Event.nice? : Event → Option Bool
  | slotInspected _ _ nice _ => some nice
  | registerJump _ _ nice => some nice
  | _ => none

namespace Guest.Control

/-- Conditional branches and jumps through a register report on their delay slot. -/
def inspectsSlot : Control → Bool
  | jump _ => false
  | syscall => false
  | _ => true

/-- The registers that decide where a control instruction goes. -/
def sources (w : InstrWord) : Control → List Reg
  | branchPair _ _ => [w.rs, w.rt]
  | branchZero _ _ => [w.rs]
  | jumpReg _ => [w.rs]
  | _ => []

/-- The instruction goes the same way on both states. -/
def SameWay (w : InstrWord) (s s' : Cpu) : Control → Prop
  | jumpReg _ => s'.gpr w.rs = s.gpr w.rs
  | c => c.taken w s' = c.taken w s

variable {c : Control} {w slot : InstrWord} {o : Operation}

/-- An operation that writes no source does not matter. -/
theorem sameWay_perform (ho : Operation.decode slot = some o)
    (hsources : ∀ r ∈ c.sources w, slot.written? ≠ some r) (s : Cpu) :
    c.SameWay w s (o.perform s) := by
  have hgpr : ∀ r ∈ c.sources w, (o.perform s).gpr r = s.gpr r :=
    fun r hr => Operation.gpr_perform ho (hsources r hr)
  cases c with
  | branchPair test likely =>
    exact congrArg₂ test.holds (hgpr w.rs (by simp [sources])) (hgpr w.rt (by simp [sources]))
  | branchZero test likely => exact congrArg test.holds (hgpr w.rs (by simp [sources]))
  | branchFpu onTrue likely =>
    exact congrArg (fun v : Word => v.getLsbD 0 == onTrue) (Operation.fpuCond_perform ho)
  | branchVfpu onTrue likely =>
    exact congrArg (fun v : Word => v.getLsbD w.conditionBit.toNat == onTrue)
      (Operation.vfpuCond_perform ho)
  | jumpReg link => exact hgpr w.rs (by simp [sources])
  | jump | syscall => rfl

/-- There is one report, and it says whether the word in the slot leaves all sources alone. -/
theorem exists_notice_eq (hc : c.inspectsSlot = true) (ho : Operation.decode slot = some o)
    {pc : Word} {d : Delayed} (hd : c.delayed? w pc = some d) :
    ∃ e nice, d.notice pc slot = [e] ∧ e.nice? = some nice ∧
      (nice = true ↔ ∀ r ∈ c.sources w, slot.written? ≠ some r) := by
  obtain ⟨hfpu, hvfpu⟩ := Operation.changes_conditions ho
  cases c with
  | jump | syscall => cases hc
  | branchPair | branchZero | jumpReg =>
    cases hd
    refine ⟨_, _, rfl, rfl, ?_⟩
    simp only [Comparison.survives, sources, Bool.and_eq_true, decide_eq_true_eq,
      List.forall_mem_cons, List.not_mem_nil, false_implies, implies_true, and_true]
  | branchFpu | branchVfpu =>
    cases hd
    refine ⟨_, _, rfl, rfl, ?_⟩
    simp only [Comparison.survives, sources, hfpu, hvfpu, Bool.not_false, List.not_mem_nil,
      false_implies, implies_true]

end Guest.Control

/-! ### What is left out of the log -/

namespace Lowering

variable {α β : Type}

/-- Code generation changes neither the progress nor the log. -/
theorem of_run_emit {e : Emit α} {t u : Compiler} {a : α} (h : (emit e).run t = .ok (a, u)) :
    u.progress = t.progress ∧ u.log = t.log := by
  cases hrun : e.run t.map with
  | error fault => simp only [emit, StateT.run, hrun] at h; cases h
  | ok r => rw [run_emit t hrun] at h; cases h; exact ⟨rfl, List.append_nil _⟩

/-- The action adds no event. -/
def Quiet (x : Lowering α) : Prop :=
  ∀ t a u, x.run t = .ok (a, u) → u.log = t.log

namespace Quiet

theorem pure (a : α) : Quiet (pure a) := by
  intro t b u h
  cases h
  rfl

theorem bind {x : Lowering α} {f : α → Lowering β} (hx : Quiet x) (hf : ∀ a, Quiet (f a)) :
    Quiet (x >>= f) := by
  intro t b u h
  obtain ⟨a, s, hrun, hrest⟩ := of_run_bind h
  exact (hf a s b u hrest).trans (hx t a s hrun)

theorem get : Quiet get := by
  intro t a u h
  cases h
  rfl

theorem modify {f : Compiler → Compiler} (hf : ∀ t, (f t).log = t.log) :
    Quiet (modify f : Lowering Unit) := by
  intro t a u h
  cases h
  exact hf t

theorem lift (x : Except Fault α) : Quiet (liftM x : Lowering α) := by
  intro t a u h
  cases x with
  | error fault => cases h
  | ok b => cases h; rfl

theorem throw (fault : Fault) : Quiet (throw fault : Lowering α) := by
  intro t a u h
  cases h

theorem progress : Quiet progress := get.bind fun _ => .pure _

theorem isOpen : Quiet isOpen := progress.bind fun _ => .pure _

theorem advance (f : Progress → Progress) : Quiet (advance f) := .modify fun _ => rfl

theorem write (code : List Host.Instr) : Quiet (write code) := .modify fun _ => rfl

theorem emit (e : Emit α) : Quiet (emit e) := fun _ _ _ h => (of_run_emit h).2

/-- A step that is left out where the block has ended. -/
theorem whenOpen {x : Lowering Unit} {y : Lowering β} (hx : Quiet x) (hy : Quiet y) :
    Quiet (do if ← Lowering.isOpen then x; y else y) := by
  refine isOpen.bind fun b => ?_
  cases b with
  | true => exact hx.bind fun _ => hy
  | false => exact hy

theorem forwardBranch (cond : Host.Cond) : Quiet (forwardBranch cond) := by
  intro t a u h
  cases h
  rfl

theorem patch (fixup : Host.Fixup) : Quiet (patch fixup) :=
  get.bind fun _ => (lift _).bind fun _ => .modify fun _ => rfl

theorem assertFlushed (fault : Nat → Fault) : Quiet (assertFlushed fault) := by
  refine get.bind fun t => ?_
  dsimp only
  split
  · exact .throw _
  · exact .pure _

theorem leaveTo (target : Word) (slot : ExitSlot) : Quiet (leaveTo target slot) := by
  refine (assertFlushed _).bind fun _ => .bind (modify ?_) fun _ => write _
  exact fun _ => rfl

theorem leaveToReg (src : Host.Reg) : Quiet (leaveToReg src) :=
  (assertFlushed _).bind fun _ => write _

theorem enterInstr (addr : Word) : Quiet (enterInstr addr) := by
  refine progress.bind fun p => ?_
  split
  · exact advance _
  · exact throw _

theorem closeSlot : Quiet closeSlot := by
  refine progress.bind fun p => ?_
  dsimp only
  split
  · exact throw _
  · split
    · exact throw _
    · exact advance _

theorem saveFlags : Quiet saveFlags := by
  refine progress.bind fun p => ?_
  split
  · exact throw _
  · exact (advance _).bind fun _ => write _

theorem restoreFlags : Quiet restoreFlags := (write _).bind fun _ => advance _

/-- The block is closed last. -/
theorem closing (verdict : Verdict) : Quiet (do close; return verdict) :=
  (advance _).bind fun _ => .pure _

end Quiet

/-- An operation in the slot adds no event. -/
theorem quiet_slotVia {fetch : Word → Word} {addr : Word} {o : Operation}
    (hdecode : Instr.decode ⟨fetch addr⟩ = some (.operation o)) :
    Quiet (slotVia (lowerWith lowerSlotControl fetch) addr) := by
  have hoperation : Quiet (lowerOperation o) := (Quiet.emit _).bind fun _ => .pure _
  have hinstr : Quiet (lowerWith lowerSlotControl fetch addr) := by
    refine Quiet.progress.bind fun p => (Quiet.enterInstr addr).bind fun _ => ?_
    simp only [hdecode]
    exact hoperation.bind fun _ => (Quiet.advance _).bind fun _ => .pure _
  exact hinstr.bind fun _ => .whenOpen (.emit _) (.pure _)

theorem quiet_branchEnd (pc target : Word) (verdict : Verdict) (fixup? : Option Host.Fixup) :
    Quiet (branchEnd pc target verdict fixup?) := by
  refine Quiet.closeSlot.bind fun _ => .whenOpen (.leaveTo _ _) ?_
  cases fixup? with
  | none => exact .closing verdict
  | some fixup =>
    exact (Quiet.patch _).bind fun _ => (Quiet.leaveTo _ _).bind fun _ => .closing verdict

end Lowering

namespace Delayed

theorem quiet_jumpEnd {out : Lowering Unit} (hout : Quiet out) (pc : Word) (link : Option Reg)
    (verdict : Verdict) : Quiet (jumpEnd pc link out verdict) := by
  refine Quiet.closeSlot.bind fun _ => Quiet.isOpen.bind fun b => ?_
  cases b with
  | true => exact (Quiet.write _).bind fun _ => hout.bind fun _ => .closing verdict
  | false => exact .closing verdict

theorem quiet_leave (d : Delayed) (pc : Word) (fixup? : Option Host.Fixup) (verdict : Verdict) :
    Quiet (d.leave pc fixup? verdict) := by
  cases d with
  | branch b target =>
    rw [leave]
    split
    · exact quiet_branchEnd _ _ _ _
    · refine Quiet.isOpen.bind fun o => ?_
      cases o with
      | true =>
        exact Quiet.restoreFlags.bind fun _ => (Quiet.forwardBranch _).bind fun _ =>
          quiet_branchEnd _ _ _ _
      | false => exact (Quiet.advance _).bind fun _ => quiet_branchEnd _ _ _ _
  | jump link target => exact quiet_jumpEnd (.leaveTo _ _) _ _ _
  | jumpReg link rs => exact quiet_jumpEnd (.leaveToReg _) _ _ _

end Delayed

/-! ### The report in the log -/

namespace Lowering

/-- Behind an opening the slot is the next instruction. -/
theorem of_run_opened {α : Type} {e : Emit Unit} {f : Word → Lowering α} {t u : Compiler} {a : α}
    (h : (do emit e; let slot ← openSlot; f slot).run t = .ok (a, u)) :
    ∃ s, (f (t.progress.pc + instrBytes)).run s = .ok (a, u) ∧ s.log = t.log := by
  obtain ⟨_, s, hemit, hrest⟩ := of_run_bind h
  obtain ⟨slot, s', hopen, hrun⟩ := of_run_bind hrest
  obtain ⟨hprogress, hlog⟩ := of_run_emit hemit
  cases hslot : s.progress.inSlot with
  | true =>
    simp [openSlot, StateT.run_bind, run_progress, hslot, ok_bind] at hopen
    cases hopen
  | false =>
    rw [run_openSlot s hslot, hprogress] at hopen
    cases hopen
    exact ⟨_, hrun, (List.append_nil _).trans hlog⟩

end Lowering

namespace Delayed

variable {d : Delayed} {fetch : Word → Word} {t u : Compiler}

/-- The slot is the next instruction; up to there the instruction is reported, and nothing else. -/
theorem log_of_run_enter {p : Word × Option Host.Fixup}
    (h : (d.enter fetch t.progress.pc).run t = .ok (p, u)) :
    p.1 = t.progress.pc + instrBytes ∧
      u.log = t.log ++ d.notice t.progress.pc ⟨fetch (t.progress.pc + instrBytes)⟩ := by
  cases d with
  | branch b target =>
    obtain ⟨_, s, ⟨⟩, h⟩ := of_run_bind h
    obtain ⟨s, h, hlog⟩ := of_run_opened h
    split at h
    · obtain ⟨fixup, s', hfixup, ⟨⟩⟩ := of_run_bind h
      exact ⟨rfl, (Quiet.forwardBranch _ _ _ _ hfixup).trans hlog⟩
    · obtain ⟨_, s', hsave, ⟨⟩⟩ := of_run_bind h
      exact ⟨rfl, (Quiet.saveFlags _ _ _ hsave).trans hlog⟩
  | jump link target =>
    obtain ⟨s, ⟨⟩, hlog⟩ := of_run_opened h
    exact ⟨rfl, hlog.trans (List.append_nil _).symm⟩
  | jumpReg link rs =>
    obtain ⟨_, s, ⟨⟩, h⟩ := of_run_bind h
    obtain ⟨s, ⟨⟩, hlog⟩ := of_run_opened h
    exact ⟨rfl, hlog⟩

/-- With an operation in its slot, a branch or jump adds its report to the log. -/
theorem log_of_run_via {v : Verdict} {o : Operation}
    (hdecode : Instr.decode ⟨fetch (t.progress.pc + instrBytes)⟩ = some (.operation o))
    (h : (d.via (lowerWith lowerSlotControl fetch) fetch t.progress.pc).run t = .ok (v, u)) :
    u.log = t.log ++ d.notice t.progress.pc ⟨fetch (t.progress.pc + instrBytes)⟩ := by
  obtain ⟨p, s, henter, hrest⟩ := of_run_bind h
  obtain ⟨verdict, s', hslot, hleave⟩ := of_run_bind hrest
  obtain ⟨haddr, hlog⟩ := log_of_run_enter henter
  rw [haddr] at hslot
  rw [d.quiet_leave _ _ _ _ _ _ hleave, quiet_slotVia hdecode _ _ _ hslot, hlog]

end Delayed

/-- What is reported of a delay slot that holds an operation. -/
theorem log_of_run_lowerControl {fetch : Word → Word} {t u : Compiler} {c : Control} {w : InstrWord}
    {v : Verdict} {d : Delayed} {o : Operation} (hd : c.delayed? w t.progress.pc = some d)
    (hslot : t.progress.inSlot = false)
    (hdecode : Instr.decode ⟨fetch (t.progress.pc + instrBytes)⟩ = some (.operation o))
    (h : (lowerControl fetch c w).run t = .ok (v, u)) :
    u.log = t.log ++ d.notice t.progress.pc ⟨fetch (t.progress.pc + instrBytes)⟩ := by
  rw [lowerControl_eq, controlVia, StateT.run_bind, run_progress, ok_bind] at h
  simp only [hd] at h
  rw [run_admitted hslot] at h
  exact Delayed.log_of_run_via hdecode h

/-- The inspection of delay slots is right, and exact, for every word `slot` that holds an
    operation. The register that is read off the word is the destination of the operation, if it has
    one other than register 0; running the operation changes nothing else of the guest state. So
    wherever a conditional branch or register jump with operands in `w` is lowered with that word in
    its slot, it makes one report. If the report says that the slot is nice, the instruction goes
    the same way on the state behind the slot as before it; it says otherwise just if the register
    is one of the registers that the instruction compares or jumps through, of which a branch on a
    condition word has none. -/
theorem inspection_of_operation {slot : InstrWord} {o : Operation}
    (ho : Instr.decode slot = some (.operation o)) :
    slot.written? = o.dest?.filter (· ≠ Reg.zero) ∧
    (∀ (s : Cpu) (f : Field), (∀ r, slot.written? = some r → f ≠ .gpr r) →
      (o.perform s).get f = s.get f) ∧
    ∀ (fetch : Word → Word) (t : Compiler) (c : Control) (w : InstrWord),
      c.inspectsSlot = true → t.progress.inSlot = false →
      fetch (t.progress.pc + instrBytes) = slot.bits →
      (t.AtRest → t.HasRoom → ∃ v u, (lowerControl fetch c w).run t = .ok (v, u)) ∧
      ∀ v u, (lowerControl fetch c w).run t = .ok (v, u) →
        ∃ e nice, u.log = t.log ++ [e] ∧ e.nice? = some nice ∧
          (nice = true → ∀ s, c.SameWay w s (o.perform s)) ∧
          (nice = false ↔ ∃ r ∈ c.sources w, slot.written? = some r) := by
  have hoperation : Operation.decode slot = some o := Instr.decode_operation ho
  refine ⟨Operation.written?_eq hoperation, fun s f => Operation.get_perform hoperation, ?_⟩
  intro fetch t c w hc hslot hfetch
  have hword : (⟨fetch (t.progress.pc + instrBytes)⟩ : InstrWord) = slot := congrArg _ hfetch
  refine ⟨fun ht hroom => ?_, fun v u hrun => ?_⟩
  · have hcount := hroom.2
    obtain ⟨v, u, hrun, -⟩ := ht.exists_run_lowerControl hroom.1 (by omega) fetch c w
    exact ⟨v, u, hrun⟩
  · have hdelayed : (c.delayed? w t.progress.pc).isSome := by
      cases c with
      | syscall => cases hc
      | _ => rfl
    obtain ⟨d, hd⟩ := Option.isSome_iff_exists.mp hdelayed
    obtain ⟨e, nice, he, hnice, hiff⟩ := c.exists_notice_eq hc hoperation hd
    have hlog := log_of_run_lowerControl hd hslot (hword ▸ ho) hrun
    rw [hword, he] at hlog
    refine ⟨e, nice, hlog, hnice, fun h => Control.sameWay_perform hoperation (hiff.mp h), ?_⟩
    rw [← Bool.not_eq_true, hiff]
    simp only [not_forall, ne_eq, not_not, exists_prop]

/-- An addition in the slot of a branch that compares its sum. -/
theorem inspection_of_operation_addition : ∃ v u e,
    (lowerControl (fun _ => 0x012a4021) (.branchPair .eq false) ⟨0x11090002⟩).run (.fresh ⟨4, 3⟩) =
      .ok (v, u) ∧ u.log = [e] ∧ e.nice? = some false := by
  have haddition : Instr.decode ⟨0x012a4021⟩ = some (.operation (.alu .add 8 9 10)) := by decide
  obtain ⟨-, -, hinspected⟩ := inspection_of_operation haddition
  obtain ⟨hlowered, hreport⟩ := hinspected (fun _ => 0x012a4021) (.fresh ⟨4, 3⟩)
    (.branchPair .eq false) ⟨0x11090002⟩ rfl rfl rfl
  obtain ⟨v, u, hrun⟩ := hlowered (.fresh _) ⟨rfl, by decide⟩
  obtain ⟨e, nice, hlog, hnice, -, hexact⟩ := hreport v u hrun
  cases hexact.mpr ⟨8, by decide, by decide⟩
  exact ⟨v, u, e, hrun, hlog, hnice⟩

end MipsOnArm
