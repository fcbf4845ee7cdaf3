import MipsOnArm.Lowering.Control
import MipsOnArm.Proofs.Residency.Requests

/-! What each action of the compiler does, as one equation. Nearly all of them only extend the
    output, so a sequence of them comes down to one extension. A forward branch that is patched
    later on reaches the place where the code ends by then. -/

namespace MipsOnArm
open Guest

/-- The compiler with the given progress and register map, and with more output. -/
def Compiler.extend (t : Compiler) (p : Progress) (m : RegisterMap) (code : List Host.Instr)
    (exits : List Exit) (log : List Event) : Compiler :=
  { t with
    progress := p
    map := m
    code := t.code.append code
    exits := t.exits ++ exits
    log := t.log ++ log }

namespace Compiler

variable (t : Compiler) (p q : Progress) (m n : RegisterMap) (is js : List Host.Instr)
  (xs ys : List Exit) (es fs : List Event)

@[simp] theorem progress_extend : (t.extend p m is xs es).progress = p := rfl

@[simp] theorem map_extend : (t.extend p m is xs es).map = m := rfl

@[simp] theorem options_extend : (t.extend p m is xs es).options = t.options := rfl

@[simp] theorem size_code_extend :
    (t.extend p m is xs es).code.size = t.code.size + is.length :=
  t.code.size_append is

theorem extend_nil : t.extend t.progress t.map [] [] [] = t := by
  simp [extend]

/-- Extensions add up. -/
@[simp] theorem extend_extend :
    (t.extend p m is xs es).extend q n js ys fs =
      t.extend q n (is ++ js) (xs ++ ys) (es ++ fs) := by
  simp [extend, Host.Code.append_append]

end Compiler

/-- A computation that has succeeded hands its value on. -/
theorem ok_bind {ε α β : Type} (a : α) (f : α → Except ε β) : (Except.ok a >>= f) = f a := rfl

namespace Host.Code

/-- A waiting branch is patched wherever code was appended after it. -/
theorem patch_append (c : Code) (cond : Cond) (is : List Instr) :
    (c.append (.branch cond none :: is)).patch ⟨c.size⟩ =
      .ok (c.append (.branch cond (some (c.size + 1 + is.length)) :: is)) := by
  have hget : (c.append (.branch cond none :: is)).instrs[c.size]? = some (.branch cond none) := by
    simp [append, size]
  have hsize : (c.append (.branch cond none :: is)).size = c.size + 1 + is.length := by
    rw [size_append, List.length_cons]
    omega
  simp only [patch, hget, hsize]
  congr 2
  apply Array.ext'
  simp [append, size]

end Host.Code

namespace Lowering

variable (t : Compiler)

theorem run_pure {α : Type} (a : α) : (pure a : Lowering α).run t = .ok (a, t) := rfl

theorem run_emit {α : Type} {e : Emit α} {r : Emitted α} (h : e.run t.map = .ok r) :
    (emit e).run t = .ok (r.value, t.extend t.progress r.map r.code [] []) := by
  simp [emit, StateT.run, h, Compiler.extend]

theorem run_write (code : List Host.Instr) :
    (write code).run t = .ok ((), t.extend t.progress t.map code [] []) := by
  simp only [Compiler.extend, List.append_nil]
  rfl

/-- Code generation that goes step by step may be written out step by step. -/
theorem emit_bind {α β : Type} (e : Emit α) (f : α → Emit β) :
    emit (e >>= f) = emit e >>= fun a => emit (f a) := by
  funext t
  show (emit (e >>= f)).run t = (emit e >>= fun a => emit (f a)).run t
  rw [StateT.run_bind]
  cases he : e.run t.map with
  | error => simp [emit, StateT.run, Emit.run_bind, he]; rfl
  | ok r =>
    rw [run_emit t he, ok_bind]
    cases hf : (f r.value).run r.map with
    | error => simp [emit, StateT.run, Emit.run_bind, he, hf]
    | ok r' =>
      have hbind : (e >>= f).run t.map = .ok ⟨r'.value, r.code ++ r'.code, r'.map⟩ := by
        rw [Emit.run_bind, he]
        simp only [hf]
      rw [run_emit t hbind, run_emit (t.extend t.progress r.map r.code [] []) hf]
      simp only [Compiler.extend_extend, Compiler.progress_extend, List.append_nil]

theorem emit_write (code : List Host.Instr) : emit (Emit.write code) = write code := rfl

theorem write_nil : write [] = pure () := by
  funext t
  show (write []).run t = _
  rw [run_write, Compiler.extend_nil]
  rfl

theorem write_append (is js : List Host.Instr) :
    write (is ++ js) = write is >>= fun _ => write js := by
  funext t
  show (write (is ++ js)).run t = (write is >>= fun _ => write js).run t
  simp only [StateT.run_bind, run_write, ok_bind, Compiler.extend_extend, Compiler.progress_extend,
    Compiler.map_extend, List.append_nil]

theorem emit_pure {α : Type} (a : α) : emit (pure a) = pure a := by
  funext t
  show (emit (pure a)).run t = _
  rw [run_emit t (Emit.run_pure a t.map), Compiler.extend_nil]
  rfl

theorem run_tell (e : Event) :
    (tell e).run t = .ok ((), t.extend t.progress t.map [] [] [e]) := by
  simp only [Compiler.extend, List.append_nil, Host.Code.append_nil]
  rfl

theorem run_progress : progress.run t = .ok (t.progress, t) := rfl

theorem run_isOpen : isOpen.run t = .ok (t.progress.isOpen, t) := rfl

theorem run_advance (f : Progress → Progress) :
    (advance f).run t = .ok ((), t.extend (f t.progress) t.map [] [] []) := by
  simp only [Compiler.extend, List.append_nil, Host.Code.append_nil]
  rfl

theorem run_close :
    close.run t = .ok ((), t.extend { t.progress with isOpen := false } t.map [] [] []) :=
  run_advance t _

theorem run_setPc (addr : Word) :
    (setPc addr).run t = .ok ((), t.extend { t.progress with pc := addr } t.map [] [] []) :=
  run_advance t _

/-- An instruction is begun as long as the count has room for it. -/
theorem run_enterInstr (h : t.progress.count < 0xffffffff) (addr : Word) :
    (enterInstr addr).run t =
      .ok ((), t.extend { t.progress with pc := addr, count := t.progress.count + 1 } t.map
        [] [] []) := by
  simp only [enterInstr, StateT.run_bind, run_progress, ok_bind, if_pos h, run_advance]

theorem run_assertFlushed (h : t.map.Flushed) (fault : Nat → Fault) :
    (assertFlushed fault).run t = .ok ((), t) := by
  have hzero := RegisterMap.occupancy_eq_zero_iff.mpr h
  simp [assertFlushed, StateT.run_bind, hzero]
  rfl

/-- An exit is described by its place in the code. -/
theorem run_leaveTo (h : t.map.Flushed) (target : Word) (slot : ExitSlot) :
    (leaveTo target slot).run t =
      .ok ((), t.extend t.progress t.map [.exit target slot] [⟨target, slot, t.code.size⟩] []) := by
  simp only [leaveTo, StateT.run_bind, run_assertFlushed t h, ok_bind]
  simp only [Compiler.extend, List.append_nil]
  rfl

theorem run_leaveToReg (h : t.map.Flushed) (src : Host.Reg) :
    (leaveToReg src).run t = .ok ((), t.extend t.progress t.map [.exitToReg src] [] []) := by
  simp only [leaveToReg, StateT.run_bind, run_assertFlushed t h, ok_bind, run_write]

theorem run_openSlot (h : t.progress.inSlot = false) :
    openSlot.run t = .ok (t.progress.pc + instrBytes,
      t.extend { t.progress with inSlot := true } t.map [] [] []) := by
  simp [openSlot, StateT.run_bind, run_progress, h, run_advance, ok_bind]

theorem run_closeSlot (hslot : t.progress.inSlot = true) (hflags : t.progress.flagsSaved = false) :
    closeSlot.run t =
      .ok ((), t.extend { t.progress with inSlot := false } t.map [] [] []) := by
  simp [closeSlot, StateT.run_bind, run_progress, hslot, hflags, run_advance, ok_bind]

theorem run_saveFlags (h : t.progress.flagsSaved = false) :
    saveFlags.run t = .ok ((), t.extend { t.progress with flagsSaved := true } t.map
      [.saveFlags Host.Reg.savedFlags] [] []) := by
  simp [saveFlags, StateT.run_bind, run_progress, h, run_advance, run_write, ok_bind]

theorem run_dropFlags :
    dropFlags.run t = .ok ((), t.extend { t.progress with flagsSaved := false } t.map [] [] []) :=
  run_advance t _

theorem run_restoreFlags :
    restoreFlags.run t = .ok ((), t.extend { t.progress with flagsSaved := false } t.map
      [.restoreFlags Host.Reg.savedFlags] [] []) := by
  simp [restoreFlags, StateT.run_bind, run_dropFlags, run_write, ok_bind]

theorem run_forwardBranch (cond : Host.Cond) :
    (forwardBranch cond).run t =
      .ok (⟨t.code.size⟩, t.extend t.progress t.map [.branch cond none] [] []) := by
  simp only [Compiler.extend, List.append_nil]
  rfl

/-- A forward branch is patched after anything else was appended. -/
theorem run_patch (p : Progress) (m : RegisterMap) (before after : List Host.Instr)
    (cond : Host.Cond) (xs : List Exit) (es : List Event) :
    (patch ⟨t.code.size + before.length⟩).run
        (t.extend p m (before ++ .branch cond none :: after) xs es) =
      .ok ((), t.extend p m
        (before ++ .branch cond (some (t.code.size + before.length + 1 + after.length)) :: after)
        xs es) := by
  have hpatch := (t.code.append before).patch_append cond after
  rw [Host.Code.size_append, Host.Code.append_append, Host.Code.append_append] at hpatch
  have hrun : ∀ u : Compiler, ∀ c, u.code.patch ⟨t.code.size + before.length⟩ = .ok c →
      (patch ⟨t.code.size + before.length⟩).run u = .ok ((), { u with code := c }) := by
    intro u c hc
    simp [patch, StateT.run_bind, hc]
  exact hrun _ _ hpatch

end Lowering

/-! ### Stores of addresses -/

/-- The code that stores the address at which execution resumes. -/
def storePcCode (target : Word) : List Host.Instr :=
  [.movImm Host.Reg.scratch target, .store Host.Reg.scratch Field.pc.offset]

/-- The code that stores the return address of the jump at `pc`, if one is wanted. -/
def returnCode (pc : Word) : Option Reg → List Host.Instr
  | none => []
  | some r =>
    if r = Reg.zero then []
    else [.movImm Host.Reg.scratch (pc + delaySlotSkip),
      .store Host.Reg.scratch (Field.gpr r).offset]

/-- The code that stores the address at which a system call in the slot of a branch resumes. -/
def branchPcCode (b : Branch) (pc target : Word) : List Host.Instr :=
  [.movImm Host.Reg.scratch (pc + delaySlotSkip), .movIf b.notTaken.invert Host.Reg.scratch target,
    .store Host.Reg.scratch Field.pc.offset]

namespace Lowering

theorem storeReturn_eq (r : Reg) (pc : Word) :
    storeReturn r pc = write (returnCode pc (some r)) := by
  by_cases hr : r = Reg.zero
  · simp only [storeReturn, returnCode, hr, if_true, write_nil]
  · simp only [storeReturn, returnCode, hr, if_false]

end Lowering

end MipsOnArm
