import MipsOnArm.Proofs.Lowering.Fresh
import MipsOnArm.Proofs.Simulation

/-! A lowered block behaves as the guest does: executing it never fails, and yields the guest's own
    execution. Nothing that the host holds before the block, and nothing that a native call leaves
    in its registers and flags, can be told from the outside. -/

namespace MipsOnArm
open Guest Lowering

variable {σ : Type} {fetch : Word → Word} {options : Options} {entry : Word}

/-- From any host state, a block is left with the guest's own execution. -/
theorem exists_executeFrom {t u : Compiler} (ht : t.Fits) {entry : Word} {b : Block}
    (h : (lowerBlock fetch entry).run t = .ok (.ok b, u)) (handler : Handler σ) (cpu : Cpu)
    (env : σ) :
    ∃ ex, runBlock fetch handler (limitOf t.options) entry cpu env = some ex ∧
      ∀ residue regs flags, b.executeFrom handler residue ⟨regs, flags, cpu, env, []⟩ = .ok ex := by
  obtain ⟨r, hr, hok, rfl⟩ := exists_restLowered ht h
  have hm := RegisterMap.idle_fresh t.options.hostRegs
  have hleaves : ∀ residue regs flags, ∃ ex,
      runBlock fetch handler (limitOf t.options) entry cpu env = some ex ∧
        Host.Leaves handler residue entry r.code.toArray 0 ⟨regs, flags, cpu, env, []⟩ ex :=
    fun residue regs flags => hr.exists_leaves (x := ⟨regs, flags, cpu, env, []⟩) hm hok
      (Host.placed_toArray _) (represents_fresh t.options.hostRegs _) rfl
  obtain ⟨ex, hguest, -⟩ :=
    hleaves Host.Residue.standard (Vector.replicate 16 0) Host.Flags.clear
  refine ⟨ex, hguest, fun residue regs flags => ?_⟩
  obtain ⟨ex', hguest', hhost⟩ := hleaves residue regs flags
  cases hguest.symm.trans hguest'
  exact Host.executeFrom_of_leaves hhost

/-- Executing a block that a fresh compiler makes does what the guest does. -/
theorem exists_execute_of_freshly {b : Block} (h : freshly fetch options entry = .ok (.ok b))
    (handler : Handler σ) (cpu : Cpu) (env : σ) :
    ∃ ex, b.execute handler cpu env = .ok ex ∧
      runBlock fetch handler (limitOf options) entry cpu env = some ex := by
  obtain ⟨u, hrun⟩ := exists_run_of_freshly h
  obtain ⟨ex, hguest, hhost⟩ :=
    exists_executeFrom (Compiler.fits_fresh options) hrun handler cpu env
  exact ⟨ex, hhost _ _ _, hguest⟩

/-! ### A branch on a constant -/

/-- Loads a constant and branches on it, with a system call in the delay slot. -/
def constantBranch (addr : Word) : Word :=
  if addr = 0 then 0x24080007 else if addr = 4 then 0x11090002
  else if addr = 8 then 0x0000000c else 0

/-- Native calls change nothing but are counted. -/
def countCalls : Handler Nat := fun _ cpu calls => (cpu, calls + 1)

theorem exists_freshly_constantBranch :
    ∃ b, freshly constantBranch ⟨4, 3⟩ 0 = .ok (.ok b) ∧ b.entry = 0 ∧ b.count = 3 := by
  obtain ⟨b, hfresh⟩ : ∃ b, freshly constantBranch ⟨4, 3⟩ 0 = .ok (.ok b) :=
    exists_freshly_ok_iff.mpr (by decide)
  exact ⟨b, hfresh, entry_of_freshly hfresh, count_of_freshly hfresh⟩

/-! ### Executing a block -/

/-- A lowered block does what the guest does. -/
theorem execute_eq_runBlock (fetch : Word → Word) (options : Options) (entry : Word)
    (handler : Handler σ) (cpu : Cpu) (env : σ) {b : Block} {t : Compiler}
    (h : (lowerBlock fetch entry).run (.fresh options) = .ok (.ok b, t)) :
    ∃ ex, b.execute handler cpu env = .ok ex ∧
      runBlock fetch handler (max options.maxInstrs.toNat 1) entry cpu env = some ex := by
  obtain ⟨ex, hguest, hhost⟩ :=
    exists_executeFrom (Compiler.fits_fresh options) h handler cpu env
  exact ⟨ex, hhost _ _ _, hguest⟩

theorem execute_eq_runBlock_constantBranch :
    ∃ b t, (lowerBlock constantBranch 0).run (.fresh ⟨4, 3⟩) = .ok (.ok b, t) ∧ b.count = 3 ∧
      ∃ ex, b.execute countCalls (.start 0) 0 = .ok ex ∧
        runBlock constantBranch countCalls 4 0 (.start 0) 0 = some ex := by
  obtain ⟨b, hfresh, -, hcount⟩ := exists_freshly_constantBranch
  obtain ⟨t, h⟩ := exists_run_of_freshly hfresh
  exact ⟨b, t, h, hcount, execute_eq_runBlock constantBranch ⟨4, 3⟩ 0 countCalls (.start 0) 0 h⟩

/-- What a block does depends neither on the registers and flags of the host before it nor on the
    residue of native calls. There is at most one such call, so one residue stands for all. -/
theorem executeFrom_eq_execute (fetch : Word → Word) (options : Options) (entry : Word)
    (handler : Handler σ) (cpu : Cpu) (env : σ) {b : Block} {t : Compiler}
    (h : (lowerBlock fetch entry).run (.fresh options) = .ok (.ok b, t)) :
    ∃ ex, b.execute handler cpu env = .ok ex ∧ ex.calls.length ≤ 1 ∧
      ∀ residue regs flags, b.executeFrom handler residue ⟨regs, flags, cpu, env, []⟩ = .ok ex := by
  obtain ⟨ex, hguest, hhost⟩ :=
    exists_executeFrom (Compiler.fits_fresh options) h handler cpu env
  exact ⟨ex, hhost _ _ _, length_calls_runBlock hguest, hhost⟩

theorem executeFrom_eq_execute_constantBranch :
    ∃ b t, (lowerBlock constantBranch 0).run (.fresh ⟨4, 3⟩) = .ok (.ok b, t) ∧ b.count = 3 ∧
      ∃ ex, b.execute countCalls (.start 0) 0 = .ok ex ∧ ex.calls.length ≤ 1 ∧
        ∀ residue regs flags,
          b.executeFrom countCalls residue ⟨regs, flags, .start 0, 0, []⟩ = .ok ex := by
  obtain ⟨b, hfresh, -, hcount⟩ := exists_freshly_constantBranch
  obtain ⟨t, h⟩ := exists_run_of_freshly hfresh
  exact ⟨b, t, h, hcount, executeFrom_eq_execute constantBranch ⟨4, 3⟩ 0 countCalls (.start 0) 0 h⟩

end MipsOnArm
