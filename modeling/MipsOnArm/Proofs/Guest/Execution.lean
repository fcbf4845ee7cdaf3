import MipsOnArm.Guest.Execution

/-! What the guest's own execution of a block leaves open: the program counter that the guest state
    holds beforehand is never read, and control is handed back after at most one native call. -/

namespace MipsOnArm.Guest

variable {σ : Type} (fetch : Word → Word) (handler : Handler σ)

/-! ### The program counter -/

theorem Cpu.setGpr_set_pc (s : Cpu) (r : Reg) (value v : Word) :
    (s.set .pc v).setGpr r value = (s.setGpr r value).set .pc v := by
  unfold Cpu.setGpr
  split <;> rfl

theorem writeLink_set_pc (link : Option Reg) (pc v : Word) (s : Cpu) :
    writeLink link pc (s.set .pc v) = (writeLink link pc s).set .pc v := by
  cases link with
  | none => rfl
  | some r => exact s.setGpr_set_pc r _ v

/-- Operations neither read nor change the program counter. -/
theorem Operation.perform_set_pc (o : Operation) (s : Cpu) (v : Word) :
    o.perform (s.set .pc v) = (o.perform s).set .pc v := by
  cases o with
  | nop => rfl
  | _ => exact s.setGpr_set_pc _ _ v

theorem Control.taken_set_pc (c : Control) (w : InstrWord) (s : Cpu) (v : Word) :
    c.taken w (s.set .pc v) = c.taken w s := by
  cases c <;> rfl

theorem runSlot_set_pc (pc v : Word) (link : Option Reg) (d : Departure) (s : Cpu) (env : σ) :
    runSlot fetch handler pc link d (s.set .pc v) env = runSlot fetch handler pc link d s env := by
  unfold runSlot
  simp only [Operation.perform_set_pc, writeLink_set_pc]
  rfl

theorem runBranch_set_pc (pc v : Word) (w : InstrWord) (taken likely : Bool) (s : Cpu) (env : σ) :
    runBranch fetch handler pc w taken likely (s.set .pc v) env =
      runBranch fetch handler pc w taken likely s env := by
  unfold runBranch
  simp only [runSlot_set_pc]
  rfl

theorem runControl_set_pc (pc v : Word) (w : InstrWord) (c : Control) (s : Cpu) (env : σ) :
    runControl fetch handler pc w c (s.set .pc v) env = runControl fetch handler pc w c s env := by
  cases c with
  | syscall => rfl
  | jump link => exact runSlot_set_pc fetch handler ..
  | jumpReg link => exact runSlot_set_pc fetch handler ..
  | _ =>
    unfold runControl
    rw [Control.taken_set_pc]
    exact runBranch_set_pc fetch handler ..

/-- A block runs from the address that it is given, not from the program counter. -/
theorem runBlock_set_pc (limit : Nat) (pc v : Word) (s : Cpu) (env : σ) :
    runBlock fetch handler limit pc (s.set .pc v) env = runBlock fetch handler limit pc s env := by
  induction limit generalizing pc s with
  | zero => rfl
  | succ limit ih =>
    simp only [runBlock]
    split
    · rw [Operation.perform_set_pc]
      exact ih _ _
    · exact runControl_set_pc fetch handler ..
    · rfl

/-! ### Native calls -/

variable {fetch handler} {s : Cpu} {env : σ} {ex : Execution σ}

theorem length_calls_runSlot {pc : Word} {link : Option Reg} {d : Departure}
    (h : runSlot fetch handler pc link d s env = some ex) : ex.calls.length ≤ 1 := by
  rw [runSlot] at h
  split at h
  · cases h; exact Nat.zero_le 1
  · cases h; exact Nat.le_refl 1
  · cases h

theorem length_calls_runBranch {pc : Word} {w : InstrWord} {taken likely : Bool}
    (h : runBranch fetch handler pc w taken likely s env = some ex) : ex.calls.length ≤ 1 := by
  rw [runBranch] at h
  split at h
  · exact length_calls_runSlot h
  · split at h
    · cases h; exact Nat.zero_le 1
    · exact length_calls_runSlot h

theorem length_calls_runControl {pc : Word} {w : InstrWord} {c : Control}
    (h : runControl fetch handler pc w c s env = some ex) : ex.calls.length ≤ 1 := by
  cases c with
  | syscall => cases h; exact Nat.le_refl 1
  | jump link => exact length_calls_runSlot h
  | jumpReg link => exact length_calls_runSlot h
  | _ => exact length_calls_runBranch h

/-- A block makes at most one native call. -/
theorem length_calls_runBlock {limit : Nat} {pc : Word}
    (h : runBlock fetch handler limit pc s env = some ex) : ex.calls.length ≤ 1 := by
  induction limit generalizing pc s with
  | zero => cases h; exact Nat.zero_le 1
  | succ limit ih =>
    rw [runBlock] at h
    split at h
    · exact ih h
    · exact length_calls_runControl h
    · cases h

end MipsOnArm.Guest
