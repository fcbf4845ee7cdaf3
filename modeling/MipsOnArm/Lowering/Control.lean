import MipsOnArm.Lowering.Operation
import MipsOnArm.Lowering.State

/-! Lowering of control instructions. A branch or jump is lowered together with the instruction in
    its delay slot, in this order:

        check that no slot is open, set up the comparison, write all registers back,
          likely branch:  branch past the slot if not taken, slot, write back
          other branch:   save flags, slot, write back, restore flags, branch if not taken
        exit for the taken way (slot 0), then exit for the way past the branch (slot 1)

    The host branch tests the condition under which the guest's branch is not taken, so it skips the
    taken exit. A system call in the delay slot ends the block there: the address to resume at, and
    a return address if one is wanted, are stored before it. The slot may hold no second branch or
    jump, which is why one level of nesting is enough. -/

namespace MipsOnArm.Lowering

open Guest (Control InstrWord)

/-- Refuses a branch or jump in a delay slot. -/
def refuseBranch : Lowering Verdict := do
  let pc := (← progress).pc
  tell (.branchRefused pc)
  return .error (.branchInDelaySlot pc)

/-- Refuses an unsupported word, which ends the block. -/
def refuseWord (w : InstrWord) : Lowering Verdict := do
  let pc := (← progress).pc
  tell (.wordRefused pc w.bits)
  close
  return .error (.unsupported pc w.bits)

/-- Lowers an operation, which always succeeds. -/
def lowerOperation (o : Guest.Operation) : Lowering Verdict := do
  emit o.emit
  return .ok ()

/-- Lowers the instruction at an address, leaving control instructions to `onControl`. The
    address of the surrounding instruction is put back afterwards. -/
def lowerWith (onControl : Control → InstrWord → Lowering Verdict) (fetch : Word → Word)
    (addr : Word) : Lowering Verdict := do
  let outer := (← progress).pc
  enterInstr addr
  let w : InstrWord := ⟨fetch addr⟩
  let verdict ← match Guest.Instr.decode w with
    | some (.control c) => onControl c w
    | some (.operation o) => lowerOperation o
    | none => refuseWord w
  setPc outer
  return verdict

/-- Stores the address at which execution resumes. -/
def storePc (target : Word) : Lowering Unit :=
  write [.movImm Host.Reg.scratch target, .store Host.Reg.scratch Guest.Field.pc.offset]

/-- Stores the return address of the jump at `pc`. No register may be mapped. -/
def storeReturn (r : Guest.Reg) (pc : Word) : Lowering Unit :=
  if r = Guest.Reg.zero then return ()
  else
    write [.movImm Host.Reg.scratch (pc + delaySlotSkip),
      .store Host.Reg.scratch (Guest.Field.gpr r).offset]

/-- Ends the block with a native call. In a delay slot the address to resume at is stored
    already. -/
def lowerSyscall (w : InstrWord) : Lowering Unit := do
  flushAll
  let p ← progress
  if !p.inSlot then storePc (p.pc + instrBytes)
  write [.callSyscall w.bits, .exitSyscall]
  close

/-- A control instruction in a delay slot: only a system call may stand there. -/
def lowerSlotControl (c : Control) (w : InstrWord) : Lowering Verdict :=
  match c with
  | .syscall => do
    lowerSyscall w
    return .ok ()
  | _ => refuseBranch

/-- Lowers the instruction in a delay slot, and writes all registers back unless it has ended the
    block. -/
def lowerSlot (fetch : Word → Word) (addr : Word) : Lowering Verdict := do
  let verdict ← lowerWith lowerSlotControl fetch addr
  if ← isOpen then flushAll
  return verdict

/-- Whether the delay slot of the instruction at `pc` holds a system call. -/
def slotEndsBlock (fetch : Word → Word) (pc : Word) : Bool :=
  match Control.decode ⟨fetch (pc + instrBytes)⟩ with
  | some c => !c.hasDelaySlot
  | none => false

/-- The slot of a likely branch: the host branch skips it. -/
def likelySlot (fetch : Word → Word) (b : Branch) (slot : Word) :
    Lowering (Verdict × Option Host.Fixup) := do
  let fixup ← forwardBranch b.notTaken
  let verdict ← lowerSlot fetch slot
  return (verdict, some fixup)

/-- The slot of any other branch: it always runs, with the flags out of its reach. The host branch
    follows, unless the slot has ended the block. -/
def plainSlot (fetch : Word → Word) (b : Branch) (slot : Word) :
    Lowering (Verdict × Option Host.Fixup) := do
  saveFlags
  let verdict ← lowerSlot fetch slot
  if ← isOpen then
    restoreFlags
    let fixup ← forwardBranch b.notTaken
    return (verdict, some fixup)
  else
    dropFlags
    return (verdict, none)

/-- Stores the address at which a system call in the slot of the branch at `pc` resumes: past the
    branch, or its target if taken. The flags stay as they are. -/
def storeBranchPc (b : Branch) (pc target : Word) : Lowering Unit :=
  write [.movImm Host.Reg.scratch (pc + delaySlotSkip),
    .movIf b.notTaken.invert Host.Reg.scratch target,
    .store Host.Reg.scratch Guest.Field.pc.offset]

/-- Lowers a conditional branch. -/
def lowerBranch (fetch : Word → Word) (w : InstrWord) (b : Branch) : Lowering Verdict := do
  let pc := (← progress).pc
  let target := w.branchTarget pc
  let slotWord : InstrWord := ⟨fetch (pc + instrBytes)⟩
  tell (.slotInspected pc slotWord (b.comparison.survives slotWord) b.comparison)
  emit (b.comparison.emit b.notTaken)
  flushAll
  if slotEndsBlock fetch pc then storeBranchPc b pc target
  let slot ← openSlot
  let (verdict, fixup?) ← if b.likely then likelySlot fetch b slot else plainSlot fetch b slot
  closeSlot
  if ← isOpen then leaveTo target 0
  if let some fixup := fixup? then
    patch fixup
    leaveTo (pc + delaySlotSkip) 1
  close
  return verdict

/-- Lowers a jump to a fixed address. -/
def lowerJump (fetch : Word → Word) (w : InstrWord) (link : Bool) : Lowering Verdict := do
  let pc := (← progress).pc
  let target := w.jumpTarget pc
  if slotEndsBlock fetch pc then
    flushAll
    storePc target
    if link then storeReturn Guest.Reg.ra pc
  let slot ← openSlot
  let verdict ← lowerSlot fetch slot
  closeSlot
  if ← isOpen then
    if link then storeReturn Guest.Reg.ra pc
    leaveTo target 0
  close
  return verdict

/-- Lowers a jump through a register. Its destination is taken before the slot can change the
    register. -/
def lowerJumpReg (fetch : Word → Word) (w : InstrWord) (link : Bool) : Lowering Verdict := do
  let pc := (← progress).pc
  let slotWord : InstrWord := ⟨fetch (pc + instrBytes)⟩
  tell (.registerJump pc w.rs (slotWord.written? ≠ some w.rs))
  let src ← emit (Emit.map w.rs .read)
  write [.mov Host.Reg.jumpDest src, .store Host.Reg.jumpDest Guest.Field.pc.offset]
  flushAll
  if link && slotEndsBlock fetch pc then storeReturn w.rd pc
  let slot ← openSlot
  let verdict ← lowerSlot fetch slot
  closeSlot
  if ← isOpen then
    if link then storeReturn w.rd pc
    leaveToReg Host.Reg.jumpDest
  close
  return verdict

/-- Lowers a branch or jump, unless a delay slot is open. -/
def admitted (body : Lowering Verdict) : Lowering Verdict := do
  match (← progress).admitBranch with
  | .ok () => body
  | .error _ => refuseBranch

/-- Lowers a control instruction whose operands stand in `w`. -/
def lowerControl (fetch : Word → Word) (c : Control) (w : InstrWord) : Lowering Verdict :=
  match c with
  | .syscall => do
    lowerSyscall w
    return .ok ()
  | .jump link => admitted (lowerJump fetch w link)
  | .jumpReg link => admitted (lowerJumpReg fetch w link)
  | .branchPair test likely =>
    admitted (lowerBranch fetch w ⟨.pair w.rs w.rt, test.fails, likely⟩)
  | .branchZero test likely => admitted (lowerBranch fetch w ⟨.zero w.rs, test.fails, likely⟩)
  | .branchFpu onTrue likely =>
    admitted (lowerBranch fetch w ⟨.fpu, Guest.bitDiffers onTrue, likely⟩)
  | .branchVfpu onTrue likely =>
    admitted (lowerBranch fetch w ⟨.vfpu w.conditionBit, Guest.bitDiffers onTrue, likely⟩)

/-- Lowers the instruction at an address, with its delay slot if it has one. -/
def lowerAt (fetch : Word → Word) (addr : Word) : Lowering Verdict :=
  lowerWith (lowerControl fetch) fetch addr

end MipsOnArm.Lowering
