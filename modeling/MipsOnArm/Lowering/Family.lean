import MipsOnArm.Lowering.Control

/-! Entry points for bare words, one for each family of control instructions. Each decodes its word
    by itself, takes the control instructions of its own family and rejects every other word. -/

namespace MipsOnArm

/-- A family of control instructions. -/
inductive Family
  /-- Branches on two registers or the sign of one, except the sign branches told apart by `rt`. -/
  | relative
  /-- Sign branches told apart by the `rt` field. -/
  | sign
  | fpu
  | vfpu
  | jump
  | jumpReg
  | syscall
  deriving DecidableEq, Repr, Inhabited

/-- Name of the entry point in reports. -/
def Family.entryPoint : Family → String
  | relative => "comp_rel_branch"
  | sign => "comp_rel_branch_ri"
  | fpu => "comp_fpu_branch"
  | vfpu => "comp_vbranch"
  | jump => "comp_jump"
  | jumpReg => "comp_jump_reg"
  | syscall => "comp_syscall"

namespace Lowering

open Guest (Control InstrWord)

/-- Rejects a word that the entry point of a family does not take. -/
def rejectWord {α : Type} (f : Family) (w : InstrWord) : Lowering α :=
  throw (.wrongFamily f.entryPoint w.bits)

/-- Branches on two registers or the sign of one. Of the latter, those with primary opcode 1 have an
    entry point of their own. -/
def lowerRelativeWord (fetch : Word → Word) (w : InstrWord) : Lowering Verdict :=
  match Control.decode w with
  | some (.branchPair test likely) =>
    if w.primary ≠ 1 then lowerControl fetch (.branchPair test likely) w
    else rejectWord .relative w
  | some (.branchZero test likely) =>
    if w.primary ≠ 1 then lowerControl fetch (.branchZero test likely) w
    else rejectWord .relative w
  | _ => rejectWord .relative w

/-- Branches on the sign of a register with primary opcode 1. -/
def lowerSignWord (fetch : Word → Word) (w : InstrWord) : Lowering Verdict :=
  match Control.decode w with
  | some (.branchZero test likely) =>
    if w.primary = 1 then lowerControl fetch (.branchZero test likely) w
    else rejectWord .sign w
  | _ => rejectWord .sign w

def lowerFpuWord (fetch : Word → Word) (w : InstrWord) : Lowering Verdict :=
  match Control.decode w with
  | some (.branchFpu onTrue likely) => lowerControl fetch (.branchFpu onTrue likely) w
  | _ => rejectWord .fpu w

def lowerVfpuWord (fetch : Word → Word) (w : InstrWord) : Lowering Verdict :=
  match Control.decode w with
  | some (.branchVfpu onTrue likely) => lowerControl fetch (.branchVfpu onTrue likely) w
  | _ => rejectWord .vfpu w

def lowerJumpWord (fetch : Word → Word) (w : InstrWord) : Lowering Verdict :=
  match Control.decode w with
  | some (.jump link) => lowerControl fetch (.jump link) w
  | _ => rejectWord .jump w

def lowerJumpRegWord (fetch : Word → Word) (w : InstrWord) : Lowering Verdict :=
  match Control.decode w with
  | some (.jumpReg link) => lowerControl fetch (.jumpReg link) w
  | _ => rejectWord .jumpReg w

/-- System calls. They cannot be refused, so there is no verdict. -/
def lowerSyscallWord (w : InstrWord) : Lowering Unit :=
  match Control.decode w with
  | some .syscall => lowerSyscall w
  | _ => rejectWord .syscall w

/-- The entry point of a family, with a verdict for all of them. -/
def lowerFamily (fetch : Word → Word) (f : Family) (w : InstrWord) : Lowering Verdict :=
  match f with
  | .relative => lowerRelativeWord fetch w
  | .sign => lowerSignWord fetch w
  | .fpu => lowerFpuWord fetch w
  | .vfpu => lowerVfpuWord fetch w
  | .jump => lowerJumpWord fetch w
  | .jumpReg => lowerJumpRegWord fetch w
  | .syscall => do
    lowerSyscallWord w
    return .ok ()

end Lowering

end MipsOnArm
