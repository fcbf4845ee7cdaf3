import MipsOnArm.Block
import MipsOnArm.Emit
import MipsOnArm.Host.Code
import MipsOnArm.Lowering.Report

/-! The state of a compiler, and the basic actions on it: following the guest instruction, writing
    code and exits, opening and closing the one delay slot, and saving the flags across it. -/

namespace MipsOnArm

/-- Limits of a lowering. -/
structure Options where
  /-- Most guest instructions in a block; zero counts as one. A delay slot may come on top. -/
  maxInstrs : Word := 256
  /-- How many host registers may hold guest registers. -/
  hostRegs : Nat := Host.Reg.allocatable.length
  deriving DecidableEq, Repr, Inhabited

/-- How far the current block has come. -/
structure Progress where
  /-- Address of the guest instruction being lowered. -/
  pc : Word
  /-- Whether the block goes on after this instruction. -/
  isOpen : Bool
  /-- Guest instructions lowered so far. -/
  count : Nat
  /-- Whether this instruction stands in a delay slot. -/
  inSlot : Bool
  /-- Whether the flags are kept in their register. -/
  flagsSaved : Bool
  deriving DecidableEq, Repr, Inhabited

/-- Nothing is lowered yet. -/
def Progress.start (pc : Word) : Progress := ⟨pc, true, 0, false, false⟩

/-- A branch or jump is refused while a delay slot is open. -/
def Progress.admitBranch (p : Progress) : Verdict :=
  if p.inSlot then .error (.branchInDelaySlot p.pc) else .ok ()

/-- A compiler with the unfinished output of the current block. -/
structure Compiler where
  options : Options
  progress : Progress
  map : RegisterMap
  code : Host.Code
  exits : List Exit
  log : List Event
  deriving DecidableEq, Repr

/-- A compiler that has lowered nothing. -/
def Compiler.fresh (options : Options) : Compiler where
  options := options
  progress := .start 0
  map := .fresh options.hostRegs
  code := .empty
  exits := []
  log := []

/-- An action of the compiler. -/
abbrev Lowering := StateT Compiler (Except Fault)

namespace Lowering

/-- Runs a step of code generation and appends its code. -/
def emit {α : Type} (e : Emit α) : Lowering α := fun t =>
  match e.run t.map with
  | .error fault => .error fault
  | .ok r => .ok (r.value, { t with map := r.map, code := t.code.append r.code })

/-- Appends instructions. -/
def write (code : List Host.Instr) : Lowering Unit :=
  modify fun t => { t with code := t.code.append code }

/-- Adds an event to the log. -/
def tell (e : Event) : Lowering Unit :=
  modify fun t => { t with log := t.log ++ [e] }

/-- The progress of the current block. -/
def progress : Lowering Progress :=
  return (← get).progress

/-- Changes the progress of the current block. -/
def advance (f : Progress → Progress) : Lowering Unit :=
  modify fun t => { t with progress := f t.progress }

/-- Whether the block goes on. -/
def isOpen : Lowering Bool :=
  return (← progress).isOpen

/-- Ends the block with the current instruction. -/
def close : Lowering Unit :=
  advance fun p => { p with isOpen := false }

/-- Discards all output and starts a block. -/
def begin (entry : Word) : Lowering Unit :=
  modify fun t =>
    { t with progress := .start entry, map := t.map.reset, code := .empty, exits := [], log := [] }

/-- Moves on to a guest instruction. The count of instructions stays below 2^32. -/
def enterInstr (addr : Word) : Lowering Unit := do
  let p ← progress
  if p.count < 0xffffffff then
    advance fun p => { p with pc := addr, count := p.count + 1 }
  else throw .countOverflow

/-- Moves to a guest address without lowering it. -/
def setPc (addr : Word) : Lowering Unit :=
  advance fun p => { p with pc := addr }

/-- Writes all dirty registers back and drops all mappings. -/
def flushAll : Lowering Unit := emit Emit.flushAll

/-- An exit is written only when no guest register is in a host register. -/
def assertFlushed (fault : Nat → Fault) : Lowering Unit := do
  let mapped := (← get).map.occupancy
  if mapped ≠ 0 then throw (fault mapped)

/-- Writes an exit with a fixed target, and describes it. -/
def leaveTo (target : Word) (slot : ExitSlot) : Lowering Unit := do
  assertFlushed .exitWhileMapped
  modify fun t => { t with exits := t.exits ++ [⟨target, slot, t.code.size⟩] }
  write [.exit target slot]

/-- Writes an exit to the address in a register. -/
def leaveToReg (src : Host.Reg) : Lowering Unit := do
  assertFlushed .exitWhileMapped
  write [.exitToReg src]

/-- Appends a branch whose target is not known yet. -/
def forwardBranch (cond : Host.Cond) : Lowering Host.Fixup :=
  modifyGet fun t =>
    let (fixup, code) := t.code.forwardBranch cond
    (fixup, { t with code := code })

/-- Lets a waiting branch reach the next instruction. -/
def patch (fixup : Host.Fixup) : Lowering Unit := do
  let code ← (← get).code.patch fixup
  modify fun t => { t with code := code }

/-- Opens the delay slot of the current instruction and yields the slot's address. -/
def openSlot : Lowering Word := do
  let p ← progress
  if p.inSlot then throw (.slotOpenedTwice p.pc)
  advance fun p => { p with inSlot := true }
  return p.pc + instrBytes

/-- Closes the delay slot. -/
def closeSlot : Lowering Unit := do
  let p ← progress
  if !p.inSlot then throw .slotNotOpen
  if p.flagsSaved then throw .flagsLeftSaved
  advance fun p => { p with inSlot := false }

/-- Saves the flags in their register, for the time of a delay slot. -/
def saveFlags : Lowering Unit := do
  if (← progress).flagsSaved then throw .flagsSavedTwice
  advance fun p => { p with flagsSaved := true }
  write [.saveFlags Host.Reg.savedFlags]

/-- Gives up the saved flags, since the block has ended. -/
def dropFlags : Lowering Unit :=
  advance fun p => { p with flagsSaved := false }

/-- Brings the saved flags back. -/
def restoreFlags : Lowering Unit := do
  write [.restoreFlags Host.Reg.savedFlags]
  dropFlags

end Lowering

end MipsOnArm
