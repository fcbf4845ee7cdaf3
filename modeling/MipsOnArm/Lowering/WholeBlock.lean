import MipsOnArm.Lowering.Control

/-! Lowering of a whole block: guest instructions one by one until one of them ends the block or
    the limit is reached. A block that reaches the limit leaves for the next instruction. -/

namespace MipsOnArm.Lowering

/-- Ends a block that has reached its limit. -/
def endAtLimit : Lowering Unit := do
  let next := (← progress).pc
  flushAll
  leaveTo next 0
  close

/-- Lowers instructions until the block ends; `remaining` more may be begun. -/
def lowerRest (fetch : Word → Word) : (remaining : Nat) → Lowering Verdict
  | 0 => do
    endAtLimit
    return .ok ()
  | remaining + 1 => do
    let pc := (← progress).pc
    match ← lowerAt fetch pc with
    | .error refusal => return .error refusal
    | .ok () =>
      setPc (pc + instrBytes)
      if ← isOpen then lowerRest fetch remaining else return .ok ()

/-- Hands out the finished block. No delay slot may be open. -/
def finish (entry : Word) : Lowering Block := do
  if (← progress).inSlot then throw .endInSlot
  assertFlushed .endWhileMapped
  let t ← get
  let (code, rest) ← t.code.take
  set { t with code := rest, exits := [] }
  tell (.blockFinished entry t.progress.count code.size t.exits.length)
  return ⟨entry, t.progress.count, code, t.exits⟩

/-- Lowers the block that starts at `entry`. On refusal the unfinished output stays until the
    next block begins. -/
def lowerBlock (fetch : Word → Word) (entry : Word) : Lowering (Except Refusal Block) := do
  begin entry
  let limit := max (← get).options.maxInstrs.toNat 1
  match ← lowerRest fetch limit with
  | .error refusal => return .error refusal
  | .ok () => return .ok (← finish entry)

end MipsOnArm.Lowering
