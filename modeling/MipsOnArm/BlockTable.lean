import Std.Data.TreeMap
import MipsOnArm.Block

/-! Lowered blocks by the guest address at which they start, with the links between them. A link
    says that an exit of one block continues at the start of another block in the table. Links are
    made for the exits of a block when it is inserted and for exits of other blocks that lead to it;
    they go when either of their ends goes. -/

namespace MipsOnArm

/-- An exit of a block in the table: the block's start and the number of the exit. -/
structure ExitKey where
  entry : Word
  slot : ExitSlot
  deriving DecidableEq, Repr, Inhabited

/-- By the start of the block, then by the number of the exit. -/
def ExitKey.compare : ExitKey → ExitKey → Ordering :=
  compareLex (compareOn ExitKey.entry) (compareOn ExitKey.slot)

instance : Std.TransCmp ExitKey.compare :=
  inferInstanceAs (Std.TransCmp (compareLex (compareOn ExitKey.entry) (compareOn ExitKey.slot)))

/-- Blocks and links. -/
structure BlockTable where
  blocks : Std.TreeMap Word Block
  links : Std.TreeMap ExitKey Word ExitKey.compare

namespace BlockTable

/-- No blocks. -/
def empty : BlockTable := ⟨∅, ∅⟩

instance : Inhabited BlockTable := ⟨empty⟩

/-- Number of blocks. -/
def size (t : BlockTable) : Nat := t.blocks.size

/-- Whether a block starts at the address. -/
def contains (t : BlockTable) (entry : Word) : Bool := t.blocks.contains entry

/-- The block that starts at the address. -/
def get? (t : BlockTable) (entry : Word) : Option Block := t.blocks[entry]?

/-- Where an exit is linked to. -/
def linked? (t : BlockTable) (entry : Word) (slot : ExitSlot) : Option Word :=
  t.links[ExitKey.mk entry slot]?

/-- The exits of a block whose targets are in the table. -/
def resolved (t : BlockTable) (b : Block) : List Exit :=
  b.exits.filter fun e => t.contains e.target

/-- Links every exit of the block at `entry` whose target is in the table, in order. -/
def link (t : BlockTable) (entry : Word) : BlockTable :=
  match t.get? entry with
  | none => t
  | some b =>
    { t with
      links := (t.resolved b).foldl (fun links e => links.insert ⟨entry, e.slot⟩ e.target) t.links }

/-- Number of links that `link` makes. -/
def linkCount (t : BlockTable) (entry : Word) : Nat :=
  match t.get? entry with
  | none => 0
  | some b => (t.resolved b).length

/-- Removes the block at `entry` and every link from it or to it. -/
def erase (t : BlockTable) (entry : Word) : BlockTable :=
  if t.contains entry then
    { blocks := t.blocks.erase entry
      links := t.links.filter fun key target => key.entry ≠ entry && target ≠ entry }
  else t

/-- The starts of other blocks with an exit to `entry`. -/
def sources (t : BlockTable) (entry : Word) : List Word :=
  t.blocks.toList.filterMap fun (_, b) =>
    if b.entry ≠ entry ∧ b.exits.any (·.target = entry) then some b.entry else none

/-- Puts a block in the place of any block with the same start, and links it with the others. -/
def insert (t : BlockTable) (b : Block) : BlockTable :=
  let t := t.erase b.entry
  let t := { t with blocks := t.blocks.insert b.entry b }
  let t := t.link b.entry
  (t.sources b.entry).foldl link t

end BlockTable

end MipsOnArm
