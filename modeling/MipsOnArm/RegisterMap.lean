import MipsOnArm.Guest.Cpu
import MipsOnArm.Host.Instr

/-! Which guest registers live in host registers at a point of the code being written. A mapped
    register is loaded at most once and written back late: a dirty one is stored when it is flushed.
    The map is kept from both sides, guest register to host register and back, and remembers when
    each guest register was last asked for. -/

namespace MipsOnArm

/-- What is known of one guest register. -/
structure Residence where
  /-- The host register that holds it, if any. -/
  host : Option Host.Reg
  /-- Whether the host register is newer than the guest state. -/
  dirty : Bool
  /-- Whether it must stay where it is. -/
  pinned : Bool
  /-- The time at which it was last asked for. -/
  lastUse : Word
  deriving DecidableEq, Repr, Inhabited

/-- A register that is nowhere. -/
def Residence.none : Residence := ⟨Option.none, false, false, 0⟩

/-- The registers of the guest, the owners of the host registers, the host registers that may be
    used in order of preference, and a clock that counts requests. -/
structure RegisterMap where
  guests : Vector Residence 32
  owners : Vector (Option Guest.Reg) 16
  budget : List Host.Reg
  clock : Word
  deriving DecidableEq, Repr, Inhabited

namespace RegisterMap

/-- The host registers used under a budget of `n`: no less than three, which one instruction may
    need at once, and no more than there are. -/
def budgetOf (n : Nat) : List Host.Reg :=
  Host.Reg.allocatable.take (max 3 n)

/-- Nothing is mapped. -/
def empty (budget : List Host.Reg) : RegisterMap :=
  ⟨Vector.replicate 32 Residence.none, Vector.replicate 16 Option.none, budget, 0⟩

/-- Nothing is mapped, under a budget of `n` host registers. -/
def fresh (n : Nat) : RegisterMap := empty (budgetOf n)

/-- Forgets every mapping without writing anything back. -/
def reset (m : RegisterMap) : RegisterMap := empty m.budget

/-- What is known of a guest register. -/
def residence (m : RegisterMap) (r : Guest.Reg) : Residence := getElem m.guests r.val r.val_lt

/-- The guest register that a host register holds. -/
def owner (m : RegisterMap) (h : Host.Reg) : Option Guest.Reg := getElem m.owners h.val h.val_lt

/-- The host register that holds a guest register. -/
def host? (m : RegisterMap) (r : Guest.Reg) : Option Host.Reg := (m.residence r).host

/-- Replaces what is known of a guest register. -/
def setResidence (m : RegisterMap) (r : Guest.Reg) (s : Residence) : RegisterMap :=
  { m with guests := m.guests.set r.val s r.val_lt }

/-- Replaces the owner of a host register. -/
def setOwner (m : RegisterMap) (h : Host.Reg) (o : Option Guest.Reg) : RegisterMap :=
  { m with owners := m.owners.set h.val o h.val_lt }

/-- Number of guest registers in host registers. -/
def occupancy (m : RegisterMap) : Nat :=
  Guest.Reg.all.countP fun r => (m.host? r).isSome

/-- Lets the clock advance by one; it wraps around. -/
def tick (m : RegisterMap) : RegisterMap :=
  { m with clock := m.clock + 1 }

/-- Keeps the given registers where they are, and where they will be, until `unpin`. -/
def pin (m : RegisterMap) (rs : List Guest.Reg) : RegisterMap :=
  rs.foldl (fun m r => m.setResidence r { m.residence r with pinned := true }) m

/-- Lets all registers move again. -/
def unpin (m : RegisterMap) : RegisterMap :=
  { m with guests := m.guests.map fun s => { s with pinned := false } }

/-- The instruction that writes a guest register back from a host register. -/
def storeBack (r : Guest.Reg) (h : Host.Reg) : Host.Instr :=
  .store h (Guest.Field.gpr r).offset

/-- Drops the mapping of a register, and tells the code that writes it back if it is dirty. -/
def flush (m : RegisterMap) (r : Guest.Reg) : List Host.Instr × RegisterMap :=
  match m.host? r with
  | none => ([], m)
  | some h =>
    (if (m.residence r).dirty then [storeBack r h] else [],
      (m.setResidence r { m.residence r with host := none, dirty := false }).setOwner h none)

/-- Drops the mappings of several registers in order. -/
def flushEach (m : RegisterMap) : List Guest.Reg → List Host.Instr × RegisterMap
  | [] => ([], m)
  | r :: rs =>
    let (code, m) := m.flush r
    let (rest, m) := m.flushEach rs
    (code ++ rest, m)

/-- Drops all mappings in ascending order of the registers. -/
def flushAll (m : RegisterMap) : List Host.Instr × RegisterMap :=
  m.flushEach Guest.Reg.all

/-- The first host register of the budget that holds nothing. -/
def firstFree? (m : RegisterMap) : Option Host.Reg :=
  m.budget.find? fun h => (m.owner h).isNone

/-- The first of the registers whose last use lies furthest back. -/
def leastRecent? (m : RegisterMap) : List Guest.Reg → Option Guest.Reg
  | [] => none
  | r :: rs =>
    match m.leastRecent? rs with
    | none => some r
    | some s => if (m.residence s).lastUse < (m.residence r).lastUse then some s else some r

/-- The register to give up when no host register is free. -/
def victim? (m : RegisterMap) : Option Guest.Reg :=
  m.leastRecent? ((m.budget.filterMap m.owner).filter fun r => !(m.residence r).pinned)

/-- Records that a host register now holds a guest register. -/
def settle (m : RegisterMap) (r : Guest.Reg) (h : Host.Reg) (dirty : Bool) : RegisterMap :=
  (m.setOwner h (some r)).setResidence r
    { m.residence r with host := some h, dirty := dirty, lastUse := m.clock }

/-- Records another request for a register that is mapped. -/
def touch (m : RegisterMap) (r : Guest.Reg) (dirty : Bool) : RegisterMap :=
  let s := m.residence r
  m.setResidence r { s with dirty := s.dirty || dirty, lastUse := m.clock }

@[simp] theorem residence_empty (budget : List Host.Reg) (r : Guest.Reg) :
    (empty budget).residence r = Residence.none := by
  simp [empty, residence]

@[simp] theorem owner_empty (budget : List Host.Reg) (h : Host.Reg) :
    (empty budget).owner h = none := by
  simp [empty, owner]

theorem residence_setResidence (m : RegisterMap) (r x : Guest.Reg) (s : Residence) :
    (m.setResidence r s).residence x = if x = r then s else m.residence x := by
  simp [setResidence, residence, Vector.getElem_set, Fin.ext_iff, eq_comm]

@[simp] theorem owner_setResidence (m : RegisterMap) (r : Guest.Reg) (s : Residence)
    (h : Host.Reg) : (m.setResidence r s).owner h = m.owner h := rfl

theorem owner_setOwner (m : RegisterMap) (h x : Host.Reg) (o : Option Guest.Reg) :
    (m.setOwner h o).owner x = if x = h then o else m.owner x := by
  simp [setOwner, owner, Vector.getElem_set, Fin.ext_iff, eq_comm]

@[simp] theorem residence_setOwner (m : RegisterMap) (h : Host.Reg) (o : Option Guest.Reg)
    (r : Guest.Reg) : (m.setOwner h o).residence r = m.residence r := rfl

end RegisterMap

end MipsOnArm
