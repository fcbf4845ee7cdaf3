import MipsOnArm.RegisterMap

/-! Steps of code generation. A step reads and changes the register map, appends host code and
    yields a value; running two steps one after the other appends their code in order. The basic
    step is `map`, which brings a guest register into a host register. -/

namespace MipsOnArm

/-- What a step yields: its value, the code it appends, and the register map after it. -/
structure Emitted (α : Type) where
  value : α
  code : List Host.Instr
  map : RegisterMap

/-- A step of code generation; it may find that it was used wrongly. -/
def Emit (α : Type) : Type := RegisterMap → Except Fault (Emitted α)

/-- What the caller of `Emit.map` needs. -/
structure Need where
  /-- The current value. -/
  value : Bool
  /-- A place to write, so that the register is stored later. -/
  place : Bool
  deriving DecidableEq, Repr, Inhabited

/-- The register is read. -/
def Need.read : Need := ⟨true, false⟩

/-- The register is overwritten. -/
def Need.write : Need := ⟨false, true⟩

namespace Emit

/-- Runs a step from a register map. -/
def run {α : Type} (e : Emit α) (m : RegisterMap) : Except Fault (Emitted α) := e m

instance : Monad Emit where
  pure a := fun m => .ok ⟨a, [], m⟩
  bind e f := fun m =>
    match e m with
    | .error fault => .error fault
    | .ok first =>
      match f first.value first.map with
      | .error fault => .error fault
      | .ok second => .ok ⟨second.value, first.code ++ second.code, second.map⟩

/-- The register map at this point. -/
def getMap : Emit RegisterMap := fun m => .ok ⟨m, [], m⟩

/-- Changes the register map. -/
def modifyMap (f : RegisterMap → RegisterMap) : Emit Unit := fun m => .ok ⟨(), [], f m⟩

/-- Appends instructions. -/
def write (code : List Host.Instr) : Emit Unit := fun m => .ok ⟨(), code, m⟩

/-- Gives up with a fault. -/
def fail {α : Type} (fault : Fault) : Emit α := fun _ => .error fault

/-- Writes a register back if it is dirty and drops its mapping. -/
def flush (r : Guest.Reg) : Emit Unit := fun m =>
  let (code, m) := m.flush r
  .ok ⟨(), code, m⟩

/-- Writes all dirty registers back and drops all mappings. -/
def flushAll : Emit Unit := fun m =>
  let (code, m) := m.flushAll
  .ok ⟨(), code, m⟩

/-- The host register that holds a guest register, which must be mapped. -/
def holder (r : Guest.Reg) : Emit Host.Reg := do
  match (← getMap).host? r with
  | some h => return h
  | none => fail (.notMapped r)

/-- A host register that holds nothing: the first free one, or that of the guest register whose last
    use lies furthest back. -/
def allocate : Emit Host.Reg := do
  let m ← getMap
  match m.firstFree? with
  | some h => return h
  | none =>
    match m.victim? with
    | none => fail (.registersExhausted m.budget.length)
    | some r =>
      let h ← holder r
      flush r
      return h

/-- The code that gives a newly mapped register its value. Register 0 always gets its constant. -/
def fill (r : Guest.Reg) (h : Host.Reg) (need : Need) : List Host.Instr :=
  if r = Guest.Reg.zero then [.movImm h 0]
  else if need.value then [.load h (Guest.Field.gpr r).offset]
  else []

/-- Brings a guest register into a host register and yields that register. Register 0 is never
    dirty. -/
def map (r : Guest.Reg) (need : Need) : Emit Host.Reg := do
  modifyMap (·.tick)
  let dirty := need.place && r ≠ Guest.Reg.zero
  match (← getMap).host? r with
  | some h =>
    modifyMap (·.touch r dirty)
    return h
  | none =>
    let h ← allocate
    write (fill r h need)
    modifyMap (·.settle r h dirty)
    return h

/-- Runs a step while the given registers are pinned. -/
def withPinned {α : Type} (rs : List Guest.Reg) (e : Emit α) : Emit α := do
  modifyMap (·.pin rs)
  let a ← e
  modifyMap (·.unpin)
  return a

theorem run_pure {α : Type} (a : α) (m : RegisterMap) :
    (pure a : Emit α).run m = .ok ⟨a, [], m⟩ := rfl

/-- The second of two steps starts from the map that the first one leaves, and its code follows. -/
theorem run_bind {α β : Type} (e : Emit α) (f : α → Emit β) (m : RegisterMap) :
    (e >>= f).run m =
      match e.run m with
      | .error fault => .error fault
      | .ok first =>
        match (f first.value).run first.map with
        | .error fault => .error fault
        | .ok second => .ok ⟨second.value, first.code ++ second.code, second.map⟩ := rfl

private theorem map_id {α : Type} (e : Emit α) : id <$> e = e := by
  funext m
  show (e >>= fun a => pure (id a)).run m = e.run m
  rw [run_bind]
  cases e.run m <;> simp [run_pure]

private theorem pure_then {α β : Type} (a : α) (f : α → Emit β) : pure a >>= f = f a := by
  funext m
  show (pure a >>= f).run m = (f a).run m
  rw [run_bind, run_pure]
  cases h : (f a).run m <;> simp [h]

private theorem then_assoc {α β γ : Type} (e : Emit α) (f : α → Emit β) (g : β → Emit γ) :
    e >>= f >>= g = e >>= fun a => f a >>= g := by
  funext m
  show (e >>= f >>= g).run m = (e >>= fun a => f a >>= g).run m
  simp only [run_bind]
  cases e.run m with
  | error => rfl
  | ok first =>
    cases h : (f first.value).run first.map with
    | error => simp [h]
    | ok second => cases hg : (g second.value).run second.map <;> simp [h, hg]

instance : LawfulMonad Emit := LawfulMonad.mk' Emit map_id pure_then then_assoc

end Emit

end MipsOnArm
