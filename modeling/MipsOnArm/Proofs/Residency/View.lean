import MipsOnArm.Proofs.Residency.Requests

/-! The registers of the guest as they can be read at any point of the code: from the host register
    that holds a guest register, else from the stored state. Whatever is asked of the map, and
    whatever is written to host registers that hold dirty guest registers, no request that succeeds
    loses or changes a value. -/

namespace MipsOnArm
open Guest

variable {σ : Type} {m : RegisterMap} {x y : Host.Machine σ} {s : Cpu}

/-- The value of a guest register, wherever it is kept. -/
def RegisterMap.view (m : RegisterMap) (x : Host.Machine σ) (r : Reg) : Word :=
  if r = Reg.zero then 0
  else
    match m.host? r with
    | some h => x.reg h
    | none => x.cpu.gpr r

/-- The view is that of the state that the machine stands for. -/
theorem Represents.view_eq (hx : Represents m x s) (r : Reg) : m.view x r = s.gpr r := by
  rw [RegisterMap.view]
  by_cases hz : r = Reg.zero
  · rw [if_pos hz, hz, Cpu.gpr_zero]
  · rw [if_neg hz]
    cases hr : m.host? r with
    | some h => exact hx.held r h hr
    | none => exact hx.stored r (.inl hr)

/-! ### Requests -/

/-- What may be asked of a register map. A register is mapped for its value, for a place to write,
    or for both. -/
inductive Request
  | map (r : Reg) (need : Need) (asked : need.value = true ∨ need.place = true)
  | pin (rs : List Reg)
  | unpin
  | flush (r : Reg)
  | flushAll

namespace Request

/-- The step of code generation, with the host register that it yields. -/
def emit : Request → Emit (Option Host.Reg)
  | map r need _ => do
    let h ← Emit.map r need
    return some h
  | pin rs => do
    Emit.modifyMap (·.pin rs)
    return none
  | unpin => do
    Emit.modifyMap (·.unpin)
    return none
  | flush r => do
    Emit.flush r
    return none
  | flushAll => do
    Emit.flushAll
    return none

/-- Whether a request leaves the value of `q` alone: all do, but for one that newly maps `q`, which
    is not register 0, without its value. -/
def Spares (req : Request) (m : RegisterMap) (q : Reg) : Prop :=
  match req with
  | map r need _ => q = r → r = Reg.zero ∨ need.value = true ∨ (m.host? r).isSome = true
  | _ => True

variable {req : Request} {e : Emitted (Option Host.Reg)}

/-- After a request, the machine stands for a state with the same values, but for those that the
    request does not spare. -/
structure Carries (req : Request) (m : RegisterMap) (s : Cpu) (e : Emitted (Option Host.Reg))
    (y : Host.Machine σ) (s' : Cpu) : Prop where
  wellFormed : e.map.WellFormed
  represents : Represents e.map y s'
  spared : ∀ q, req.Spares m q → s'.gpr q = s.gpr q
  rest : ∀ f, (∀ r, f ≠ .gpr r) → s'.get f = s.get f
  host : ∀ r need asked, req = map r need asked →
    ∃ h, e.value = some h ∧ e.map.host? r = some h
  flushed : req = flushAll → e.map.Flushed

/-- A request that maps nothing keeps all values. -/
theorem Carries.same (hmap : ∀ r need asked, req ≠ map r need asked) (hm : e.map.WellFormed)
    (hy : Represents e.map y s) (hflushed : req = flushAll → e.map.Flushed) :
    req.Carries m s e y s where
  wellFormed := hm
  represents := hy
  spared _ _ := rfl
  rest _ _ := rfl
  host r need asked h := absurd h (hmap r need asked)
  flushed := hflushed

/-- A mapped register changes its value only if the value was not asked for. -/
theorem exists_carries_map (hm : m.WellFormed) (hx : Represents m x s) {r : Reg} {need : Need}
    {asked : need.value = true ∨ need.place = true} (he : (map r need asked).emit.run m = .ok e) :
    ∃ y s', Host.Follows e.code x y ∧ (map r need asked).Carries m s e y s' := by
  rw [emit, Emit.run_bind] at he
  cases hrun : (Emit.map r need).run m with
  | error fault => rw [hrun] at he; cases he
  | ok e' =>
    simp only [hrun, Emit.run_pure, List.append_nil, Except.ok.injEq] at he
    subst he
    have hmapped := hm.mapped_of_run hrun
    obtain ⟨y, v, hxy, hy, hv, -⟩ := hmapped.carries x s hx asked
    refine ⟨y, s.setGpr r v, hxy, hmapped.wellFormed, hy, fun q hq => ?_, fun f hf => ?_, ?_,
      by simp⟩
    · by_cases hqr : q = r
      · rcases hq hqr with hz | hkept
        · rw [hz, Cpu.setGpr_zero]
        · rw [hv hkept, Cpu.setGpr_gpr]
      · rw [Cpu.gpr_setGpr, if_neg (fun h => hqr h.1)]
    · exact Cpu.get_setGpr_of_ne s r v f (hf r)
    · rintro r' need' asked' ⟨⟩
      exact ⟨_, rfl, hmapped.host⟩

/-- A request that succeeds carries the guest state over. -/
theorem exists_carries (hm : m.WellFormed) (hx : Represents m x s) (he : req.emit.run m = .ok e) :
    ∃ y s', Host.Follows e.code x y ∧ req.Carries m s e y s' := by
  cases req with
  | map r need asked => exact exists_carries_map hm hx he
  | pin rs =>
    cases he
    exact ⟨x, s, .done x, .same (by simp) (hm.pin rs) (hx.pin rs) (by simp)⟩
  | unpin =>
    cases he
    exact ⟨x, s, .done x, .same (by simp) hm.unpin hx.unpin (by simp)⟩
  | flush r =>
    rw [emit, Emit.run_bind, Emit.run_flush] at he
    simp only [Emit.run_pure, List.append_nil, Except.ok.injEq] at he
    subst he
    obtain ⟨y, hxy, hy, -⟩ := hx.flush r
    exact ⟨y, s, hxy, .same (by simp) (hm.flush r) hy (by simp)⟩
  | flushAll =>
    rw [emit, Emit.run_bind, Emit.run_flushAll] at he
    obtain ⟨y, hxy, hy, -⟩ := hx.flushEach Reg.all
    rw [← RegisterMap.flushAll] at hxy hy
    have hwell := hm.flushAll
    have hflushed := m.flushed_flushAll
    generalize m.flushAll = p at he hxy hy hwell hflushed
    simp only [Emit.run_pure, List.append_nil, Except.ok.injEq] at he
    subst he
    exact ⟨y, s, hxy, .same (by simp) hwell hy fun _ => hflushed⟩

/-- A request fails only if every host register of the budget holds a pinned register. -/
theorem of_run_error (hm : m.WellFormed) {fault : Fault} (he : req.emit.run m = .error fault) :
    fault = .registersExhausted m.budget.length ∧
      ∀ h ∈ m.budget, ∃ q, m.owner h = some q ∧ (m.residence q).pinned = true := by
  cases req with
  | map r need asked =>
    rw [emit, Emit.run_bind] at he
    cases hrun : (Emit.map r need).run m with
    | error fault =>
      rw [hrun] at he
      cases he
      obtain ⟨hfault, -, hpinned⟩ := (hm.run_map_eq_error_iff r need fault).mp hrun
      exact ⟨hfault, hpinned⟩
    | ok e =>
      rw [hrun] at he
      cases he
  | flushAll =>
    rw [emit, Emit.run_bind, Emit.run_flushAll] at he
    cases he
  | _ => cases he

end Request

/-! ### Series of requests -/

/-- The maps and machines that come about from a fresh map with a budget of `n` and the machine
    `start`. The code of each request is run before the next one, and between requests the host
    register of a dirty guest register other than register 0 may be written. -/
inductive Served (n : Nat) (start : Host.Machine σ) : RegisterMap → Host.Machine σ → Prop
  | fresh : Served n start (RegisterMap.fresh n) start
  | request {m : RegisterMap} {x y : Host.Machine σ} {req : Request}
      {e : Emitted (Option Host.Reg)} (hx : Served n start m x) (he : req.emit.run m = .ok e)
      (hxy : Host.Follows e.code x y) : Served n start e.map y
  | write {m : RegisterMap} {x : Host.Machine σ} {r : Reg} {h : Host.Reg} (hx : Served n start m x)
      (hr : m.owner h = some r) (hz : r ≠ Reg.zero) (hd : (m.residence r).dirty = true)
      (value : Word) : Served n start m (x.setReg h value)

/-- The map is well-formed, and the machine stands for some guest state, of which only the registers
    have changed. -/
theorem Served.exists_represents {n : Nat} {start : Host.Machine σ} (h : Served n start m x) :
    m.WellFormed ∧ ∃ s, Represents m x s ∧
      ∀ f, (∀ r, f ≠ .gpr r) → s.get f = start.cpu.get f := by
  induction h with
  | fresh =>
    exact ⟨RegisterMap.wellFormed_fresh n, start.cpu, represents_fresh n start, fun _ _ => rfl⟩
  | request _ he hxy ih =>
    obtain ⟨hm, s, hx, hrest⟩ := ih
    obtain ⟨y, s', hxy', hcarries⟩ := Request.exists_carries hm hx he
    cases hxy.unique hxy'
    exact ⟨hcarries.wellFormed, s', hcarries.represents,
      fun f hf => (hcarries.rest f hf).trans (hrest f hf)⟩
  | @write m x r h _ hr _ hd value ih =>
    obtain ⟨hm, s, hx, hrest⟩ := ih
    refine ⟨hm, s.setGpr r value, hx.setReg hm ((hm.inverse r h).mpr hr) hd value, fun f hf => ?_⟩
    rw [Cpu.get_setGpr_of_ne s r value f (hf r)]
    exact hrest f hf

/-- Requests and writes do to the view what they should. Only the registers of the guest state ever
    change. A request fails only where every host register holds a pinned register. The code of one
    that succeeds can be run, and leaves the view of every register that the request spares; a
    mapped register is in the host register that is yielded, and after everything is flushed the
    stored registers are the view. A write to the host register of a dirty guest register changes
    the view of that one. -/
theorem view_of_served {n : Nat} {start x : Host.Machine σ} {m : RegisterMap}
    (h : Served n start m x) :
    (∀ f, (∀ r, f ≠ .gpr r) → x.cpu.get f = start.cpu.get f) ∧
      (∀ (req : Request) fault, req.emit.run m = .error fault →
        fault = .registersExhausted m.budget.length ∧
          ∀ k ∈ m.budget, ∃ q, m.owner k = some q ∧ (m.residence q).pinned = true) ∧
      (∀ (req : Request) e, req.emit.run m = .ok e → ∃ y, Host.Follows e.code x y ∧
        (∀ q, req.Spares m q → e.map.view y q = m.view x q) ∧
        (∀ r need asked, req = .map r need asked → ∃ k, e.value = some k ∧
          e.map.host? r = some k ∧ y.reg k = e.map.view y r) ∧
        (req = .flushAll → ∀ r, y.cpu.gpr r = m.view x r)) ∧
      ∀ r k, m.owner k = some r → r ≠ Reg.zero → (m.residence r).dirty = true →
        ∀ value q, m.view (x.setReg k value) q = if q = r then value else m.view x q := by
  obtain ⟨hm, s, hx, hrest⟩ := h.exists_represents
  refine ⟨fun f hf => (hx.rest f hf).trans (hrest f hf),
    fun req fault he => Request.of_run_error hm he, fun req e he => ?_,
    fun r k hk hz hd value q => ?_⟩
  · obtain ⟨y, s', hxy, hcarries⟩ := Request.exists_carries hm hx he
    have hview : ∀ q, req.Spares m q → e.map.view y q = m.view x q := fun q hq => by
      rw [hcarries.represents.view_eq, hx.view_eq, hcarries.spared q hq]
    refine ⟨y, hxy, hview, fun r need asked hreq => ?_, fun hreq r => ?_⟩
    · obtain ⟨k, hk, hhost⟩ := hcarries.host r need asked hreq
      exact ⟨k, hk, hhost, by
        rw [hcarries.represents.view_eq, hcarries.represents.held r k hhost]⟩
    · rw [← hview r (hreq ▸ trivial), hcarries.represents.view_eq]
      exact hcarries.represents.stored r (.inl (hcarries.flushed hreq r))
  · have hset := hx.setReg hm ((hm.inverse r k).mpr hk) hd value
    rw [hset.view_eq, hx.view_eq, Cpu.gpr_setGpr]
    simp only [hz, ne_eq, not_false_eq_true, and_true]

/-- A value that is written to the host register of a guest register is stored at the next flush. -/
theorem view_of_served_written :
    ∃ m, ∃ x y : Host.Machine Unit, Served 0 (.start (.start 0x1000) ()) m x ∧
      Host.Follows m.flushAll.1 x y ∧ y.cpu.gpr 8 = 5 ∧ y.cpu.pc = 0x1000 := by
  have hrun : (Request.map 8 .write (.inr rfl)).emit.run (.fresh 0) =
      .ok ⟨some 4, [], (RegisterMap.fresh 0).tick.settle 8 4 true⟩ := rfl
  have hmapped : Served 0 (Host.Machine.start (.start 0x1000) ()) _ _ :=
    .request .fresh hrun (.done _)
  have hwritten := hmapped.write (r := 8) (h := 4) rfl (by decide) rfl 5
  have hview := (view_of_served hmapped).2.2.2 8 4 rfl (by decide) rfl 5 8
  obtain ⟨y, hxy, -, -, hstored⟩ := (view_of_served hwritten).2.2.1 .flushAll _ rfl
  have hflushed : Served 0 (Host.Machine.start (.start 0x1000) ()) _ y :=
    hwritten.request (show Request.flushAll.emit.run _ = _ from rfl) hxy
  exact ⟨_, _, y, hwritten, hxy, (hstored rfl 8).trans hview,
    (view_of_served hflushed).1 .pc (by simp)⟩

end MipsOnArm
