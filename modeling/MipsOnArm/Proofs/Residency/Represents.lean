import MipsOnArm.Emit
import MipsOnArm.Proofs.Host.StraightLine
import MipsOnArm.Proofs.Residency.WellFormed

/-! The guest state that a machine stands for while registers are mapped. A mapped register is found
    in its host register; every register that is unmapped or clean is found in the stored state, so
    a clean mapping may be dropped without a store. Flushing changes where the state is kept, and
    not the state. -/

namespace MipsOnArm
open Guest

variable {σ : Type}

/-- Under the map `m`, the machine `x` stands for the guest state `s`. -/
structure Represents (m : RegisterMap) (x : Host.Machine σ) (s : Cpu) : Prop where
  held : ∀ r h, m.host? r = some h → x.reg h = s.gpr r
  stored : ∀ r, m.host? r = none ∨ (m.residence r).dirty = false → x.cpu.gpr r = s.gpr r
  rest : ∀ f, (∀ r, f ≠ .gpr r) → x.cpu.get f = s.get f

namespace Guest.Cpu

theorem setGpr_zero (s : Cpu) (value : Word) : s.setGpr Reg.zero value = s := by
  simp [setGpr]

theorem setGpr_gpr (s : Cpu) (r : Reg) : s.setGpr r (s.gpr r) = s := by
  apply ext_get
  intro f
  by_cases hf : f = .gpr r
  · subst hf; simp [get, gpr_setGpr]
  · exact get_setGpr_of_ne s r _ f hf

theorem setGpr_setGpr (s : Cpu) (r : Reg) (v w : Word) :
    (s.setGpr r v).setGpr r w = s.setGpr r w := by
  apply ext_get
  intro f
  by_cases hf : f = .gpr r
  · subst hf; simp only [get, gpr_setGpr]; split <;> simp_all
  · rw [get_setGpr_of_ne _ r w f hf, get_setGpr_of_ne _ r v f hf, get_setGpr_of_ne _ r w f hf]

end Guest.Cpu

variable {m : RegisterMap} {x : Host.Machine σ} {s : Cpu}

/-- With nothing mapped, the machine stands for the state that it stores. -/
theorem represents_iff_of_flushed (hm : m.Flushed) : Represents m x s ↔ x.cpu = s := by
  constructor
  · rintro ⟨-, hstored, hrest⟩
    apply Cpu.ext_get
    intro f
    cases f with
    | gpr r => exact hstored r (.inl (hm r))
    | _ => exact hrest _ nofun
  · rintro rfl
    exact ⟨fun r h hr => by simp [hm r] at hr, fun _ _ => rfl, fun _ _ => rfl⟩

theorem represents_fresh (n : Nat) (x : Host.Machine σ) : Represents (.fresh n) x x.cpu :=
  (represents_iff_of_flushed (RegisterMap.flushed_fresh n)).mpr rfl

namespace Represents

/-- Pins, the clock and the times of last use do not matter. -/
theorem congr {m' : RegisterMap} (hx : Represents m x s) (hhost : ∀ r, m'.host? r = m.host? r)
    (hdirty : ∀ r, (m'.residence r).dirty = (m.residence r).dirty) : Represents m' x s where
  held r h hr := hx.held r h (hhost r ▸ hr)
  stored r hr := hx.stored r (by rwa [hhost, hdirty] at hr)
  rest := hx.rest

/-- Host registers that hold no guest register do not matter either. -/
theorem of_regs {y : Host.Machine σ} (hx : Represents m x s) (hcpu : y.cpu = x.cpu)
    (hregs : ∀ r h, m.host? r = some h → y.reg h = x.reg h) : Represents m y s where
  held r h hr := (hregs r h hr).trans (hx.held r h hr)
  stored r hr := by rw [hcpu]; exact hx.stored r hr
  rest f hf := by rw [hcpu]; exact hx.rest f hf

/-- Writing the host register of a dirty guest register writes that guest register. -/
theorem setReg (hx : Represents m x s) (hm : m.WellFormed) {r : Reg} {h : Host.Reg}
    (hr : m.host? r = some h) (hd : (m.residence r).dirty = true) (value : Word) :
    Represents m (x.setReg h value) (s.setGpr r value) := by
  have hz : r ≠ Reg.zero := by
    rintro rfl
    simp [hm.zeroClean] at hd
  refine ⟨fun q k hq => ?_, fun q hq => ?_, fun f hf => ?_⟩
  · rw [Host.Machine.reg_setReg, Cpu.gpr_setGpr]
    by_cases hqr : q = r
    · subst q
      have hk : k = h := Option.some.inj (hq.symm.trans hr)
      simp [hk, hz]
    · have hk : k ≠ h := fun e => hqr (hm.host_inj (e ▸ hq) hr)
      simpa [hk, hqr] using hx.held q k hq
  · have hqr : q ≠ r := by
      rintro rfl
      simp [hr, hd] at hq
    rw [Cpu.gpr_setGpr, if_neg (fun e => hqr e.1)]
    exact hx.stored q hq
  · rw [Cpu.get_setGpr_of_ne s r value f (hf r)]
    exact hx.rest f hf

end Represents

/-! ### Flushing -/

namespace RegisterMap

theorem confined_flush (hm : m.WellFormed) (r : Reg) :
    ∀ i ∈ (m.flush r).1, Host.Confined m.budget i := by
  cases hr : m.host? r with
  | none => simp [flush_of_unmapped hr]
  | some h =>
    rw [flush_of_mapped hr]
    intro i hi
    by_cases hd : (m.residence r).dirty = true
    · have hz : r ≠ Reg.zero := by
        rintro rfl
        simp [hm.zeroClean] at hd
      simp only [hd, if_true, List.mem_singleton] at hi
      subst hi
      exact .store h hz
    · simp [hd] at hi

theorem confined_flushEach (hm : m.WellFormed) (rs : List Reg) :
    ∀ i ∈ (m.flushEach rs).1, Host.Confined m.budget i := by
  induction rs generalizing m with
  | nil => simp [flushEach]
  | cons r rs ih =>
    intro i hi
    rcases List.mem_append.mp hi with hi | hi
    · exact confined_flush hm r i hi
    · exact budget_flush m r ▸ ih (hm.flush r) i hi

theorem confined_flushAll (hm : m.WellFormed) :
    ∀ i ∈ m.flushAll.1, Host.Confined m.budget i := confined_flushEach hm _

end RegisterMap

/-- Code that only stores keeps the registers and the flags. -/
structure OnlyStores (x y : Host.Machine σ) : Prop where
  regs : y.regs = x.regs
  flags : y.flags = x.flags

theorem OnlyStores.refl (x : Host.Machine σ) : OnlyStores x x := ⟨rfl, rfl⟩

theorem OnlyStores.trans {x y z : Host.Machine σ} (h : OnlyStores x y) (h' : OnlyStores y z) :
    OnlyStores x z :=
  ⟨h'.regs.trans h.regs, h'.flags.trans h.flags⟩

theorem OnlyStores.reg {x y : Host.Machine σ} (h : OnlyStores x y) (r : Host.Reg) :
    y.reg r = x.reg r := by
  simp only [Host.Machine.reg, h.regs]

namespace Represents

/-- A stored register may be dropped, and a dirty one is stored first. -/
theorem flush (hx : Represents m x s) (r : Reg) : ∃ y,
    Host.Follows (m.flush r).1 x y ∧ Represents (m.flush r).2 y s ∧ OnlyStores x y := by
  cases hr : m.host? r with
  | none =>
    rw [RegisterMap.flush_of_unmapped hr]
    exact ⟨x, .done x, hx, .refl x⟩
  | some h =>
    have hhost := RegisterMap.host?_flush m r
    have hres := RegisterMap.residence_flush m r
    -- after a store, or for a clean register, the stored state has the value
    obtain ⟨y, hy, honly, hcpu, hother⟩ : ∃ y, Host.Follows (m.flush r).1 x y ∧ OnlyStores x y ∧
        y.cpu.gpr r = s.gpr r ∧ ∀ f, f ≠ .gpr r → y.cpu.get f = x.cpu.get f := by
      rw [RegisterMap.flush_of_mapped hr]
      cases hd : (m.residence r).dirty with
      | true =>
        refine ⟨_, .single (Host.step_store x h (.gpr r)), ⟨rfl, rfl⟩, ?_,
          fun f hf => Cpu.get_set_of_ne x.cpu _ f _ hf⟩
        show (x.cpu.setGpr r (x.reg h)).gpr r = s.gpr r
        rw [Cpu.gpr_setGpr, hx.held r h hr]
        by_cases hz : r = Reg.zero
        · simp [hz]
        · simp [hz]
      | false => exact ⟨x, .done x, .refl x, hx.stored r (.inr hd), fun _ _ => rfl⟩
    refine ⟨y, hy, ⟨fun q k hq => ?_, fun q hq => ?_, fun f hf => ?_⟩, honly⟩
    · rw [hhost] at hq
      split at hq
      · cases hq
      · rw [honly.reg]; exact hx.held q k hq
    · by_cases hqr : q = r
      · subst q; exact hcpu
      · rw [hhost, hres] at hq
        simp only [hqr, false_and, if_false] at hq
        have hget := hother (.gpr q) (by simpa using hqr)
        exact hget.trans (hx.stored q hq)
    · rw [hother f (hf r)]; exact hx.rest f hf

theorem flushEach (hx : Represents m x s) (rs : List Reg) : ∃ y,
    Host.Follows (m.flushEach rs).1 x y ∧ Represents (m.flushEach rs).2 y s ∧ OnlyStores x y := by
  induction rs generalizing m x with
  | nil => exact ⟨x, .done x, hx, .refl x⟩
  | cons r rs ih =>
    obtain ⟨y, hxy, hy, hkept⟩ := hx.flush r
    obtain ⟨z, hyz, hz, hkept'⟩ := ih hy
    exact ⟨z, hxy.append hyz, hz, hkept.trans hkept'⟩

/-- After everything is flushed the stored state is the whole state. -/
theorem flushAll (hx : Represents m x s) : ∃ y,
    Host.Follows m.flushAll.1 x y ∧ y.cpu = s ∧ OnlyStores x y := by
  obtain ⟨y, hxy, hy, hkept⟩ := hx.flushEach Reg.all
  exact ⟨y, hxy, (represents_iff_of_flushed m.flushed_flushAll).mp hy, hkept⟩

end Represents

end MipsOnArm
