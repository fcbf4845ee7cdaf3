import MipsOnArm.Lowering.Operation
import MipsOnArm.Proofs.Host.Flags
import MipsOnArm.Proofs.Residency.Requests

/-! Lowered operations compute what the guest computes. The host code of an arithmetic operation may
    find its destination among its sources; around it, requests bring the registers in. Lowering an
    operation never fails from a map with nothing pinned, and its code turns a machine that stands
    for a guest state into one that stands for the state after the operation. -/

namespace MipsOnArm
open Guest

variable {σ : Type}

namespace Host.Machine

theorem setReg_setReg (x : Machine σ) (r : Reg) (v w : Word) :
    (x.setReg r v).setReg r w = x.setReg r w := by
  simp [setReg]

end Host.Machine

/-- A comparison decided into a register: the operands are read before it is written. -/
theorem follows_compareInto (x : Host.Machine σ) (cond : Host.Cond) (dst lhs : Host.Reg)
    (rhs : Host.Operand) : ∃ f, Host.Follows (compareInto cond dst lhs rhs) x
      { x.setReg dst (truth (cond.relates (x.reg lhs) (x.operand rhs))) with flags := f } := by
  refine ⟨Host.Flags.ofSub (x.reg lhs) (x.operand rhs),
    .step (fun _ _ _ => rfl) (.step (fun _ _ _ => rfl) (.single fun _ _ _ => ?_))⟩
  have hholds := Host.Cond.holds_ofSub (x.reg lhs) (x.operand rhs) cond
  cases hc : cond.relates (x.reg lhs) (x.operand rhs) with
  | true =>
    rw [hc] at hholds
    simp [Host.Machine.perform, Host.Machine.setReg, hholds, truth]
  | false =>
    rw [hc] at hholds
    simp [Host.Machine.perform, Host.Machine.setReg, hholds, truth]

/-- The code of an arithmetic operation leaves its value in the destination; the flags may change,
    and nothing else does. -/
theorem follows_aluCode (x : Host.Machine σ) (op : AluOp) (dst lhs : Host.Reg)
    (rhs : Host.Operand) : ∃ f, Host.Follows (op.code dst lhs rhs) x
      { x.setReg dst (op.apply (x.reg lhs) (x.operand rhs)) with flags := f } := by
  cases op with
  | nor =>
    refine ⟨x.flags, .step (fun _ _ _ => rfl) (.single fun _ _ _ => ?_)⟩
    simp only [Host.Machine.perform, Host.Machine.reg_setReg, if_true, Host.Machine.setReg_setReg]
    rfl
  | slt => exact follows_compareInto x .lt dst lhs rhs
  | sltu => exact follows_compareInto x .lo dst lhs rhs
  | _ => exact ⟨x.flags, .single fun _ _ _ => rfl⟩

theorem confined_aluCode {budget : List Host.Reg} (op : AluOp) {dst : Host.Reg}
    (hd : dst ∈ budget) (lhs : Host.Reg) (rhs : Host.Operand) :
    ∀ i ∈ op.code dst lhs rhs, Host.Confined budget i := by
  intro i hi
  cases op with
  | nor =>
    rcases List.mem_cons.mp hi with rfl | hi
    · exact .alu _ hd lhs rhs
    · cases List.mem_singleton.mp hi; exact .mvn hd dst
  | slt | sltu =>
    rcases List.mem_cons.mp hi with rfl | hi
    · exact .cmp lhs rhs
    · rcases List.mem_cons.mp hi with rfl | hi
      · exact .movImm hd 0
      · cases List.mem_singleton.mp hi; exact .movIf _ hd 1
  | _ => cases List.mem_singleton.mp hi; exact .alu _ hd lhs rhs

/-- The host shift by a constant is the guest's. -/
theorem apply_shift (op : ShiftOp) (value : Word) (sa : BitVec 5) :
    op.host.apply value (sa.zeroExtend 32) = op.apply value sa := by
  have hsa : (sa.zeroExtend 32).toNat % 32 = sa.toNat := by
    have := sa.isLt
    simp only [BitVec.truncate_eq_setWidth, BitVec.toNat_setWidth]
    omega
  cases op <;> simp only [ShiftOp.host, ShiftOp.apply, Host.AluOp.apply, hsa]

/-! ### Steps of code generation that act on the guest state -/

/-- A step leaves an idle map, and its code takes every guest state `s` to `f s`. -/
structure Realises (m : RegisterMap) (f : Cpu → Cpu) (e : Emitted Unit) : Prop where
  idle : e.map.Idle
  budget : e.map.budget = m.budget
  confined : ∀ i ∈ e.code, Host.Confined m.budget i
  carries : ∀ {σ : Type} (x : Host.Machine σ) (s : Cpu), Represents m x s →
    ∃ y, Host.Follows e.code x y ∧ Represents e.map y (f s)

variable {m : RegisterMap}

theorem realises_nothing (hm : m.Idle) : Realises m id ⟨(), [], m⟩ :=
  ⟨hm, rfl, by simp, fun x _ hx => ⟨x, .done x, hx⟩⟩

/-- A constant is loaded into the register that was asked for. -/
theorem exists_run_emitConst (hm : m.Idle) {r : Reg} (hz : r ≠ Reg.zero) (value : Word) :
    ∃ e, (emitConst r value).run m = .ok e ∧ Realises m (·.setGpr r value) e := by
  obtain ⟨e, hrun, he⟩ := hm.exists_run_map r .write (hm.unpinned.room r)
  have hdst : e.value ∈ m.budget := he.budget ▸ he.wellFormed.within r _ he.host
  refine ⟨⟨(), e.code ++ [.movImm e.value value], e.map⟩, ?_, ?_, he.budget, ?_, ?_⟩
  · simp only [emitConst, Emit.run_bind, hrun, Emit.run_write]
  · exact he.idle hm
  · intro i hi
    rcases List.mem_append.mp hi with hi | hi
    · exact he.confined i hi
    · cases List.mem_singleton.mp hi; exact .movImm hdst value
  · intro σ x s hx
    obtain ⟨y, v, hxy, hy, -⟩ := he.write hx
    exact ⟨y.setReg e.value value, hxy.append (.single fun _ _ _ => rfl),
      he.finish (f := y.flags) hz hy⟩

/-- With its sources in place, an instruction brings in its destination and computes its value. -/
theorem Sources.compute {rs : List Reg} {pre : List Host.Instr} {m₁ : RegisterMap}
    {places : List (Reg × Host.Reg)} {r : Reg} {e : Emitted Host.Reg} {f : Cpu → Word}
    (hs : Sources (m.pin rs) pre m₁ places) (he : Mapped m₁ r .write e) (hz : r ≠ Reg.zero)
    (code : List Host.Instr)
    (hconfined : ∀ budget, e.value ∈ budget → ∀ i ∈ code, Host.Confined budget i)
    (hcode : ∀ {σ : Type} (y : Host.Machine σ) (s : Cpu),
      (∀ p ∈ places, y.reg p.2 = s.gpr p.1) →
      ∃ fl, Host.Follows code y { y.setReg e.value (f s) with flags := fl }) :
    Realises m (fun s => s.setGpr r (f s)) ⟨(), pre ++ e.code ++ code, e.map.unpin⟩ where
  idle := he.wellFormed.idle_unpin
  budget := he.budget.trans (hs.budget.trans (m.budget_pin rs))
  confined i hi := by
    have hbudget : m₁.budget = m.budget := hs.budget.trans (m.budget_pin rs)
    have hdst : e.value ∈ m.budget := hbudget ▸ he.budget ▸ he.wellFormed.within r _ he.host
    simp only [List.mem_append] at hi
    rcases hi with (hi | hi) | hi
    · exact m.budget_pin rs ▸ hs.confined i hi
    · exact hbudget ▸ he.confined i hi
    · exact hconfined _ hdst i hi
  carries x s hx := by
    obtain ⟨y, hxy, hy⟩ := hs.carries x s (hx.pin rs)
    obtain ⟨z, v, hyz, hz', hsrc⟩ := he.write hy
    obtain ⟨fl, hcomp⟩ := hcode z s fun p hp => hsrc p.1 p.2 (hs.held p hp)
    exact ⟨_, (hxy.append hyz).append hcomp, (he.finish hz hz').unpin⟩

theorem exists_run_emitArith (hm : m.Idle) (op : AluOp) {rd : Reg} (rs rt : Reg)
    (hz : rd ≠ Reg.zero) : ∃ e, (emitArith op rd rs rt).run m = .ok e ∧
      Realises m (fun s => s.setGpr rd (op.apply (s.gpr rs) (s.gpr rt))) e := by
  have hs₀ := Sources.none (hm.toWellFormed.pin [rd, rs, rt])
  obtain ⟨e₁, hrun₁, hs₁⟩ := hs₀.exists_run_read hm rs (by simp) (by simp)
  obtain ⟨e₂, hrun₂, hs₂⟩ := hs₁.exists_run_read hm rt (by simp) (by simp)
  obtain ⟨e₃, hrun₃, he₃⟩ := hs₂.exists_run_write hm rd (by simp) (by simp)
  refine ⟨_, ?_, hs₂.compute he₃ hz (op.code e₃.value e₁.value (.reg e₂.value))
    (fun _ hd => confined_aluCode op hd _ _) fun y s hsrc => ?_⟩
  · simp only [emitArith, Emit.run_bind, Emit.run_withPinned, hrun₁, hrun₂, hrun₃, Emit.run_pure,
      Emit.run_write, List.append_nil, List.nil_append, List.append_assoc]
  · have hlhs : y.reg e₁.value = s.gpr rs := hsrc (rs, e₁.value) (by simp)
    have hrhs : y.reg e₂.value = s.gpr rt := hsrc (rt, e₂.value) (by simp)
    have hcode := follows_aluCode y op e₃.value e₁.value (.reg e₂.value)
    simp only [Host.Machine.operand, hlhs, hrhs] at hcode
    exact hcode

/-- Arithmetic on a register and an immediate without folding: register 0 is read from a host
    register like any other. As the destination it needs no code. -/
def Guest.emitArithImmUnfolded (op : AluOp) (rt rs : Reg) (imm : Word) : Emit Unit :=
  if rt = Reg.zero then return ()
  else do
    let (lhs, dst) ← Emit.withPinned [rt, rs] do
      let lhs ← Emit.map rs .read
      let dst ← Emit.map rt .write
      return (lhs, dst)
    Emit.write (op.code dst lhs (.imm imm))

theorem exists_run_emitArithImmUnfolded (hm : m.Idle) (op : AluOp) (rt rs : Reg) (imm : Word) :
    ∃ e, (emitArithImmUnfolded op rt rs imm).run m = .ok e ∧
      Realises m (fun s => s.setGpr rt (op.apply (s.gpr rs) imm)) e := by
  by_cases hz : rt = Reg.zero
  · subst hz
    have hid : (fun s : Cpu => s.setGpr Reg.zero (op.apply (s.gpr rs) imm)) = id :=
      funext fun s => s.setGpr_zero _
    refine ⟨⟨(), [], m⟩, ?_, hid ▸ realises_nothing hm⟩
    rw [emitArithImmUnfolded, if_pos rfl, Emit.run_pure]
  have hs₀ := Sources.none (hm.toWellFormed.pin [rt, rs])
  obtain ⟨e₁, hrun₁, hs₁⟩ := hs₀.exists_run_read hm rs (by simp) (by simp)
  obtain ⟨e₂, hrun₂, he₂⟩ := hs₁.exists_run_write hm rt (by simp) (by simp)
  refine ⟨_, ?_, hs₁.compute he₂ hz (op.code e₂.value e₁.value (.imm imm))
    (fun _ hd => confined_aluCode op hd _ _) fun y s hsrc => ?_⟩
  · simp only [emitArithImmUnfolded, hz, if_false, Emit.run_bind, Emit.run_withPinned, hrun₁,
      hrun₂, Emit.run_pure, Emit.run_write, List.append_nil, List.nil_append, List.append_assoc]
  · have hlhs : y.reg e₁.value = s.gpr rs := hsrc (rs, e₁.value) (by simp)
    have hcode := follows_aluCode y op e₂.value e₁.value (.imm imm)
    simp only [Host.Machine.operand, hlhs] at hcode
    exact hcode

/-- Only register 0 is folded. -/
theorem emitArithImm_of_ne (op : AluOp) {rt rs : Reg} (imm : Word) (hz : rt ≠ Reg.zero)
    (hrs : rs ≠ Reg.zero) : emitArithImm op rt rs imm = emitArithImmUnfolded op rt rs imm := by
  rw [emitArithImm, if_neg hrs, emitArithImmUnfolded, if_neg hz]

theorem exists_run_emitArithImm (hm : m.Idle) (op : AluOp) {rt : Reg} (rs : Reg) (imm : Word)
    (hz : rt ≠ Reg.zero) : ∃ e, (emitArithImm op rt rs imm).run m = .ok e ∧
      Realises m (fun s => s.setGpr rt (op.apply (s.gpr rs) imm)) e := by
  by_cases hrs : rs = Reg.zero
  · subst hrs
    simpa only [emitArithImm, if_true, Cpu.gpr_zero] using
      exists_run_emitConst hm hz (op.apply 0 imm)
  · rw [emitArithImm_of_ne op imm hz hrs]
    exact exists_run_emitArithImmUnfolded hm op rt rs imm

theorem exists_run_emitShift (hm : m.Idle) (op : ShiftOp) {rd : Reg} (rt : Reg) (sa : BitVec 5)
    (hz : rd ≠ Reg.zero) : ∃ e, (emitShift op rd rt sa).run m = .ok e ∧
      Realises m (fun s => s.setGpr rd (op.apply (s.gpr rt) sa)) e := by
  have hs₀ := Sources.none (hm.toWellFormed.pin [rd, rt])
  obtain ⟨e₁, hrun₁, hs₁⟩ := hs₀.exists_run_read hm rt (by simp) (by simp)
  obtain ⟨e₂, hrun₂, he₂⟩ := hs₁.exists_run_write hm rd (by simp) (by simp)
  refine ⟨_, ?_, hs₁.compute he₂ hz
    [.alu op.host e₂.value e₁.value (.imm (sa.zeroExtend 32))]
    (fun _ hd i hi => ?_) fun y s hsrc => ⟨y.flags, ?_⟩⟩
  · simp only [emitShift, Emit.run_bind, Emit.run_withPinned, hrun₁, hrun₂, Emit.run_pure,
      Emit.run_write, List.append_nil, List.nil_append, List.append_assoc]
  · cases List.mem_singleton.mp hi; exact .alu _ hd _ _
  · have hsrc' : y.reg e₁.value = s.gpr rt := hsrc (rt, e₁.value) (by simp)
    rw [← apply_shift, ← hsrc']
    exact .single fun _ _ _ => rfl

/-- Lowering an operation never fails, and its code performs it. -/
theorem exists_run_operation (hm : m.Idle) (o : Operation) :
    ∃ e, o.emit.run m = .ok e ∧ Realises m o.perform e := by
  by_cases hz : o.dest? = some Reg.zero
  · have hid : o.perform = id := funext fun s => by
      simp [Operation.perform, hz, Cpu.setGpr_zero]
    refine ⟨⟨(), [], m⟩, ?_, hid ▸ realises_nothing hm⟩
    rw [Operation.emit, if_pos hz, Emit.run_pure]
  · rw [Operation.emit, if_neg hz]
    cases o with
    | nop => exact ⟨⟨(), [], m⟩, rfl, realises_nothing hm⟩
    | alu op rd rs rt => exact exists_run_emitArith hm op rs rt fun e => hz (e ▸ rfl)
    | aluImm op rt rs imm => exact exists_run_emitArithImm hm op rs imm fun e => hz (e ▸ rfl)
    | shift op rd rt sa => exact exists_run_emitShift hm op rt sa fun e => hz (e ▸ rfl)
    | lui rt imm => exact exists_run_emitConst hm (fun e => hz (e ▸ rfl)) _

theorem realises_of_run (hm : m.Idle) {o : Operation} {e : Emitted Unit}
    (hrun : o.emit.run m = .ok e) : Realises m o.perform e := by
  obtain ⟨e', hrun', he'⟩ := exists_run_operation hm o
  cases hrun.symm.trans hrun'
  exact he'

/-! ### Arithmetic on any registers -/

/-- An immediate operation is lowered without folding, unless it reads register 0. -/
theorem emit_aluImm_of_ne (op : AluOp) (rt : Reg) {rs : Reg} (imm : Word) (hrs : rs ≠ Reg.zero) :
    (Operation.aluImm op rt rs imm).emit = emitArithImmUnfolded op rt rs imm := by
  have hdest : (Operation.aluImm op rt rs imm).dest? = some rt := rfl
  by_cases hz : rt = Reg.zero
  · rw [Operation.emit, hdest, if_pos (congrArg some hz), emitArithImmUnfolded, if_pos hz]
  · rw [Operation.emit, hdest, if_neg fun e => hz (Option.some.inj e)]
    exact emitArithImm_of_ne op imm hz hrs

/-- Arithmetic is lowered to what the guest computes. The code of an operation leaves its value in
    the destination, which may be one of the operands, and changes no other register and no field of
    the guest state. An immediate operation on register 0 is folded to the value that the code for
    all other registers would compute from its zero. A shift puts the shifted value into its
    destination, which may be its source: to the left modulo the size of a word, to the right
    without or with the sign. -/
theorem realises_arithmetic :
    (∀ {σ : Type} (x : Host.Machine σ) (op : AluOp) (dst lhs : Host.Reg) (rhs : Host.Operand),
      ∃ y, Host.Follows (op.code dst lhs rhs) x y ∧
        y.reg dst = op.apply (x.reg lhs) (x.operand rhs) ∧
        (∀ r, r ≠ dst → y.reg r = x.reg r) ∧ y.cpu = x.cpu) ∧
    (∀ (op : AluOp) (rt : Reg) (imm : Word),
      (∀ rs, rs ≠ Reg.zero →
        (Operation.aluImm op rt rs imm).emit = emitArithImmUnfolded op rt rs imm) ∧
      ∀ m : RegisterMap, m.Idle → ∃ folded unfolded,
        (Operation.aluImm op rt Reg.zero imm).emit.run m = .ok folded ∧
        (emitArithImmUnfolded op rt Reg.zero imm).run m = .ok unfolded ∧
        Realises m (·.setGpr rt (op.apply 0 imm)) folded ∧
        Realises m (·.setGpr rt (op.apply 0 imm)) unfolded) ∧
    (∀ (op : ShiftOp) (rd rt : Reg) (sa : BitVec 5) (m : RegisterMap), m.Idle →
      ∃ e, (Operation.shift op rd rt sa).emit.run m = .ok e ∧
        Realises m (fun s => s.setGpr rd (op.apply (s.gpr rt) sa)) e) ∧
    ∀ (value : Word) (sa : BitVec 5),
      (ShiftOp.sll.apply value sa).toNat = value.toNat <<< sa.toNat % 0x100000000 ∧
      (ShiftOp.srl.apply value sa).toNat = value.toNat >>> sa.toNat ∧
      (ShiftOp.sra.apply value sa).toInt = value.toInt >>> sa.toNat := by
  refine ⟨fun x op dst lhs rhs => ?_, fun op rt imm => ⟨fun rs => emit_aluImm_of_ne op rt imm,
    fun m hm => ?_⟩, fun op rd rt sa m hm => exists_run_operation hm (.shift op rd rt sa),
    fun value sa => ⟨BitVec.toNat_shiftLeft, BitVec.toNat_ushiftRight value sa.toNat,
      BitVec.toInt_sshiftRight⟩⟩
  · obtain ⟨f, hxy⟩ := follows_aluCode x op dst lhs rhs
    refine ⟨_, hxy, ?_, fun r hr => Host.reg_setReg_of_ne x _ hr, rfl⟩
    exact (x.reg_setReg dst dst _).trans (if_pos rfl)
  · obtain ⟨folded, hrun, hfolded⟩ := exists_run_operation hm (.aluImm op rt Reg.zero imm)
    obtain ⟨unfolded, hrun', hunfolded⟩ := exists_run_emitArithImmUnfolded hm op rt Reg.zero imm
    simp only [Cpu.gpr_zero] at hunfolded
    have hperform : (Operation.aluImm op rt Reg.zero imm).perform =
        fun s => s.setGpr rt (op.apply 0 imm) := by
      funext s
      exact congrArg (fun v => s.setGpr rt (op.apply v imm)) s.gpr_zero
    exact ⟨folded, unfolded, hrun, hrun', hperform ▸ hfolded, hunfolded⟩

/-- Arithmetic in place, a folded comparison with register 0, and a shift of a negative value into
    its own register. -/
theorem realises_arithmetic_inPlace :
    (∃ y : Host.Machine Unit, Host.Follows (AluOp.sltu.code 4 4 (.imm 7))
      ((Host.Machine.start (.start 0x1000) ()).setReg 4 5) y ∧ y.reg 4 = 1 ∧ y.reg 5 = 0) ∧
    (∃ e, (Operation.aluImm .slt 8 0 1).emit.run (.fresh 0) = .ok e ∧
      Realises (.fresh 0) (·.setGpr 8 1) e) ∧
    ∃ e, (Operation.shift .sra 8 8 4).emit.run (.fresh 0) = .ok e ∧ ∃ y : Host.Machine Unit,
      Host.Follows e.code (.start ((Cpu.start 0x1000).setGpr 8 0x80000000) ()) y ∧
        Represents e.map y ((Cpu.start 0x1000).setGpr 8 0xf8000000) := by
  obtain ⟨hcode, himm, hshift, -⟩ := realises_arithmetic
  have hidle : (RegisterMap.fresh 0).Idle := RegisterMap.idle_fresh 0
  refine ⟨?_, ?_, ?_⟩
  · obtain ⟨y, hxy, hdst, hother, -⟩ :=
      hcode ((Host.Machine.start (.start 0x1000) ()).setReg 4 5) .sltu 4 4 (.imm 7)
    exact ⟨y, hxy, hdst.trans (by decide), (hother 5 (by decide)).trans (by decide)⟩
  · obtain ⟨folded, -, hrun, -, hfolded, -⟩ := (himm .slt 8 1).2 (.fresh 0) hidle
    exact ⟨folded, hrun, hfolded⟩
  · obtain ⟨e, hrun, he⟩ := hshift .sra 8 8 4 (.fresh 0) hidle
    have hx := represents_fresh 0 (Host.Machine.start ((Cpu.start 0x1000).setGpr 8 0x80000000) ())
    obtain ⟨y, hxy, hy⟩ := he.carries _ ((Cpu.start 0x1000).setGpr 8 0x80000000) hx
    have hshifted : ShiftOp.sra.apply (((Cpu.start 0x1000).setGpr 8 0x80000000).gpr 8) 4 =
        0xf8000000 := by decide
    rw [hshifted, Cpu.setGpr_setGpr] at hy
    exact ⟨e, hrun, y, hxy, hy⟩

end MipsOnArm
