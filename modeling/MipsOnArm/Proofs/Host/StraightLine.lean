import MipsOnArm.Block

/-! Execution of host code in pieces. Straight-line code leads from one machine to another, whatever
    handles system calls; `Leaves` says how a run ends that starts somewhere in a block. All
    branches lead forward, so the code that is left bounds the steps that are needed. -/

namespace MipsOnArm

namespace Guest.Cpu

theorem readAt_offset (s : Cpu) (f : Field) : s.readAt f.offset = .ok (s.get f) := by
  simp only [readAt, Field.ofOffset_offset]
  rfl

theorem writeAt_offset (s : Cpu) (f : Field) (value : Word) :
    s.writeAt f.offset value = .ok (s.set f value) := by
  simp only [writeAt, Field.ofOffset_offset]
  rfl

end Guest.Cpu

namespace Host

variable {σ : Type}

/-- Running `i` leads from `x` to `y` and on to the next instruction, under any handler. -/
def Step (i : Instr) (x y : Machine σ) : Prop :=
  ∀ handler residue index, x.perform handler residue index i = .ok (y, .next)

/-- Straight-line code leads from one machine to another. -/
inductive Follows : List Instr → Machine σ → Machine σ → Prop
  | done (x : Machine σ) : Follows [] x x
  | step {i : Instr} {is : List Instr} {x y z : Machine σ} (head : Step i x y)
      (tail : Follows is y z) : Follows (i :: is) x z

theorem Follows.single {i : Instr} {x y : Machine σ} (h : Step i x y) : Follows [i] x y :=
  .step h (.done y)

theorem Follows.append {is js : List Instr} {x y z : Machine σ} (h : Follows is x y)
    (h' : Follows js y z) : Follows (is ++ js) x z := by
  induction h with
  | done => exact h'
  | step head _ ih => exact .step head (ih h')

theorem step_load (x : Machine σ) (dst : Reg) (f : Guest.Field) :
    Step (.load dst f.offset) x (x.setReg dst (x.cpu.get f)) := by
  intro handler residue index
  simp only [Machine.perform, Guest.Cpu.readAt_offset]
  rfl

theorem step_store (x : Machine σ) (src : Reg) (f : Guest.Field) :
    Step (.store src f.offset) x { x with cpu := x.cpu.set f (x.reg src) } := by
  intro handler residue index
  simp only [Machine.perform, Guest.Cpu.writeAt_offset]
  rfl

theorem Step.unique {i : Instr} {x y z : Machine σ} (hy : Step i x y) (hz : Step i x z) :
    y = z := by
  have heq := (hy (fun _ c e => (c, e)) Residue.standard 0).symm.trans
    (hz (fun _ c e => (c, e)) Residue.standard 0)
  exact (Prod.mk.inj (Except.ok.inj heq)).1

/-- Straight-line code leads to one machine only. -/
theorem Follows.unique {is : List Instr} {x y z : Machine σ} (hy : Follows is x y)
    (hz : Follows is x z) : y = z := by
  induction hy with
  | done => cases hz; rfl
  | step head _ ih =>
    cases hz with
    | step head' tail' =>
      cases head.unique head'
      exact ih tail'

/-- A step that every handler agrees on makes no call. -/
theorem Step.quiet {i : Instr} {x y : Machine σ} (h : Step i x y) :
    y.env = x.env ∧ y.calls = x.calls := by
  have hrun := h (fun _ c e => (c, e)) Residue.standard 0
  cases i with
  | callSyscall word =>
    -- two handlers leave different program counters
    have hrun' := h (fun _ c e => (c.set .pc (c.pc + 1), e)) Residue.standard 0
    have heq := congrArg (fun r => r.map fun p => p.1.cpu.pc) (hrun.trans hrun'.symm)
    have hpc : x.cpu.pc = x.cpu.pc + 1 := Except.ok.inj heq
    simp at hpc
  | load dst offset =>
    rw [Machine.perform] at hrun
    cases hread : x.cpu.readAt offset with
    | error fault => rw [hread] at hrun; cases hrun
    | ok value => rw [hread] at hrun; cases hrun; exact ⟨rfl, rfl⟩
  | store src offset =>
    rw [Machine.perform] at hrun
    cases hwrite : x.cpu.writeAt offset (x.reg src) with
    | error fault => rw [hwrite] at hrun; cases hrun
    | ok cpu => rw [hwrite] at hrun; cases hrun; exact ⟨rfl, rfl⟩
  | movIf cond dst imm =>
    simp only [Machine.perform, Except.ok.injEq, Prod.mk.injEq, and_true] at hrun
    subst hrun
    split <;> exact ⟨rfl, rfl⟩
  | branch cond target =>
    cases target with
    | none => cases hrun
    | some target =>
      simp only [Machine.perform, Except.ok.injEq, Prod.mk.injEq] at hrun
      rw [hrun.1]
      exact ⟨rfl, rfl⟩
  | exit | exitToReg | exitSyscall => cases hrun
  | _ => cases hrun; exact ⟨rfl, rfl⟩

theorem Follows.quiet {is : List Instr} {x y : Machine σ} (h : Follows is x y) :
    y.env = x.env ∧ y.calls = x.calls := by
  induction h with
  | done => exact ⟨rfl, rfl⟩
  | step head _ ih => exact ⟨ih.1.trans head.quiet.1, ih.2.trans head.quiet.2⟩

/-! ### What an instruction writes -/

/-- The register that an instruction writes, if it writes one. -/
def Instr.dst? : Instr → Option Reg
  | movImm dst _ => some dst
  | mov dst _ => some dst
  | mvn dst _ => some dst
  | movIf _ dst _ => some dst
  | load dst _ => some dst
  | alu _ dst _ _ => some dst
  | saveFlags dst => some dst
  | _ => none

/-- A native call leaves the other registers alone. -/
theorem getElem_foldl_set (values : Reg → Word) {rs : List Reg} {r : Reg} (hr : r ∉ rs)
    (regs : Vector Word 16) :
    getElem (rs.foldl (fun regs q => regs.set q.val (values q) q.val_lt) regs) r.val r.val_lt =
      getElem regs r.val r.val_lt := by
  induction rs generalizing regs with
  | nil => rfl
  | cons q rs ih =>
    obtain ⟨hq, hrs⟩ := not_or.mp (mt List.mem_cons.mpr hr)
    rw [List.foldl_cons, ih hrs, Vector.getElem_set_ne]
    exact fun e => hq (Fin.ext e.symm)

theorem reg_setReg_of_ne (x : Machine σ) {dst r : Reg} (value : Word) (h : r ≠ dst) :
    (x.setReg dst value).reg r = x.reg r := by
  rw [Machine.reg_setReg, if_neg h]

/-- No other register changes, except for those that a native call may change. -/
theorem reg_eq_of_perform {handler : Handler σ} {residue : Residue} {index : Nat} {x y : Machine σ}
    {i : Instr} {flow : Flow} (h : x.perform handler residue index i = .ok (y, flow)) {r : Reg}
    (hr : i.dst? ≠ some r) (hcall : ∀ word, i = .callSyscall word → r ∉ Reg.callerSaved) :
    y.reg r = x.reg r := by
  have hne : ∀ dst, i.dst? = some dst → r ≠ dst := by
    rintro dst hdst rfl
    exact hr hdst
  cases i with
  | movImm dst | mov dst | mvn dst | alu op dst | saveFlags dst =>
    cases h
    exact reg_setReg_of_ne x _ (hne dst rfl)
  | movIf cond dst imm =>
    simp only [Machine.perform, Except.ok.injEq, Prod.mk.injEq] at h
    rw [← h.1]
    split
    · exact reg_setReg_of_ne x _ (hne dst rfl)
    · rfl
  | load dst offset =>
    rw [Machine.perform] at h
    cases hread : x.cpu.readAt offset with
    | error fault => rw [hread] at h; cases h
    | ok value => rw [hread] at h; cases h; exact reg_setReg_of_ne x _ (hne dst rfl)
  | store src offset =>
    rw [Machine.perform] at h
    cases hwrite : x.cpu.writeAt offset (x.reg src) with
    | error fault => rw [hwrite] at h; cases h
    | ok cpu => rw [hwrite] at h; cases h; rfl
  | callSyscall word =>
    cases h
    exact getElem_foldl_set residue.regs (hcall word rfl) x.regs
  | branch cond target =>
    cases target with
    | none => cases h
    | some target => cases h; rfl
  | _ => cases h; rfl

/-! ### Instructions that keep to the guest registers and to the scratch register -/

/-- What is written to move guest registers and to compute with them: results go to host registers
    of the budget, and only condition words go to the scratch register. -/
inductive Confined (budget : List Reg) : Instr → Prop
  | movImm {dst : Reg} (h : dst ∈ budget) (imm : Word) : Confined budget (.movImm dst imm)
  | mvn {dst : Reg} (h : dst ∈ budget) (src : Reg) : Confined budget (.mvn dst src)
  | movIf (cond : Cond) {dst : Reg} (h : dst ∈ budget) (imm : Word) :
      Confined budget (.movIf cond dst imm)
  | load {dst : Reg} (h : dst ∈ budget) {r : Guest.Reg} (hr : r ≠ Guest.Reg.zero) :
      Confined budget (.load dst (Guest.Field.gpr r).offset)
  | loadCondition {f : Guest.Field} (hf : f = .fpuCond ∨ f = .vfpuCond) :
      Confined budget (.load Reg.scratch f.offset)
  | store (src : Reg) {r : Guest.Reg} (hr : r ≠ Guest.Reg.zero) :
      Confined budget (.store src (Guest.Field.gpr r).offset)
  | alu (op : AluOp) {dst : Reg} (h : dst ∈ budget) (lhs : Reg) (rhs : Operand) :
      Confined budget (.alu op dst lhs rhs)
  | cmp (lhs : Reg) (rhs : Operand) : Confined budget (.cmp lhs rhs)
  | tst (lhs : Reg) (rhs : Operand) : Confined budget (.tst lhs rhs)

/-- The instruction writes the scratch register or one of the budget, if any. -/
def Keeps (budget : List Reg) (i : Instr) : Prop :=
  ∀ r, i.dst? = some r → r = Reg.scratch ∨ r ∈ budget

theorem Confined.keeps {budget : List Reg} {i : Instr} (hi : Confined budget i) :
    Keeps budget i := by
  intro r hr
  cases hi with
  | movImm hd | mvn hd | movIf cond hd | load hd | alu op hd => cases hr; exact .inr hd
  | loadCondition => cases hr; exact .inl rfl
  | store | cmp | tst => cases hr

/-- Such instructions leave the other registers alone. -/
theorem Confined.reg_eq {budget : List Reg} {i : Instr} (hi : Confined budget i) {x y : Machine σ}
    (h : Step i x y) {r : Reg} (hr : r ∉ budget) (hs : r ≠ Reg.scratch) : y.reg r = x.reg r := by
  refine reg_eq_of_perform (h (fun _ c e => (c, e)) Residue.standard 0) ?_ ?_
  · intro hdst
    exact (hi.keeps r hdst).elim hs hr
  · rintro word rfl
    cases hi

theorem Follows.reg_eq {budget : List Reg} {is : List Instr} {x y : Machine σ} (h : Follows is x y)
    (hi : ∀ i ∈ is, Confined budget i) {r : Reg} (hr : r ∉ budget) (hs : r ≠ Reg.scratch) :
    y.reg r = x.reg r := by
  induction h with
  | done => rfl
  | step head _ ih =>
    exact (ih fun i hmem => hi i (List.mem_cons_of_mem _ hmem)).trans
      ((hi _ List.mem_cons_self).reg_eq head hr hs)

/-! ### Runs that end -/

/-- The instructions `is` stand in `code` from `index` on. -/
def Placed (code : Array Instr) (index : Nat) (is : List Instr) : Prop :=
  is <+: code.toList.drop index

theorem placed_nil {code : Array Instr} {index : Nat} : Placed code index [] :=
  List.nil_prefix

theorem placed_toArray (is : List Instr) : Placed is.toArray 0 is := by
  simp [Placed]

theorem placed_cons {code : Array Instr} {index : Nat} {i : Instr} {is : List Instr} :
    Placed code index (i :: is) ↔ code[index]? = some i ∧ Placed code (index + 1) is := by
  unfold Placed
  cases hget : code[index]? with
  | none =>
    have : code.toList.length ≤ index := by simpa using hget
    simp [List.drop_eq_nil_of_le this]
  | some j =>
    obtain ⟨hlt, rfl⟩ := Array.getElem?_eq_some_iff.mp hget
    have hcons : code.toList.drop index = code[index] :: code.toList.drop (index + 1) := by
      rw [← Array.getElem_toList, List.drop_eq_getElem_cons (by simpa using hlt)]
    rw [hcons, List.cons_prefix_cons]
    simp [eq_comm]

theorem placed_append {code : Array Instr} {index : Nat} {is js : List Instr} :
    Placed code index (is ++ js) ↔ Placed code index is ∧ Placed code (index + is.length) js := by
  induction is generalizing index with
  | nil => simp [Placed]
  | cons i is ih =>
    rw [List.cons_append, placed_cons, placed_cons, ih, List.length_cons, and_assoc,
      show index + 1 + is.length = index + (is.length + 1) by omega]

section
variable (handler : Handler σ) (residue : Residue) (entry : Word) (code : Array Instr)

/-- A run from `index` hands control back and leaves the execution `e`. -/
def Leaves (index : Nat) (x : Machine σ) (e : Execution σ) : Prop :=
  ∀ fuel, code.size - index ≤ fuel → ∃ y d,
    Machine.run handler residue entry code fuel index x = .ok (y, d) ∧
      d.execution y.cpu y.env y.calls = e

variable {handler residue entry code}

/-- An instruction in the code needs one more step than what follows it. -/
theorem exists_fuel_of_getElem? {index fuel : Nat} {i : Instr} (hi : code[index]? = some i)
    (hf : code.size - index ≤ fuel) :
    ∃ f, fuel = f + 1 ∧ ∀ j, index < j → code.size - j ≤ f := by
  have hlt := (Array.getElem?_eq_some_iff.mp hi).1
  exact ⟨fuel - 1, by omega, fun j hj => by omega⟩

theorem leaves_of_step {index : Nat} {i : Instr} {x y : Machine σ} {e : Execution σ}
    (hi : code[index]? = some i) (hs : x.perform handler residue index i = .ok (y, .next))
    (h : Leaves handler residue entry code (index + 1) y e) :
    Leaves handler residue entry code index x e := by
  intro fuel hf
  obtain ⟨f, rfl, hle⟩ := exists_fuel_of_getElem? hi hf
  simp only [Machine.run, hi, hs]
  exact h f (hle _ (by omega))

/-- Straight-line code is run through. -/
theorem leaves_of_follows {index : Nat} {is : List Instr} {x y : Machine σ} {e : Execution σ}
    (hp : Placed code index is) (hs : Follows is x y)
    (h : Leaves handler residue entry code (index + is.length) y e) :
    Leaves handler residue entry code index x e := by
  induction hs generalizing index with
  | done => exact h
  | step head _ ih =>
    obtain ⟨hi, hp⟩ := placed_cons.mp hp
    refine leaves_of_step hi (head handler residue index) (ih hp ?_)
    rwa [List.length_cons, ← Nat.add_assoc, Nat.add_right_comm] at h

theorem leaves_of_branch {index target : Nat} {cond : Cond} {x : Machine σ} {e : Execution σ}
    (hi : code[index]? = some (.branch cond (some target))) (hlt : index < target)
    (h : Leaves handler residue entry code (if cond.holds x.flags then target else index + 1) x e) :
    Leaves handler residue entry code index x e := by
  intro fuel hf
  obtain ⟨f, rfl, hle⟩ := exists_fuel_of_getElem? hi hf
  simp only [Machine.run, hi, Machine.perform]
  cases hc : cond.holds x.flags with
  | true =>
    rw [hc] at h
    exact h f (hle _ hlt)
  | false =>
    simp only [hc, Bool.false_eq_true, if_false] at h
    exact h f (hle _ (by omega))

theorem leaves_of_leave {index : Nat} {i : Instr} {d : Departure} {x : Machine σ}
    (hi : code[index]? = some i)
    (hs : x.perform handler residue index i = .ok (x, .leave d)) :
    Leaves handler residue entry code index x (d.execution x.cpu x.env x.calls) := by
  intro fuel hf
  obtain ⟨f, rfl, -⟩ := exists_fuel_of_getElem? hi hf
  exact ⟨x, d, by simp only [Machine.run, hi, hs], rfl⟩

end

/-- A block is executed as a run of its code from the start leaves it. -/
theorem executeFrom_of_leaves {handler : Handler σ} {residue : Residue} {b : Block} {x : Machine σ}
    {e : Execution σ} (h : Leaves handler residue b.entry b.code 0 x e) :
    b.executeFrom handler residue x = .ok e := by
  obtain ⟨y, d, hrun, he⟩ := h b.stepLimit (by unfold Block.stepLimit; omega)
  simp only [Block.executeFrom, hrun, ← he]
  rfl

end Host

end MipsOnArm
