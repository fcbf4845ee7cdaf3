import MipsOnArm.Proofs.Lowering.Delayed

/-! How a lowered branch comes to its decision. The flags of its comparison tell whether the guest
    takes the branch, from whatever registers were mapped and after everything is written back. Kept
    in their register they outlast the delay slot, whatever its code does to the flags. -/

namespace MipsOnArm
open Guest Host

variable {σ : Type} {handler : Handler σ} {residue : Residue} {x y z : Machine σ}

/-! ### Saved flags -/

/-- The instructions are run in this order, from one machine to another, wherever each of them
    stands and wherever it leads. -/
inductive Host.Performs (handler : Handler σ) (residue : Residue) :
    List Host.Instr → Machine σ → Machine σ → Prop
  | done (x : Machine σ) : Performs handler residue [] x x
  | step {i : Host.Instr} {is : List Host.Instr} {x y z : Machine σ} {flow : Flow} (index : Nat)
      (head : x.perform handler residue index i = .ok (y, flow))
      (tail : Performs handler residue is y z) : Performs handler residue (i :: is) x z

namespace Host.Performs

theorem exists_of_append {is js : List Host.Instr} (h : Performs handler residue (is ++ js) x z) :
    ∃ y, Performs handler residue is x y ∧ Performs handler residue js y z := by
  induction is generalizing x with
  | nil => exact ⟨x, .done x, h⟩
  | cons i is ih =>
    cases h with
    | step index head tail =>
      obtain ⟨y, his, hjs⟩ := ih tail
      exact ⟨y, .step index head his, hjs⟩

/-- A register that native calls spare keeps its value if no instruction writes it. -/
theorem reg_eq {is : List Host.Instr} {r : Host.Reg} (h : Performs handler residue is x y)
    (his : ∀ i ∈ is, i.dst? ≠ some r) (hr : r ∉ Reg.callerSaved) : y.reg r = x.reg r := by
  induction h with
  | done => rfl
  | step _ head _ ih =>
    obtain ⟨hi, his⟩ := List.forall_mem_cons.mp his
    exact (ih his).trans (reg_eq_of_perform head hi fun _ _ => hr)

/-- Flags that are saved before other code and restored after it are the same, if that code leaves
    their register alone. -/
theorem flags_eq {slot : List Host.Instr} (hslot : ∀ i ∈ slot, i.dst? ≠ some Reg.savedFlags)
    (h : Performs handler residue
      (.saveFlags Reg.savedFlags :: slot ++ [.restoreFlags Reg.savedFlags]) x z) :
    z.flags = x.flags := by
  obtain ⟨y, hbefore, hrestore⟩ := h.exists_of_append
  cases hbefore with
  | step _ hsave hcode =>
    cases hsave
    cases hrestore with
    | step _ hrestored hnil =>
      cases hrestored
      cases hnil
      have hkept := hcode.reg_eq hslot (by decide)
      rw [Machine.reg_setReg, if_pos rfl] at hkept
      show Flags.ofWord (y.reg Reg.savedFlags) = x.flags
      rw [hkept, Flags.ofWord_toWord]

end Host.Performs

/-! ### The decision -/

/-- From the flags, the host condition of the branch tells that it is not taken, and the inverse
    condition that it is. -/
structure Branch.Tells (b : Branch) (taken : Bool) (f : Flags) : Prop where
  notTaken : b.notTaken.holds f = !taken
  taken : b.notTaken.invert.holds f = taken

variable {c : Control} {w : InstrWord} {b : Branch} {s : Cpu}

theorem tells_of_decided (hb : c.branch? w = some b) {f : Flags}
    (hf : b.comparison.Decided s b.notTaken f) : b.Tells (c.taken w s) f where
  notTaken := notTaken_holds hb hf
  taken := by
    rw [Cond.holds_invert f (notTaken_ne_always hb), notTaken_holds hb hf, Bool.not_not]

/-- The comparison of a conditional branch and the flush behind it can always be written, and their
    code leaves flags that tell whether the guest takes the branch. Restored behind a delay slot
    whose code leaves their register alone, the flags still tell it. Where two registers are
    compared, the flags of their plain comparison tell the same, also where register 0 makes it
    simpler. -/
theorem tells_of_comparison (hb : c.branch? w = some b) {m : RegisterMap} (hm : m.Idle)
    (hx : Represents m x s) :
    (∀ fetch, Lowering.lowerControl fetch c w =
      Lowering.admitted (Lowering.lowerBranch fetch w b)) ∧
    ∃ e e' y, (b.comparison.emit b.notTaken).run m = .ok e ∧ Emit.flushAll.run e.map = .ok e' ∧
      Follows (e.code ++ e'.code) x y ∧ y.cpu = s ∧ b.Tells (c.taken w s) y.flags ∧
      (∀ handler residue slot z, (∀ i ∈ slot, i.dst? ≠ some Reg.savedFlags) →
        Performs handler residue
          (.saveFlags Reg.savedFlags :: slot ++ [.restoreFlags Reg.savedFlags]) y z →
        b.Tells (c.taken w s) z.flags) ∧
      ∀ rs rt, b.comparison = .pair rs rt →
        b.Tells (c.taken w s) (.ofSub (s.gpr rs) (s.gpr rt)) ∧
        ∃ plain z, (Comparison.emitPair rs rt).run m = .ok plain ∧ Follows plain.code x z ∧
          b.Tells (c.taken w s) z.flags := by
  obtain ⟨e, hrun, he⟩ := Comparison.exists_run_emit hm b.comparison b.notTaken
  obtain ⟨e', hflush, he'⟩ := he.idle.exists_run_flushAll
  obtain ⟨y, hxy, hy, hdecided⟩ := he.carries x s hx
  obtain ⟨z, hyz, hz, honly⟩ := he'.carries y s hy
  have htells : b.Tells (c.taken w s) z.flags := honly.flags ▸ tells_of_decided hb hdecided
  refine ⟨fun fetch => Lowering.lowerControl_of_branch fetch hb,
    e, e', z, hrun, hflush, hxy.append hyz, hz, htells, fun handler residue slot u hslot hzu => ?_,
    fun rs rt hpair => ⟨tells_of_decided hb ?_, ?_⟩⟩
  · exact hzu.flags_eq hslot ▸ htells
  · rw [hpair]
    exact Cond.holds_ofSub _ _ _
  · obtain ⟨plain, hplain, hcompares⟩ := Comparison.exists_run_emitPair hm rs rt b.notTaken
    obtain ⟨u, hxu, -, hdecided'⟩ := hcompares.carries x s hx
    exact ⟨plain, u, hplain, hxu, tells_of_decided hb (hpair ▸ hdecided')⟩

/-- A register that is newer than the guest state is compared with register 0 on its left. Its store
    follows, and neither a comparison nor a system call in the slot changes the decision. -/
theorem tells_of_comparison_swapped :
    ∃ (m : RegisterMap) (x y z : Machine Unit) (e e' : Emitted Unit),
      m.host? 8 = some 4 ∧ x.reg 4 = 5 ∧ x.cpu.gpr 8 = 0 ∧
      ((Comparison.pair 0 8).emit .ne).run m = .ok e ∧ Emit.flushAll.run e.map = .ok e' ∧
      Follows (e.code ++ e'.code) x y ∧ y.cpu.gpr 8 = 5 ∧
      Performs (fun _ cpu env => (cpu, env)) Residue.standard [.saveFlags Reg.savedFlags,
        .cmp 4 (.reg 4), .callSyscall 12, .restoreFlags Reg.savedFlags] y z ∧
      Cond.ne.holds y.flags = true ∧ Cond.ne.holds z.flags = true := by
  have hfresh : (RegisterMap.fresh 0).Idle := RegisterMap.idle_fresh 0
  -- register 8 is asked for, and its host register is written
  have hmap : (Emit.map 8 .write).run (.fresh 0) =
      .ok ⟨4, [], (RegisterMap.fresh 0).tick.settle 8 4 true⟩ := rfl
  have hmapped := hfresh.mapped_of_run hmap
  obtain ⟨x, v, hstep, hx, -⟩ :=
    hmapped.write (represents_fresh 0 (Machine.start (.start 0x1000) ()))
  cases hstep
  have hx' := hmapped.finish (w := 5) (f := Flags.clear) (by decide) hx
  obtain ⟨-, e, e', y, hrun, hflush, hxy, hy, htells, hsaved, -⟩ :=
    tells_of_comparison (c := .branchPair .eq false) (w := ⟨0x10080003⟩) rfl
      (hmapped.idle hfresh) hx'
  have hperforms : Performs (fun _ cpu env => (cpu, env)) Residue.standard
      [.saveFlags Reg.savedFlags, .cmp 4 (.reg 4), .callSyscall 12,
        .restoreFlags Reg.savedFlags] y _ :=
    .step 0 rfl (.step 1 rfl (.step 2 rfl (.step 3 rfl (.done _))))
  have hagain := hsaved _ _ [.cmp 4 (.reg 4), .callSyscall 12] _ (by decide) hperforms
  exact ⟨_, _, y, _, e, e', rfl, rfl, rfl, hrun, hflush, hxy, hy ▸ rfl, hperforms,
    htells.notTaken, hagain.notTaken⟩

end MipsOnArm
