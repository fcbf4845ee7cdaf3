import MipsOnArm.Proofs.BlockTable.Links
import MipsOnArm.Proofs.Lowering.Exits
import MipsOnArm.Proofs.Session.Steps

/-! What a step means by a linked exit. However the compiler and the table were used before, with
    memory changing at will, an exit that is taken is linked just when its target is in the table;
    the link leads where the guest continues, and the next step finds its block there. -/

namespace MipsOnArm
open Guest Lowering

/-! ### The exit that is taken -/

section
variable {σ : Type} {handler : Handler σ} {residue : Host.Residue} {entry : Word}

theorem Host.Machine.eq_exit_of_perform {index : Nat} {x y : Host.Machine σ} {i : Host.Instr}
    {target : Word} {slot : ExitSlot}
    (h : x.perform handler residue index i = .ok (y, .leave (.linked target slot))) :
    i = .exit target slot := by
  cases i with
  | exit => cases h; rfl
  | load dst offset =>
    rw [Host.Machine.perform] at h
    cases hread : x.cpu.readAt offset with
    | error fault => rw [hread] at h; cases h
    | ok value => rw [hread] at h; cases h
  | store src offset =>
    rw [Host.Machine.perform] at h
    cases hwrite : x.cpu.writeAt offset (x.reg src) with
    | error fault => rw [hwrite] at h; cases h
    | ok cpu => rw [hwrite] at h; cases h
  | branch cond target? =>
    cases target? with
    | none => cases h
    | some dest =>
      rw [Host.Machine.perform] at h
      cases hc : cond.holds x.flags <;> simp [hc] at h
  | _ => cases h

/-- A run that ends at an exit has found it in the code. -/
theorem Host.Machine.exists_exit_of_run {code : Array Host.Instr} {fuel index : Nat}
    {x y : Host.Machine σ} {target : Word} {slot : ExitSlot}
    (h : Host.Machine.run handler residue entry code fuel index x =
      .ok (y, .linked target slot)) : ∃ k : Nat, code[k]? = some (.exit target slot) := by
  induction fuel generalizing index x with
  | zero => cases h
  | succ fuel ih =>
    rw [Host.Machine.run] at h
    cases hi : code[index]? with
    | none => rw [hi] at h; cases h
    | some i =>
      rw [hi] at h
      dsimp only at h
      split at h
      · cases h
      · exact ih h
      · exact ih h
      · next hperform =>
        cases h
        exact ⟨index, hi.trans (congrArg some (eq_exit_of_perform hperform))⟩

/-- An execution comes from a run, and the program counter follows the departure. -/
theorem Block.exists_run_of_execute {b : Block} {cpu : Cpu} {env : σ} {ex : Execution σ}
    (h : b.execute handler cpu env = .ok ex) :
    (∃ y, Host.Machine.run handler Host.Residue.standard b.entry b.code b.stepLimit 0
      (.start cpu env) = .ok (y, ex.departure)) ∧ ex.cpu.pc = ex.departure.address := by
  rw [Block.execute, Block.executeFrom] at h
  cases hrun : Host.Machine.run handler Host.Residue.standard b.entry b.code b.stepLimit 0
      (.start cpu env) with
  | error fault => rw [hrun] at h; cases h
  | ok p =>
    rw [hrun] at h
    cases h
    exact ⟨⟨p.1, rfl⟩, rfl⟩

end

/-- Some compiler has handed out the block, from some words. -/
def Block.HandedOut (b : Block) : Prop :=
  ∃ t u fetch entry, t.Fits ∧ (lowerBlock fetch entry).run t = .ok (.ok b, u)

namespace Block.HandedOut

variable {σ : Type} {b : Block}

theorem nodup_slots (hb : b.HandedOut) : (b.exits.map Exit.slot).Nodup := by
  obtain ⟨t, u, fetch, entry, ht, h⟩ := hb
  obtain ⟨r, hr, hok, rfl⟩ := exists_restLowered ht h
  exact hr.nodup_slots hok

theorem exists_execute (hb : b.HandedOut) (handler : Handler σ) (cpu : Cpu) (env : σ) :
    ∃ ex, b.execute handler cpu env = .ok ex := by
  obtain ⟨t, u, fetch, entry, ht, h⟩ := hb
  obtain ⟨ex, -, hhost⟩ := exists_executeFrom ht h handler cpu env
  exact ⟨ex, hhost _ _ _⟩

/-- An exit that is taken is one of those listed. -/
theorem exists_exit (hb : b.HandedOut) {handler : Handler σ} {cpu : Cpu} {env : σ}
    {ex : Execution σ} (hex : b.execute handler cpu env = .ok ex) {target : Word} {slot : ExitSlot}
    (hdeparture : ex.departure = .linked target slot) :
    ∃ e ∈ b.exits, e.slot = slot ∧ e.target = target := by
  obtain ⟨t, u, fetch, entry, ht, h⟩ := hb
  obtain ⟨r, hr, -, rfl⟩ := exists_restLowered ht h
  obtain ⟨⟨y, hrun⟩, -⟩ := Block.exists_run_of_execute hex
  rw [hdeparture] at hrun
  obtain ⟨k, hk⟩ := Host.Machine.exists_exit_of_run hrun
  refine ⟨⟨target, slot, k⟩, ?_, rfl, rfl⟩
  show _ ∈ r.exits
  rw [hr.exits_eq (RegisterMap.idle_fresh _)]
  exact mem_exitsOf.mpr ⟨k, (Nat.zero_add k).symm, List.getElem?_toArray.symm.trans hk⟩

end Block.HandedOut

/-! ### What every operation keeps -/

/-- Every block that was put into the table had been handed out by a compiler. -/
structure Kept (compiler : Compiler) (table : BlockTable) : Prop where
  fits : compiler.Fits
  built : ∃ inserted, BlockTable.Built inserted table ∧ ∀ b ∈ inserted, b.HandedOut

/-- From a guest state the step has run the block `b` of the table that it leaves. -/
structure Ran {σ : Type} (handler : Handler σ) (cpu : Cpu) (env : σ) (s' : Session σ) (step : Step)
    (b : Block) (ex : Execution σ) : Prop where
  get : s'.table.get? cpu.pc = some b
  execute : b.execute handler cpu env = .ok ex
  after : s'.cpu = ex.cpu
  entry : step.entry = cpu.pc
  next : step.next = ex.cpu.pc
  departure : step.departure = ex.departure
  linked : step.linked = Session.isLinked s'.table cpu.pc ex.departure

namespace Kept

variable {σ : Type} {compiler : Compiler} {table : BlockTable}

theorem start (hfits : compiler.Fits) : Kept compiler .empty :=
  ⟨hfits, [], .empty, fun _ hb => absurd hb List.not_mem_nil⟩

theorem erase (h : Kept compiler table) (entry : Word) : Kept compiler (table.erase entry) := by
  obtain ⟨inserted, hbuilt, hhanded⟩ := h.built
  exact ⟨h.fits, inserted, hbuilt.erase entry, hhanded⟩

theorem clear (h : Kept compiler table) : Kept compiler .empty := by
  obtain ⟨inserted, hbuilt, hhanded⟩ := h.built
  exact ⟨h.fits, inserted, hbuilt.clear, hhanded⟩

theorem handedOut (h : Kept compiler table) {entry : Word} {b : Block}
    (hb : table.get? entry = some b) : b.HandedOut := by
  obtain ⟨inserted, hbuilt, hhanded⟩ := h.built
  exact hhanded b (hbuilt.mem_inserted hb)

theorem exists_preload (fetch : Word → Word) {s : Session σ} (h : Kept s.compiler s.table)
    (entry : Word) : ∃ u table result,
      s.preload fetch entry = .ok ({ s with compiler := u, table := table }, result) ∧
        Kept u table ∧ ∀ b, result = .ok b → table.get? entry = some b := by
  obtain ⟨res, u, hrun, -, -, hfits⟩ := exists_run_of_fits fetch h.fits entry
  cases res with
  | error refusal =>
    exact ⟨u, s.table, .error refusal, Session.preload_of_refused hrun, ⟨hfits, h.built⟩, nofun⟩
  | ok b =>
    obtain ⟨inserted, hbuilt, hhanded⟩ := h.built
    refine ⟨u, s.table.insert b, .ok b, Session.preload_of_lowered hrun,
      ⟨hfits, b :: inserted, hbuilt.afterInsert b, ?_⟩, ?_⟩
    · exact List.forall_mem_cons.mpr ⟨⟨s.compiler, u, fetch, entry, h.fits, hrun⟩, hhanded⟩
    · rintro _ ⟨⟩
      rw [BlockTable.get?_insert, if_pos (entry_of_run_lowerBlock hrun).symm]

/-- A block of the table is run. -/
theorem exists_runBlock {s : Session σ} (h : Kept s.compiler s.table) (handler : Handler σ)
    {b : Block} (hb : s.table.get? s.cpu.pc = some b) (lowered : Bool) :
    ∃ s' step ex, s.runBlock handler b lowered = .ok (s', step) ∧ Kept s'.compiler s'.table ∧
      Ran handler s.cpu s.env s' step b ex ∧ step.lowered = lowered := by
  obtain ⟨ex, hex⟩ := (h.handedOut hb).exists_execute handler s.cpu s.env
  exact ⟨_, _, ex, Session.run_runBlock hex lowered, h, ⟨hb, hex, rfl, rfl, rfl, rfl, rfl⟩, rfl⟩

/-- A step never fails, and keeps the table. -/
theorem exists_step (fetch : Word → Word) (handler : Handler σ) {s : Session σ}
    (h : Kept s.compiler s.table) :
    ∃ s' result, s.step fetch handler = .ok (s', result) ∧ Kept s'.compiler s'.table ∧
      ∀ step, result = .ok step → ∃ b ex, Ran handler s.cpu s.env s' step b ex := by
  cases hget : s.table.get? s.cpu.pc with
  | some b =>
    obtain ⟨s', step, ex, hrun, hkept, hran, -⟩ := h.exists_runBlock handler hget false
    refine ⟨s', .ok step, Session.step_of_get? hget hrun, hkept, ?_⟩
    rintro _ ⟨⟩
    exact ⟨b, ex, hran⟩
  | none =>
    obtain ⟨u, table, result, hpreload, hkept, hout⟩ := h.exists_preload fetch s.cpu.pc
    cases result with
    | error refusal => exact ⟨_, _, Session.step_of_refused hget hpreload, hkept, nofun⟩
    | ok b =>
      have hfilled : Kept (Session.mk u table s.cpu s.env s.calls).compiler _ := hkept
      obtain ⟨s₂, step, ex, hrun, hkept₂, hran, -⟩ :=
        hfilled.exists_runBlock handler (hout b rfl) true
      refine ⟨s₂, .ok step, Session.step_of_preload hget hpreload hrun, hkept₂, ?_⟩
      rintro _ ⟨⟩
      exact ⟨b, ex, hran⟩

theorem exists_runFrom (fetch : Word → Word) (handler : Handler σ) (stop : Step → Bool)
    (done : List Step) (limit : Nat) {s : Session σ} (h : Kept s.compiler s.table) :
    ∃ s' result, s.runFrom fetch handler stop done limit = .ok (s', result) ∧
      Kept s'.compiler s'.table := by
  refine Session.exists_runFrom_of_step ?_ stop done limit h
  intro s hs
  obtain ⟨s', result, hstep, hkept, -⟩ := hs.exists_step fetch handler
  exact ⟨s', result, hstep, hkept⟩

/-- An exit of a block in the table is linked to its target if that is in the table. -/
theorem linked?_eq (h : Kept compiler table) {entry : Word} {b : Block}
    (hb : table.get? entry = some b) {e : Exit} (he : e ∈ b.exits) :
    table.linked? entry e.slot = if table.contains e.target then some e.target else none := by
  obtain ⟨inserted, hbuilt, hhanded⟩ := h.built
  rw [BlockTable.contains_eq_isSome]
  split
  · next hin => exact hbuilt.linked (fun c hc => (hhanded c hc).nodup_slots) entry b e hb he hin
  · next hout =>
    cases hlink : table.linked? entry e.slot with
    | none => rfl
    | some target =>
      -- no other exit of the block has the same slot
      obtain ⟨b', hb', ⟨e', he', hslot, rfl⟩, hin⟩ := hbuilt.sound.link entry e.slot target hlink
      cases hb.symm.trans hb'
      cases List.inj_on_of_nodup_map (h.handedOut hb).nodup_slots he' he hslot
      exact absurd hin hout

end Kept

/-! ### Any history -/

/-- The compilers and tables that come about, from no table and a compiler that may have been called
    for anything before, by steps and runs of any guest and by blocks that are lowered ahead or
    removed, while memory is written anywhere. The words in memory are those that `fetch` now
    gives. -/
inductive Operated (options : Options) : (fetch : Word → Word) → Compiler → BlockTable → Prop
  | start {compiler : Compiler} (fetch : Word → Word) (hcompiler : Called compiler)
      (hoptions : compiler.options = options) : Operated options fetch compiler .empty
  | step {fetch : Word → Word} {σ : Type} {handler : Handler σ} {s s' : Session σ}
      {result : Except Refusal Step} (hs : Operated options fetch s.compiler s.table)
      (hstep : s.step fetch handler = .ok (s', result)) :
      Operated options fetch s'.compiler s'.table
  | run {fetch : Word → Word} {σ : Type} {handler : Handler σ} {stop : Step → Bool} {limit : Nat}
      {s s' : Session σ} {result : Except Refusal (List Step)}
      (hs : Operated options fetch s.compiler s.table)
      (hrun : s.run fetch handler stop limit = .ok (s', result)) :
      Operated options fetch s'.compiler s'.table
  | preload {fetch : Word → Word} {σ : Type} {s s' : Session σ} {entry : Word}
      {result : Except Refusal Block} (hs : Operated options fetch s.compiler s.table)
      (hpreload : s.preload fetch entry = .ok (s', result)) :
      Operated options fetch s'.compiler s'.table
  | erase {fetch : Word → Word} {compiler : Compiler} {table : BlockTable} (entry : Word)
      (hs : Operated options fetch compiler table) :
      Operated options fetch compiler (table.erase entry)
  | clear {fetch : Word → Word} {compiler : Compiler} {table : BlockTable}
      (hs : Operated options fetch compiler table) : Operated options fetch compiler .empty
  | write {fetch : Word → Word} {compiler : Compiler} {table : BlockTable} (fetch' : Word → Word)
      (hs : Operated options fetch compiler table) : Operated options fetch' compiler table

theorem Operated.kept {options : Options} {fetch : Word → Word} {compiler : Compiler}
    {table : BlockTable} (h : Operated options fetch compiler table) : Kept compiler table := by
  induction h with
  | start _ hcompiler => exact .start hcompiler.atRest.fits
  | step _ hstep ih =>
    obtain ⟨s', result, hstep', hkept, -⟩ := ih.exists_step _ _
    cases hstep.symm.trans hstep'
    exact hkept
  | run _ hrun ih =>
    obtain ⟨s', result, hrun', hkept⟩ := ih.exists_runFrom _ _ _ [] _
    cases hrun.symm.trans hrun'
    exact hkept
  | preload _ hpreload ih =>
    obtain ⟨u, table, result, hpreload', hkept, -⟩ := ih.exists_preload _ _
    cases hpreload.symm.trans hpreload'
    exact hkept
  | erase entry _ ih => exact ih.erase entry
  | clear _ ih => exact ih.clear
  | write _ _ ih => exact ih

variable {σ : Type} {options : Options} {fetch : Word → Word} {handler : Handler σ}

namespace Ran

variable {cpu : Cpu} {env : σ} {s' : Session σ} {step : Step} {b : Block} {ex : Execution σ}

theorem pc_eq (h : Ran handler cpu env s' step b ex) :
    step.next = step.departure.address ∧ s'.cpu.pc = step.next := by
  rw [h.next, h.departure, h.after]
  exact ⟨(Block.exists_run_of_execute h.execute).2, rfl⟩

/-- The link of the exit that was taken is told by the table. -/
theorem linked?_eq (h : Ran handler cpu env s' step b ex) (hkept : Kept s'.compiler s'.table)
    {target : Word} {slot : ExitSlot} (hdeparture : step.departure = .linked target slot) :
    s'.table.linked? step.entry slot = if s'.table.contains target then some target else none := by
  rw [h.departure] at hdeparture
  obtain ⟨e, he, rfl, rfl⟩ := (hkept.handedOut h.get).exists_exit h.execute hdeparture
  rw [h.entry]
  exact hkept.linked?_eq h.get he

/-- An exit that was taken is linked when it leads into the table. -/
theorem linked_iff (h : Ran handler cpu env s' step b ex) (hkept : Kept s'.compiler s'.table) :
    step.linked = true ↔ ∃ target slot, step.departure = .linked target slot ∧
      s'.table.contains target = true := by
  rw [h.linked, ← h.departure, ← h.entry]
  constructor
  · intro hlinked
    cases hd : step.departure with
    | indirect target => rw [hd] at hlinked; cases hlinked
    | syscall resume => rw [hd] at hlinked; cases hlinked
    | linked target slot =>
      refine ⟨target, slot, rfl, ?_⟩
      rw [hd, Session.isLinked, h.linked?_eq hkept hd] at hlinked
      cases hin : s'.table.contains target with
      | true => rfl
      | false => rw [hin] at hlinked; cases hlinked
  · rintro ⟨target, slot, hd, hin⟩
    rw [hd, Session.isLinked, h.linked?_eq hkept hd, hin]
    rfl

end Ran

/-- What it means that a step is linked, however the table came about. The step left through an exit
    with a fixed target, and the table holds a block there; the link of that exit leads where the
    guest continues, and with any words in memory the next step runs a block without lowering it. -/
theorem linked_of_operated {s s' : Session σ} {step : Step}
    (h : Operated options fetch s.compiler s.table)
    (hstep : s.step fetch handler = .ok (s', .ok step)) :
    (step.linked = true ↔ ∃ target slot, step.departure = .linked target slot ∧
        s'.table.contains target = true) ∧
      (∀ target slot, step.departure = .linked target slot → step.linked = true →
        s'.table.linked? step.entry slot = some step.next) ∧
      (step.linked = true → ∀ (fetch' : Word → Word) (handler' : Handler σ), ∃ s'' step',
        s'.step fetch' handler' = .ok (s'', .ok step') ∧ step'.lowered = false) := by
  obtain ⟨s₁, result, hstep', hkept, hout⟩ := h.kept.exists_step fetch handler
  cases hstep.symm.trans hstep'
  obtain ⟨b, ex, hran⟩ := hout step rfl
  obtain ⟨hnext, hpc⟩ := hran.pc_eq
  refine ⟨hran.linked_iff hkept, ?_, ?_⟩
  · intro target slot hd hlinked
    obtain ⟨target', slot', hd', hin⟩ := (hran.linked_iff hkept).mp hlinked
    cases hd.symm.trans hd'
    rw [hran.linked?_eq hkept hd, hin, hnext, hd]
    rfl
  · intro hlinked fetch' handler'
    obtain ⟨target, slot, hd, hin⟩ := (hran.linked_iff hkept).mp hlinked
    rw [BlockTable.contains_eq_isSome] at hin
    obtain ⟨b', hb'⟩ := Option.isSome_iff_exists.mp hin
    have hget : s'.table.get? s'.cpu.pc = some b' := by
      rw [hpc, hnext, hd]
      exact hb'
    obtain ⟨s'', step', -, hrun, -, -, hlowered⟩ := hkept.exists_runBlock handler' hget false
    exact ⟨s'', step', Session.step_of_get? hget hrun, hlowered⟩

/-- A branch that leads to itself. -/
def selfLoop (addr : Word) : Word := if addr = 0x1000 then 0x1000ffff else 0

/-- A loop is linked to itself by its first step. -/
theorem linked_of_operated_selfLoop : ∃ s' step,
    (Session.start ⟨1, 0⟩ (.start 0x1000) 0).step selfLoop countCalls = .ok (s', .ok step) ∧
      step.linked = true ∧ s'.table.linked? 0x1000 0 = some 0x1000 ∧
      ∃ s'' step', s'.step selfLoop countCalls = .ok (s'', .ok step') ∧ step'.lowered = false := by
  obtain ⟨b, hfresh⟩ : ∃ b, freshly selfLoop ⟨1, 0⟩ 0x1000 = .ok (.ok b) :=
    exists_freshly_ok_iff.mpr (by decide)
  have hloop : (runBlock selfLoop countCalls 1 0x1000 (.start 0x1000) 0).map
      Execution.departure = some (.linked 0x1000 0) := by decide
  have htransparent : Transparent ⟨1, 0⟩ selfLoop
      (Session.start ⟨1, 0⟩ (.start 0x1000) 0).compiler _ := .fresh ⟨1, 0⟩ selfLoop
  have hkept : Kept (Session.start ⟨1, 0⟩ (.start 0x1000) 0).compiler _ :=
    .start (Compiler.fits_fresh ⟨1, 0⟩)
  obtain ⟨s', result, hstep, hdone, -⟩ := htransparent.exists_step countCalls
  obtain ⟨s₁, result₁, hstep₁, -, hout⟩ := hkept.exists_step selfLoop countCalls
  cases hstep.symm.trans hstep₁
  cases hdone with
  | refused u hmiss hfresh' => cases hfresh'.symm.trans hfresh
  | @ran u table b' ex hfresh' hrun =>
    cases hfresh'.symm.trans hfresh
    obtain ⟨ex', hrun', hguest⟩ :=
      exists_execute_of_freshly hfresh countCalls (.start 0x1000) 0
    cases hrun.symm.trans hrun'
    rw [show limitOf ⟨1, 0⟩ = 1 from rfl] at hguest
    rw [hguest] at hloop
    have hd : ex.departure = .linked 0x1000 0 := Option.some.inj hloop
    obtain ⟨b'', ex'', hran⟩ := hout _ rfl
    have hin : table.contains 0x1000 = true := by
      rw [BlockTable.contains_eq_isSome]
      exact Option.isSome_iff_exists.mpr ⟨b'', hran.get⟩
    obtain ⟨hiff, hlink, hnext⟩ :=
      linked_of_operated (.start selfLoop (.fresh ⟨1, 0⟩) rfl) hstep
    have hlinked := hiff.mpr ⟨0x1000, 0, hd, hin⟩
    have hpc : ex.cpu.pc = 0x1000 := by
      rw [(Block.exists_run_of_execute hrun).2, hd]
      rfl
    exact ⟨_, _, hstep, hlinked, (hlink 0x1000 0 hd hlinked).trans (congrArg some hpc),
      hnext hlinked selfLoop countCalls⟩

end MipsOnArm
