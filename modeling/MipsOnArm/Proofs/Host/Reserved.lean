import Mathlib.Data.List.Basic
import MipsOnArm.Proofs.Host.Orderly

/-! The registers with a part of their own. One register keeps the saved flags across a delay slot,
    or the destination of a register jump, but not both; it is written once, before it is read. All
    other results go to the scratch register or to registers of the budget, and the register that
    points at the guest state is never written. -/

namespace MipsOnArm
open Guest

namespace Host

/-! ### The discipline -/

/-- What code does with the registers that have a part of their own. -/
structure Disciplined (budget : List Reg) (code : List Instr) : Prop where
  once : code.countP (·.dst? = some Reg.savedFlags) ≤ 1
  writer : ∀ i ∈ code, i.dst? = some Reg.savedFlags →
    i = .saveFlags Reg.savedFlags ∨ ∃ src, i = .mov Reg.jumpDest src
  others : ∀ i ∈ code, ∀ r, i.dst? = some r → r ≠ Reg.savedFlags → r = Reg.scratch ∨ r ∈ budget
  base : ∀ i ∈ code, i.dst? ≠ some Reg.base
  /-- Flags that were saved before are brought back for the one branch, which follows. -/
  restores : ∀ pre src post, code = pre ++ .restoreFlags src :: post →
    src = Reg.savedFlags ∧ .saveFlags Reg.savedFlags ∈ pre ∧
      ∃ cond target rest, post = .branch cond target :: rest ∧
        ∀ i ∈ pre ++ rest, i.branches = false
  /-- A jump goes to the destination that was kept before. -/
  exits : ∀ pre src post, code = pre ++ .exitToReg src :: post →
    src = Reg.jumpDest ∧ ∃ r, .mov Reg.jumpDest r ∈ pre
  apart : ∀ dst src, .saveFlags dst ∈ code → .exitToReg src ∉ code

/-- Whether an instruction saves or restores flags, branches, or jumps through a register. -/
def Instr.special : Instr → Bool
  | saveFlags _ => true
  | restoreFlags _ => true
  | branch .. => true
  | exitToReg _ => true
  | _ => false

/-- The instruction has no part in the discipline. -/
structure Free (budget : List Reg) (i : Instr) : Prop where
  keeps : Keeps budget i
  special : i.special = false

variable {budget : List Reg} {code is js : List Instr} {i : Instr}

theorem Free.branches (h : Free budget i) : i.branches = false := by
  cases i with
  | branch => cases h.special
  | _ => rfl

theorem Free.ne (h : Free budget i) (r : Reg) :
    i ≠ .saveFlags r ∧ i ≠ .restoreFlags r ∧ i ≠ .exitToReg r := by
  refine ⟨?_, ?_, ?_⟩ <;> rintro rfl <;> cases h.special

/-- An instruction with a part in it does not stand there. -/
theorem not_mem_of_free (hcode : ∀ i ∈ code, Free budget i) (hi : i.special = true) : i ∉ code := by
  intro hmem
  cases hi.symm.trans (hcode i hmem).special

/-- Nor does it stand there with one more instruction in front. -/
theorem not_mem_cons {j : Instr} (hcode : ∀ i ∈ code, Free budget i) (hj : j.special = true)
    (hne : j ≠ i) : j ∉ i :: code := by
  intro hmem
  rcases List.mem_cons.mp hmem with rfl | hmem
  · exact hne rfl
  · exact not_mem_of_free hcode hj hmem

theorem free_append (his : ∀ i ∈ is, Free budget i) (hjs : ∀ i ∈ js, Free budget i) :
    ∀ i ∈ is ++ js, Free budget i := List.forall_mem_append.mpr ⟨his, hjs⟩

/-! ### Code that is disciplined -/

theorem mem_of_split {pre post : List Instr} (h : code = pre ++ i :: post) : i ∈ code :=
  h ▸ List.mem_append_right pre List.mem_cons_self

/-- An instruction that stands once in the code splits it in one way. -/
theorem split_unique {pre post : List Instr} {j : Instr} (h : is ++ i :: js = pre ++ j :: post)
    (his : j ∉ is) (hjs : j ∉ js) : pre = is ∧ i = j ∧ post = js := by
  obtain ⟨rfl, hij, rfl⟩ := (List.append_cons_inj_of_notMem his hjs).mp h
  exact ⟨rfl, hij, rfl⟩

/-- An instruction that does not stand in the first part splits the second. -/
theorem split_append {pre post : List Instr} (h : is ++ code = pre ++ i :: post) (his : i ∉ is) :
    ∃ mid, pre = is ++ mid ∧ code = mid ++ i :: post := by
  rcases List.append_eq_append_iff.mp h with ⟨mid, hpre, hcode⟩ | ⟨mid, rfl, hpost⟩
  · exact ⟨mid, hpre, hcode⟩
  · cases mid with
    | nil => exact ⟨[], by simp, hpost.symm⟩
    | cons j mid =>
      cases hpost
      simp at his

section
variable (hbudget : ∀ r ∈ budget, r ≠ Reg.savedFlags ∧ r ≠ Reg.base)
include hbudget

theorem Keeps.dst?_ne (h : Keeps budget i) :
    i.dst? ≠ some Reg.savedFlags ∧ i.dst? ≠ some Reg.base := by
  constructor
  · intro hr
    rcases h _ hr with hr | hr
    · cases hr
    · exact (hbudget _ hr).1 rfl
  · intro hr
    rcases h _ hr with hr | hr
    · cases hr
    · exact (hbudget _ hr).2 rfl

/-- The shared register is written by none of them. -/
theorem not_mem_of_writes (hcode : ∀ j ∈ code, Keeps budget j)
    (hi : i.dst? = some Reg.savedFlags) : i ∉ code := fun hmem =>
  ((hcode i hmem).dst?_ne hbudget).1 hi

theorem countP_of_keeps (h : ∀ i ∈ code, Keeps budget i) :
    code.countP (·.dst? = some Reg.savedFlags) = 0 := by
  refine List.countP_eq_zero.mpr ?_
  intro i hi
  simpa using ((h i hi).dst?_ne hbudget).1

namespace Disciplined

/-- Code that neither saves flags nor jumps through a register. -/
theorem of_keeps (h : ∀ i ∈ code, Keeps budget i)
    (hspecial : ∀ i ∈ code, ∀ r, i ≠ .saveFlags r ∧ i ≠ .restoreFlags r ∧ i ≠ .exitToReg r) :
    Disciplined budget code where
  once := by
    rw [countP_of_keeps hbudget h]
    exact Nat.zero_le 1
  writer i hi hr := absurd hr ((h i hi).dst?_ne hbudget).1
  others i hi r hr _ := h i hi r hr
  base i hi := ((h i hi).dst?_ne hbudget).2
  restores pre src post hcode := absurd rfl (hspecial _ (mem_of_split hcode) src).2.1
  exits pre src post hcode := absurd rfl (hspecial _ (mem_of_split hcode) src).2.2
  apart dst src hmem := absurd rfl (hspecial _ hmem dst).1

theorem of_free (h : ∀ i ∈ code, Free budget i) : Disciplined budget code :=
  of_keeps hbudget (fun i hi => (h i hi).keeps) fun i hi => (h i hi).ne

/-- A branch that skips what follows. -/
theorem of_branch (h : ∀ i ∈ code, Free budget i) (cond : Cond) (target : Option Nat) :
    Disciplined budget (.branch cond target :: code) := by
  refine of_keeps hbudget ?_ ?_
  · exact List.forall_mem_cons.mpr ⟨nofun, fun i hi => (h i hi).keeps⟩
  · exact List.forall_mem_cons.mpr ⟨fun r => ⟨nofun, nofun, nofun⟩, fun i hi => (h i hi).ne⟩

/-- The one writer of the shared register stands first. -/
theorem of_writer (hi : i = .saveFlags Reg.savedFlags ∨ ∃ src, i = .mov Reg.jumpDest src)
    (hcode : ∀ j ∈ code, Keeps budget j)
    (hrestores : ∀ pre src post, i :: code = pre ++ .restoreFlags src :: post →
      src = Reg.savedFlags ∧ .saveFlags Reg.savedFlags ∈ pre ∧
        ∃ cond target rest, post = .branch cond target :: rest ∧
          ∀ j ∈ pre ++ rest, j.branches = false)
    (hexits : ∀ pre src post, i :: code = pre ++ .exitToReg src :: post →
      src = Reg.jumpDest ∧ ∃ r, .mov Reg.jumpDest r ∈ pre)
    (hapart : ∀ dst src, .saveFlags dst ∈ i :: code → .exitToReg src ∉ i :: code) :
    Disciplined budget (i :: code) := by
  have hdst : i.dst? = some Reg.savedFlags := by
    rcases hi with rfl | ⟨src, rfl⟩
    · rfl
    · rfl
  refine ⟨?_, ?_, ?_, ?_, hrestores, hexits, hapart⟩
  · rw [List.countP_cons, countP_of_keeps hbudget hcode, Nat.zero_add]
    split <;> omega
  · intro j hj hr
    rcases List.mem_cons.mp hj with rfl | hj
    · exact hi
    · exact absurd hr ((hcode j hj).dst?_ne hbudget).1
  · intro j hj r hr hne
    rcases List.mem_cons.mp hj with rfl | hj
    · exact absurd (Option.some.inj (hr.symm.trans hdst)) hne
    · exact hcode j hj r hr
  · intro j hj hr
    rcases List.mem_cons.mp hj with rfl | hj
    · cases hdst.symm.trans hr
    · exact ((hcode j hj).dst?_ne hbudget).2 hr

/-- The shared register is written, and not read. -/
theorem of_saved (hi : i = .saveFlags Reg.savedFlags ∨ ∃ src, i = .mov Reg.jumpDest src)
    (hcode : ∀ j ∈ code, Free budget j) : Disciplined budget (i :: code) := by
  have hne : ∀ r, .restoreFlags r ≠ i ∧ .exitToReg r ≠ i := by
    intro r
    rcases hi with rfl | ⟨src, rfl⟩
    · exact ⟨nofun, nofun⟩
    · exact ⟨nofun, nofun⟩
  refine of_writer hbudget hi (fun j hj => (hcode j hj).keeps) ?_ ?_ ?_
  · intro pre src post h
    exact absurd (mem_of_split h) (not_mem_cons hcode rfl (hne src).1)
  · intro pre src post h
    exact absurd (mem_of_split h) (not_mem_cons hcode rfl (hne src).2)
  · intro dst src _
    exact not_mem_cons hcode rfl (hne src).2

/-- The destination of a jump is kept, and jumped to at the end. -/
theorem of_kept (src : Reg) (hcode : ∀ j ∈ code, Free budget j) :
    Disciplined budget (.mov Reg.jumpDest src :: (code ++ [.exitToReg Reg.jumpDest])) := by
  have hfront : ∀ {j : Instr}, j.special = true → j ∉ .mov Reg.jumpDest src :: code := by
    intro j hj
    refine not_mem_cons hcode hj ?_
    rintro rfl
    cases hj
  have hall : ∀ {j : Instr}, j.special = true → j ≠ .exitToReg Reg.jumpDest →
      j ∉ .mov Reg.jumpDest src :: (code ++ [.exitToReg Reg.jumpDest]) := by
    intro j hj hne hmem
    rw [← List.cons_append] at hmem
    rcases List.mem_append.mp hmem with hmem | hmem
    · exact hfront hj hmem
    · exact hne (List.mem_singleton.mp hmem)
  refine of_writer hbudget (.inr ⟨src, rfl⟩) ?_ ?_ ?_ ?_
  · refine List.forall_mem_append.mpr ⟨fun j hj => (hcode j hj).keeps, ?_⟩
    exact List.forall_mem_singleton.mpr nofun
  · intro pre r post h
    exact absurd (mem_of_split h) (hall rfl nofun)
  · intro pre r post h
    have hsplit : (.mov Reg.jumpDest src :: code) ++ .exitToReg Reg.jumpDest :: [] =
        pre ++ .exitToReg r :: post := h
    obtain ⟨rfl, hr, -⟩ := split_unique hsplit (hfront rfl) List.not_mem_nil
    cases hr
    exact ⟨rfl, src, List.mem_cons_self⟩
  · intro dst r hmem
    exact absurd hmem (hall rfl nofun)

/-- The flags are saved, and brought back for the branch. -/
theorem of_restored {rest : List Instr} (hcode : ∀ j ∈ code, Free budget j)
    (hrest : ∀ j ∈ rest, Free budget j) (cond : Cond) (target : Option Nat) :
    Disciplined budget (.saveFlags Reg.savedFlags ::
      (code ++ .restoreFlags Reg.savedFlags :: .branch cond target :: rest)) := by
  have hexit : ∀ r, .exitToReg r ∉ .saveFlags Reg.savedFlags ::
      (code ++ .restoreFlags Reg.savedFlags :: .branch cond target :: rest) := by
    intro r hmem
    rw [← List.cons_append] at hmem
    rcases List.mem_append.mp hmem with hmem | hmem
    · exact absurd hmem (not_mem_cons hcode rfl nofun)
    · rcases List.mem_cons.mp hmem with hr | hmem
      · cases hr
      · exact absurd hmem (not_mem_cons hrest rfl nofun)
  refine of_writer hbudget (.inl rfl) ?_ ?_ ?_ fun _ r _ => hexit r
  · refine List.forall_mem_append.mpr ⟨fun j hj => (hcode j hj).keeps, ?_⟩
    exact List.forall_mem_cons.mpr ⟨nofun,
      List.forall_mem_cons.mpr ⟨nofun, fun j hj => (hrest j hj).keeps⟩⟩
  · intro pre src post h
    have hsplit : (.saveFlags Reg.savedFlags :: code) ++
        .restoreFlags Reg.savedFlags :: (.branch cond target :: rest) =
          pre ++ .restoreFlags src :: post := h
    obtain ⟨rfl, hsrc, rfl⟩ :=
      split_unique hsplit (not_mem_cons hcode rfl nofun) (not_mem_cons hrest rfl nofun)
    cases hsrc
    refine ⟨rfl, List.mem_cons_self, cond, target, rest, rfl, ?_⟩
    refine List.forall_mem_append.mpr ⟨?_, fun j hj => (hrest j hj).branches⟩
    exact List.forall_mem_cons.mpr ⟨rfl, fun j hj => (hcode j hj).branches⟩
  · intro pre r post h
    exact absurd (mem_of_split h) (hexit r)

/-- Instructions with no part in it may stand in front. -/
theorem append (hcode : Disciplined budget code) (his : ∀ i ∈ is, Free budget i) :
    Disciplined budget (is ++ code) where
  once := by
    rw [List.countP_append, countP_of_keeps hbudget fun i hi => (his i hi).keeps, Nat.zero_add]
    exact hcode.once
  writer i hi hr := by
    rcases List.mem_append.mp hi with hi | hi
    · exact absurd hr (((his i hi).keeps.dst?_ne hbudget).1)
    · exact hcode.writer i hi hr
  others i hi r hr hne := by
    rcases List.mem_append.mp hi with hi | hi
    · exact (his i hi).keeps r hr
    · exact hcode.others i hi r hr hne
  base i hi := by
    rcases List.mem_append.mp hi with hi | hi
    · exact ((his i hi).keeps.dst?_ne hbudget).2
    · exact hcode.base i hi
  restores pre src post h := by
    obtain ⟨mid, rfl, hmid⟩ := split_append h (not_mem_of_free his rfl)
    obtain ⟨hsrc, hsaved, cond, target, rest, hpost, hbranches⟩ := hcode.restores mid src post hmid
    refine ⟨hsrc, List.mem_append_right _ hsaved, cond, target, rest, hpost, ?_⟩
    intro i hi
    rw [List.append_assoc] at hi
    rcases List.mem_append.mp hi with hi | hi
    · exact (his i hi).branches
    · exact hbranches i hi
  exits pre src post h := by
    obtain ⟨mid, rfl, hmid⟩ := split_append h (not_mem_of_free his rfl)
    obtain ⟨hsrc, r, hkept⟩ := hcode.exits mid src post hmid
    exact ⟨hsrc, r, List.mem_append_right _ hkept⟩
  apart dst src hsave hexit := by
    refine hcode.apart dst src ?_ ?_
    · exact (List.mem_append.mp hsave).resolve_left (not_mem_of_free his rfl)
    · exact (List.mem_append.mp hexit).resolve_left (not_mem_of_free his rfl)

end Disciplined

end

end Host

end MipsOnArm
