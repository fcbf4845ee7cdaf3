import MipsOnArm.Lowering.Family
import MipsOnArm.Proofs.Lowering.Faultless

/-! The entry points of the families share out the control instructions: every word that holds one
    is taken by exactly one of them, and no other word is taken at all. Which one it is can be read
    off the fields of the word. A word that is not taken is rejected at once, whatever the compiler
    has done so far; one that is taken is lowered as anywhere else. -/

namespace MipsOnArm
open Guest Lowering

/-! ### Words by their fields -/

/-- The words that the entry point of a family takes. -/
def Family.Takes (w : InstrWord) : Family → Prop
  | relative => w.primary.toNat ∈ [4, 5, 6, 7, 20, 21, 22, 23]
  | sign => w.primary.toNat = 1 ∧ w.rtField.toNat < 4
  | fpu => w.primary.toNat = 17 ∧ w.rsField = 8 ∧ w.rtField.toNat < 4
  | vfpu => w.primary.toNat = 18 ∧ w.rsField = 8
  | jump => w.primary.toNat ∈ [2, 3]
  | jumpReg => w.primary.toNat = 0 ∧ w.funct.toNat ∈ [8, 9]
  | syscall => w.primary.toNat = 0 ∧ w.funct.toNat = 12

/-- The control instructions that the entry point of a family looks for. -/
def Family.LooksFor : Family → Control → Prop
  | relative, .branchPair .. | relative, .branchZero .. | sign, .branchZero .. | fpu, .branchFpu ..
  | vfpu, .branchVfpu .. | jump, .jump _ | jumpReg, .jumpReg _ | syscall, .syscall => True
  | _, _ => False

namespace Family

variable {f g : Family} {w : InstrWord} {c : Control}

/-- No word is taken twice. -/
theorem Takes.unique (hf : f.Takes w) (hg : g.Takes w) : f = g := by
  cases f <;> cases g <;> first
    | rfl
    | simp only [Takes, List.mem_cons, List.not_mem_nil, or_false] at hf hg; omega

/-- A word that is taken holds a control instruction. -/
theorem Takes.exists_decode (h : f.Takes w) : ∃ c, Control.decode w = some c := by
  unfold Control.decode
  cases f with
  | relative =>
    simp only [Takes, List.mem_cons, List.not_mem_nil, or_false] at h
    rcases h with h | h | h | h | h | h | h | h <;> rw [h] <;> exact ⟨_, rfl⟩
  | sign =>
    obtain ⟨hp, hrt⟩ := h
    have hcases : w.rtField.toNat = 0 ∨ w.rtField.toNat = 1 ∨ w.rtField.toNat = 2 ∨
        w.rtField.toNat = 3 := by omega
    simp only [hp, Control.decodeSignBranch]
    rcases hcases with h | h | h | h <;> rw [h] <;> exact ⟨_, rfl⟩
  | fpu =>
    obtain ⟨hp, hrs, hrt⟩ := h
    simp only [hp, Control.decodeFpuBranch, hrs]
    rw [if_pos ⟨trivial, by omega⟩]
    exact ⟨_, rfl⟩
  | vfpu =>
    obtain ⟨hp, hrs⟩ := h
    simp only [hp, Control.decodeVfpuBranch, hrs, if_true]
    exact ⟨_, rfl⟩
  | jump =>
    simp only [Takes, List.mem_cons, List.not_mem_nil, or_false] at h
    rcases h with h | h <;> rw [h] <;> exact ⟨_, rfl⟩
  | jumpReg =>
    simp only [Takes, List.mem_cons, List.not_mem_nil, or_false] at h
    obtain ⟨hp, h⟩ := h
    simp only [hp, Control.decodeSpecial]
    rcases h with h | h <;> rw [h] <;> exact ⟨_, rfl⟩
  | syscall =>
    obtain ⟨hp, h⟩ := h
    simp only [hp, Control.decodeSpecial, h]
    exact ⟨_, rfl⟩

/-- A word that holds a control instruction is taken by an entry point that looks for it. -/
theorem exists_takes (h : Control.decode w = some c) : ∃ f : Family, f.Takes w ∧ f.LooksFor c := by
  unfold Control.decode at h
  split at h
  case h_1 hp =>
    unfold Control.decodeSpecial at h
    split at h
    case h_1 hfunct => cases h; exact ⟨jumpReg, ⟨hp, by rw [hfunct]; decide⟩, trivial⟩
    case h_2 hfunct => cases h; exact ⟨jumpReg, ⟨hp, by rw [hfunct]; decide⟩, trivial⟩
    case h_3 hfunct => cases h; exact ⟨syscall, ⟨hp, hfunct⟩, trivial⟩
    case h_4 => cases h
  case h_2 hp =>
    unfold Control.decodeSignBranch at h
    refine ⟨sign, ⟨hp, ?_⟩, ?_⟩ <;> split at h <;> cases h <;> first | omega | trivial
  case h_9 hp =>
    unfold Control.decodeFpuBranch at h
    split at h
    · next hfields => cases h; exact ⟨fpu, ⟨hp, hfields.1, Nat.lt_succ_of_le hfields.2⟩, trivial⟩
    · cases h
  case h_10 hp =>
    unfold Control.decodeVfpuBranch at h
    split at h
    · next hrs => cases h; exact ⟨vfpu, ⟨hp, hrs⟩, trivial⟩
    · cases h
  case h_3 hp => cases h; exact ⟨jump, by rw [Takes, hp]; decide, trivial⟩
  case h_4 hp => cases h; exact ⟨jump, by rw [Takes, hp]; decide, trivial⟩
  case h_15 => cases h
  all_goals
    next hp => cases h; exact ⟨relative, by rw [Takes, hp]; decide, trivial⟩

/-- An entry point that takes a word looks for what the word holds. -/
theorem Takes.looksFor (hf : f.Takes w) (h : Control.decode w = some c) : f.LooksFor c := by
  obtain ⟨g, hg, hc⟩ := exists_takes h
  exact hf.unique hg ▸ hc

/-- Only the branches on one register are looked for by two entry points. -/
theorem LooksFor.eq_or (hf : f.LooksFor c) (hg : g.LooksFor c) :
    f = g ∨ (f = relative ∧ g = sign) ∨ (f = sign ∧ g = relative) := by
  cases c <;> cases f <;> first
    | exact hf.elim
    | cases g <;> first | exact hg.elim | decide

/-- The guard of the entry point for the other branches on one register. -/
theorem Takes.primary_ne (h : relative.Takes w) : w.primary ≠ 1 := by
  intro hp
  rw [Takes, hp] at h
  revert h
  decide

theorem Takes.primary_eq (h : sign.Takes w) : w.primary = 1 := BitVec.eq_of_toNat_eq h.1

end Family

/-! ### Entry points -/

namespace Lowering

variable {f : Family} {w : InstrWord} {c : Control}

/-- A word that is taken is lowered as the control instruction that it holds. -/
theorem lowerFamily_of_takes (fetch : Word → Word) (hdecode : Control.decode w = some c)
    (hf : f.Takes w) : lowerFamily fetch f w = lowerControl fetch c w := by
  have hc := hf.looksFor hdecode
  cases f with
  | relative =>
    rw [lowerFamily, lowerRelativeWord, hdecode]
    cases c with
    | branchPair | branchZero => exact if_pos hf.primary_ne
    | _ => exact hc.elim
  | sign =>
    rw [lowerFamily, lowerSignWord, hdecode]
    cases c with
    | branchZero => exact if_pos hf.primary_eq
    | _ => exact hc.elim
  | fpu =>
    rw [lowerFamily, lowerFpuWord, hdecode]
    cases c with
    | branchFpu => rfl
    | _ => exact hc.elim
  | vfpu =>
    rw [lowerFamily, lowerVfpuWord, hdecode]
    cases c with
    | branchVfpu => rfl
    | _ => exact hc.elim
  | jump =>
    rw [lowerFamily, lowerJumpWord, hdecode]
    cases c with
    | jump => rfl
    | _ => exact hc.elim
  | jumpReg =>
    rw [lowerFamily, lowerJumpRegWord, hdecode]
    cases c with
    | jumpReg => rfl
    | _ => exact hc.elim
  | syscall =>
    rw [lowerFamily, lowerSyscallWord, hdecode]
    cases c with
    | syscall => rfl
    | _ => exact hc.elim

/-- A word that is not taken is rejected at once. -/
theorem lowerFamily_of_not_takes (fetch : Word → Word) (h : ¬ f.Takes w) :
    lowerFamily fetch f w = throw (.wrongFamily f.entryPoint w.bits) := by
  -- what is looked for but not taken is a branch on one register, taken by the other entry point
  have hother : ∀ {c}, Control.decode w = some c → f.LooksFor c →
      (f = .relative ∧ w.primary = 1) ∨ (f = .sign ∧ w.primary ≠ 1) := by
    intro c hdecode hf
    obtain ⟨g, htakes, hg⟩ := Family.exists_takes hdecode
    obtain rfl | ⟨rfl, rfl⟩ | ⟨rfl, rfl⟩ := hf.eq_or hg
    · exact absurd htakes h
    · exact .inl ⟨rfl, htakes.primary_eq⟩
    · exact .inr ⟨rfl, htakes.primary_ne⟩
  cases f with
  | relative =>
    rw [lowerFamily, lowerRelativeWord]
    split
    case h_1 hdecode =>
      obtain ⟨-, hp⟩ | ⟨⟨⟩, -⟩ := hother hdecode trivial
      exact if_neg (not_not_intro hp)
    case h_2 hdecode =>
      obtain ⟨-, hp⟩ | ⟨⟨⟩, -⟩ := hother hdecode trivial
      exact if_neg (not_not_intro hp)
    case h_3 => rfl
  | sign =>
    rw [lowerFamily, lowerSignWord]
    split
    · next hdecode =>
      obtain ⟨⟨⟩, -⟩ | ⟨-, hp⟩ := hother hdecode trivial
      exact if_neg hp
    · rfl
  | fpu =>
    rw [lowerFamily, lowerFpuWord]
    split
    · next hdecode => obtain ⟨⟨⟩, -⟩ | ⟨⟨⟩, -⟩ := hother hdecode trivial
    · rfl
  | vfpu =>
    rw [lowerFamily, lowerVfpuWord]
    split
    · next hdecode => obtain ⟨⟨⟩, -⟩ | ⟨⟨⟩, -⟩ := hother hdecode trivial
    · rfl
  | jump =>
    rw [lowerFamily, lowerJumpWord]
    split
    · next hdecode => obtain ⟨⟨⟩, -⟩ | ⟨⟨⟩, -⟩ := hother hdecode trivial
    · rfl
  | jumpReg =>
    rw [lowerFamily, lowerJumpRegWord]
    split
    · next hdecode => obtain ⟨⟨⟩, -⟩ | ⟨⟨⟩, -⟩ := hother hdecode trivial
    · rfl
  | syscall =>
    rw [lowerFamily, lowerSyscallWord]
    split
    · next hdecode => obtain ⟨⟨⟩, -⟩ | ⟨⟨⟩, -⟩ := hother hdecode trivial
    · rfl

/-- An entry point that does not fail has lowered the control instruction that the word holds. -/
theorem of_run_lowerFamily {fetch : Word → Word} {t u : Compiler} {v : Verdict}
    (h : (lowerFamily fetch f w).run t = .ok (v, u)) :
    ∃ c, Control.decode w = some c ∧ (lowerControl fetch c w).run t = .ok (v, u) := by
  by_cases hf : f.Takes w
  · obtain ⟨c, hdecode⟩ := hf.exists_decode
    rw [lowerFamily_of_takes fetch hdecode hf] at h
    exact ⟨c, hdecode, h⟩
  · rw [lowerFamily_of_not_takes fetch hf] at h
    cases h

end Lowering

end MipsOnArm
