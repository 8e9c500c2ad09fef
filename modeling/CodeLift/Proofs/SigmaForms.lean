import CodeLift.Classify
import Mathlib.Tactic.Common

/-!
# Lower case up to the form of sigma

Lower-casing is not a map on characters: which of its two forms a small sigma takes depends on the
text around it. Where that does not count, texts are compared after `Text.foldSigma`, which keeps
one form only, and then lower-casing goes through concatenation. No rule of a classification
mentions a sigma, so none can tell a text from its folded form.
-/

namespace CodeLift

namespace Text

/-- The small sigma inside a word stands for the one at its end too. -/
def foldSigmaChar (c : Char) : Char := if c = 'ς' then 'σ' else c

/-- The text with one form of small sigma only. -/
def foldSigma (s : String) : String := String.ofList (s.toList.map foldSigmaChar)

/-- The text has no small sigma. -/
def Sigmaless (s : String) : Prop := ∀ c ∈ s.toList, c ≠ 'σ' ∧ c ≠ 'ς'

instance (s : String) : Decidable (Sigmaless s) :=
  List.decidableBAll (fun c => c ≠ 'σ' ∧ c ≠ 'ς') s.toList

variable {m s start : String} {cs ds : List Char}

@[simp]
theorem toList_foldSigma (s : String) : (foldSigma s).toList = s.toList.map foldSigmaChar :=
  String.toList_ofList

theorem map_foldSigmaChar_lowerAfter (before cs : List Char) :
    (lowerAfter before cs).map foldSigmaChar =
      cs.flatMap fun c => if c = 'Σ' then ['σ'] else (lowerChar c).map foldSigmaChar := by
  induction cs generalizing before with
  | nil => rfl
  | cons c cs ih =>
    rw [lowerAfter, List.map_append, ih, List.flatMap_cons]
    congr 1
    by_cases hc : c = 'Σ'
    · -- either form of the sigma is folded to the same
      have hsigma : lowerSigma before cs = 'ς' ∨ lowerSigma before cs = 'σ' := by
        unfold lowerSigma
        split
        · exact .inl rfl
        · exact .inr rfl
      rcases hsigma with hs | hs <;> simp [hc, hs, foldSigmaChar]
    · simp [hc]

theorem foldSigma_lower_append (s t : String) :
    foldSigma (lower (s ++ t)) = foldSigma (lower s) ++ foldSigma (lower t) := by
  have hlower (u : String) : (foldSigma (lower u)).toList =
      u.toList.flatMap fun c => if c = 'Σ' then ['σ'] else (lowerChar c).map foldSigmaChar := by
    rw [toList_foldSigma, lower, String.toList_ofList, map_foldSigmaChar_lowerAfter]
  apply String.toList_injective
  rw [String.toList_append, hlower, hlower, hlower, String.toList_append, List.flatMap_append]

/-! ## Comparing with a text that has no sigma -/

theorem foldSigmaChar_eq_iff {c d : Char} (h : d ≠ 'σ' ∧ d ≠ 'ς') :
    foldSigmaChar c = d ↔ c = d := by
  unfold foldSigmaChar
  split
  · next hc =>
    rw [hc]
    exact iff_of_false h.1.symm h.2.symm
  · rfl

theorem map_foldSigmaChar_eq_iff (h : ∀ d ∈ ds, d ≠ 'σ' ∧ d ≠ 'ς') :
    cs.map foldSigmaChar = ds ↔ cs = ds := by
  induction ds generalizing cs with
  | nil => exact List.map_eq_nil_iff
  | cons d ds ih =>
    obtain ⟨hd, hds⟩ := List.forall_mem_cons.1 h
    cases cs with
    | nil => simp
    | cons c cs =>
      rw [List.map_cons, List.cons.injEq, List.cons.injEq, foldSigmaChar_eq_iff hd, ih hds]

theorem foldSigma_beq (h : Sigmaless s) : (foldSigma m == s) = (m == s) := by
  rw [Bool.eq_iff_iff, beq_iff_eq, beq_iff_eq, ← String.toList_inj, toList_foldSigma,
    map_foldSigmaChar_eq_iff h, String.toList_inj]

theorem startsWith_foldSigma (h : Sigmaless start) :
    startsWith (foldSigma m) start = startsWith m start := by
  rw [Bool.eq_iff_iff, startsWith, startsWith, List.isPrefixOf_iff_prefix,
    List.isPrefixOf_iff_prefix, List.prefix_iff_eq_take, List.prefix_iff_eq_take, toList_foldSigma,
    ← List.map_take, eq_comm, map_foldSigmaChar_eq_iff h, eq_comm]

theorem dropStart?_foldSigma (h : Sigmaless start) :
    dropStart? (foldSigma m) start = (dropStart? m start).map foldSigma := by
  unfold dropStart?
  rw [startsWith_foldSigma h]
  split
  · simp [foldSigma, List.map_drop]
  · rfl

theorem contains_foldSigma {l : List String} (h : ∀ s ∈ l, Sigmaless s) :
    l.contains (foldSigma m) = l.contains m := by
  induction l with
  | nil => rfl
  | cons s l ih =>
    obtain ⟨hs, hl⟩ := List.forall_mem_cons.1 h
    rw [List.contains_cons, List.contains_cons, foldSigma_beq hs, ih hl]

end Text

/-! ## Rules -/

namespace FlowRule

open Text

variable {m operands : String} {target : Option Address}

theorem stem_foldSigma (m : String) : stem (foldSigma m) = foldSigma (stem m) := by
  have hdot : (· != '.') ∘ foldSigmaChar = (· != '.') := by
    funext c
    have hc : foldSigmaChar c = '.' ↔ c = '.' := foldSigmaChar_eq_iff (by decide)
    simp [bne, hc]
  rw [stem, toList_foldSigma, List.takeWhile_map, hdot, stem, foldSigma, String.toList_ofList]

theorem armConditional_foldSigma (m : String) :
    armConditional (foldSigma m) = armConditional m := by
  have hconditions : ∀ s ∈ armConditions, Sigmaless s := by decide
  have hb (n : String) : dropStart? (foldSigma n) "b" = (dropStart? n "b").map foldSigma :=
    dropStart?_foldSigma (by decide)
  have hbx (n : String) : dropStart? (foldSigma n) "bx" = (dropStart? n "bx").map foldSigma :=
    dropStart?_foldSigma (by decide)
  simp only [armConditional, stem_foldSigma, List.any_cons, List.any_nil, hb, hbx]
  cases dropStart? (stem m) "b" <;> cases dropStart? (stem m) "bx" <;>
    simp only [Option.map_none, Option.map_some, contains_foldSigma hconditions]

theorem arm_foldSigma : arm (foldSigma m) operands target = arm m operands target := by
  simp (disch := decide) only [arm, stem_foldSigma, armConditional_foldSigma, foldSigma_beq,
    startsWith_foldSigma]

theorem aarch64_foldSigma : aarch64 (foldSigma m) target = aarch64 m target := by
  simp (disch := decide) only [aarch64, foldSigma_beq, startsWith_foldSigma,
    contains_foldSigma]

theorem mips_foldSigma : mips (foldSigma m) operands target = mips m operands target := by
  simp (disch := decide) only [mips, stem_foldSigma, foldSigma_beq, startsWith_foldSigma,
    contains_foldSigma]

theorem riscv_foldSigma : riscv (foldSigma m) operands target = riscv m operands target := by
  simp (disch := decide) only [riscv, dropStart?_foldSigma, Option.getD_map, foldSigma_beq,
    startsWith_foldSigma]

theorem ppc_foldSigma : ppc (foldSigma m) target = ppc m target := by
  simp (disch := decide) only [ppc, foldSigma_beq, startsWith_foldSigma]

end FlowRule

namespace Architecture

open Text

variable {m operands : String} {target : Option Address} {groups : List Group}

theorem flowByMnemonic_foldSigma (arch : Architecture) :
    arch.flowByMnemonic (foldSigma m) operands target = arch.flowByMnemonic m operands target := by
  cases arch <;>
    simp only [flowByMnemonic, FlowRule.arm_foldSigma, FlowRule.aarch64_foldSigma,
      FlowRule.mips_foldSigma, FlowRule.riscv_foldSigma, FlowRule.ppc_foldSigma]

theorem isConditional_foldSigma (arch : Architecture) (m : String) :
    arch.isConditional (foldSigma m) = arch.isConditional m := by
  cases arch <;>
    simp (disch := decide) only [isConditional, bne, foldSigma_beq, startsWith_foldSigma,
      contains_foldSigma, FlowRule.armConditional_foldSigma]

theorem foldSigma_mem_haltMnemonics : foldSigma m ∈ haltMnemonics ↔ m ∈ haltMnemonics := by
  have hplain : ∀ s ∈ haltMnemonics, Sigmaless s := by decide
  rw [← List.contains_iff_mem, contains_foldSigma hplain, List.contains_iff_mem]

end Architecture

end CodeLift
