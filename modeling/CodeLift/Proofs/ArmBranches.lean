import CodeLift.Proofs.Classify
import CodeLift.Scan
import Mathlib.Tactic.Common

/-!
# Branches with a condition code

On ARM and Thumb a branch with a condition code may not be taken. With an immediate operand it is a
conditional jump, and control can go on at the next instruction. Without one, as in a conditional
return, there is no transfer that stands for it: the groups decide, and what follows the branch is
an exit exactly if they make it a call.
-/

namespace CodeLift

namespace Text

variable {s start rest : String} {before cs ds : List Char}

theorem eq_append_of_dropStart? (h : dropStart? s start = some rest) : s = start ++ rest := by
  unfold dropStart? at h
  split at h
  · rename_i hs
    obtain ⟨cs, hcs⟩ := List.isPrefixOf_iff_prefix.1 hs
    cases h
    apply String.toList_injective
    simp [← hcs]
  · cases h

/-- Characters that are their own lower-case form stay, whatever is around them. -/
theorem lowerAfter_append (h : ∀ c ∈ cs, c ≠ 'Σ' ∧ lowerChar c = [c]) :
    lowerAfter before (cs ++ ds) = cs ++ lowerAfter (cs.reverse ++ before) ds := by
  induction cs generalizing before with
  | nil => rfl
  | cons c cs ih =>
    obtain ⟨hc, hcs⟩ := List.forall_mem_cons.1 h
    simp [lowerAfter, hc.1, hc.2, ih hcs]

end Text

namespace FlowRule

variable {mnemonic operands : String} {target : Option Address}

/-- The branches with a condition code, without a qualifier. -/
def armBranches : List String :=
  ["b", "bx"].flatMap fun start => armConditions.map (start ++ ·)

theorem stem_mem_armBranches (h : armConditional mnemonic = true) :
    stem mnemonic ∈ armBranches := by
  obtain ⟨start, hs, h⟩ := List.any_eq_true.1 h
  split at h
  · rename_i condition hd
    refine List.mem_flatMap.2 ⟨start, hs, List.mem_map.2 ⟨condition, by simpa using h, ?_⟩⟩
    exact (Text.eq_append_of_dropStart? hd).symm
  · cases h

theorem lowerChar_of_mem_armBranches {s : String} (hs : s ∈ armBranches) :
    ∀ c ∈ s.toList, c ≠ 'Σ' ∧ Text.lowerChar c = [c] := by
  -- stated with `all`: as a quantifier over characters it would be decided on every character
  have hall : ∀ s ∈ armBranches,
      (s.toList.all fun c => c ≠ 'Σ' ∧ Text.lowerChar c = [c]) = true := by
    decide +kernel
  intro c hc
  simpa using List.all_eq_true.1 (hall s hs) c hc

/-- Lower-casing the qualifier moves neither the dot nor what stands before it. -/
theorem stem_lower (h : armConditional mnemonic = true) :
    stem (Text.lower mnemonic) = stem mnemonic := by
  have hplain := lowerChar_of_mem_armBranches (stem_mem_armBranches h)
  rw [stem, String.toList_ofList] at hplain
  have hstem := List.all_eq_true.1 (List.all_takeWhile (p := (· != '.')) (l := mnemonic.toList))
  have hdot := List.head?_dropWhile_not (· != '.') mnemonic.toList
  have hsplit := List.takeWhile_append_dropWhile (p := (· != '.')) (l := mnemonic.toList)
  rw [stem, stem, Text.lower, String.toList_ofList, ← hsplit, Text.lowerAfter_append hplain,
    List.takeWhile_append_of_pos hstem, List.takeWhile_append_of_pos hstem]
  -- what follows the stem is nothing or begins with the dot, which has no other case
  generalize mnemonic.toList.dropWhile (· != '.') = ds at hdot
  cases ds with
  | nil => rfl
  | cons d ds =>
    obtain rfl : d = '.' := by simpa using hdot
    rfl

theorem armConditional_lower (h : armConditional mnemonic = true) :
    armConditional (Text.lower mnemonic) = true := by
  unfold armConditional
  rw [stem_lower h]
  exact h

/-- No other rule for ARM is about a branch with a condition code. -/
theorem armBranches_apart : ∀ s ∈ armBranches,
    s ∉ ["bl", "blx", "bx", "b", "cbz", "cbnz", "pop", "mov", "ldr"] ∧
      Text.startsWith s "ldm" = false ∧ armConditional s = true := by
  decide +kernel

theorem arm_of_armConditional (h : armConditional mnemonic = true) :
    arm mnemonic operands target = target.map .condJump := by
  obtain ⟨hother, hldm, hc⟩ := armBranches_apart _ (stem_mem_armBranches h)
  simp only [List.mem_cons, List.not_mem_nil, or_false, not_or] at hother
  simp [arm, hother, hldm, hc]

end FlowRule

namespace Architecture

variable {arch : Architecture} {pc next : Address} {mnemonic operands : String} {detail : Detail}

theorem not_halt_of_armConditional (h : FlowRule.armConditional mnemonic = true) :
    mnemonic ∉ haltMnemonics := by
  have hapart : ∀ m ∈ haltMnemonics, FlowRule.stem m ∉ FlowRule.armBranches := by decide +kernel
  intro hm
  exact hapart mnemonic hm (FlowRule.stem_mem_armBranches h)

theorem classify_of_armConditional (ha : arch = .arm ∨ arch = .thumb)
    (h : FlowRule.armConditional mnemonic = true) :
    arch.classify pc mnemonic operands detail =
      .ok (match detail.immediates.getLast? with
        | some v => some (.condJump (Address.ofInt (v % 0x100000000)))
        | none => arch.flowByGroup (Text.lower mnemonic) none detail.groups) := by
  have hlower := FlowRule.armConditional_lower h
  have hhalt := not_halt_of_armConditional hlower
  have hm (ops : String) (target : Option Address) :
      arch.flowByMnemonic (Text.lower mnemonic) ops target = target.map .condJump := by
    rcases ha with rfl | rfl <;>
      simp only [flowByMnemonic, FlowRule.arm_of_armConditional hlower]
  have ht (ops : String) : arch.immediateTarget pc ops detail =
      .ok (detail.immediates.getLast?.map fun v => Address.ofInt (v % 0x100000000)) := by
    rcases ha with rfl | rfl <;> simp only [immediateTarget]
  simp only [classify, List.contains_iff_mem, hhalt, ite_false, hm, ht]
  cases detail.immediates.getLast? <;> rfl

/-- Without a target, what follows an instruction is among its exits exactly if it is a call. -/
theorem fallthrough_mem_of_flowByGroup {groups : List Group} {f : ControlFlow}
    (h : arch.flowByGroup mnemonic none groups = some f) :
    ⟨pc, .fallthrough, some next⟩ ∈ exitsFor .always f pc next ↔
      .call ∈ groups ∧ .ret ∉ groups ∧ .interruptReturn ∉ groups := by
  unfold flowByGroup at h
  simp only [List.contains_iff_mem, Bool.or_eq_true] at h
  split at h
  · rename_i hr
    cases h
    rcases hr with hr | hr <;> simp [exitsFor, hr]
  · rename_i hr
    rw [not_or] at hr
    split at h
    · rename_i hc
      cases h
      simp [ControlFlow.callTo, exitsFor, ReturnPolicy.always, hr, hc]
    · rename_i hc
      split at h
      · cases h
        simp [exitsFor, hc]
      · cases h

/-- A branch with a condition code can always be classified. With an immediate operand it is a
conditional jump to it, and goes on at the next instruction if it is not taken. Without one it goes
on there exactly if the groups make it a call. -/
theorem arm_branch_falls_through (ha : arch = .arm ∨ arch = .thumb)
    (h : FlowRule.armConditional mnemonic = true) (pc next : Address) (operands : String)
    (detail : Detail) :
    ∃ flow, arch.classify pc mnemonic operands detail = .ok flow ∧
      (∀ v, detail.immediates.getLast? = some v →
        flow = some (.condJump (Address.ofInt (v % 0x100000000)))) ∧
      ∀ f, flow = some f →
        (⟨pc, .fallthrough, some next⟩ ∈ exitsFor .always f pc next ↔
          detail.immediates ≠ [] ∨
            .call ∈ detail.groups ∧ .ret ∉ detail.groups ∧ .interruptReturn ∉ detail.groups) := by
  refine ⟨_, classify_of_armConditional ha h, ?_⟩
  cases hv : detail.immediates.getLast? with
  | none =>
    refine ⟨fun v hv => (by cases hv), fun f hf => ?_⟩
    rw [fallthrough_mem_of_flowByGroup hf, List.getLast?_eq_none_iff.1 hv]
    simp
  | some v =>
    have hne : detail.immediates ≠ [] := List.ne_nil_of_mem (List.mem_of_getLast? hv)
    refine ⟨fun w hw => (by cases hw; rfl), fun f hf => ?_⟩
    cases hf
    simp [exitsFor, hne]

theorem arm_branch_falls_through_wide :
    thumb.classify 0x10 "beq.w" "#0x40" ⟨[.jump], [0x40]⟩ = .ok (some (.condJump 0x40)) ∧
      ⟨0x10, .fallthrough, some 0x14⟩ ∈ exitsFor .always (.condJump 0x40) 0x10 0x14 := by
  have h : FlowRule.armConditional "beq.w" = true := by decide +kernel
  obtain ⟨flow, hflow, htarget, hexits⟩ :=
    arm_branch_falls_through (.inr rfl) h 0x10 0x14 "#0x40" ⟨[.jump], [0x40]⟩
  obtain rfl : flow = some (.condJump 0x40) := htarget 0x40 rfl
  exact ⟨hflow, (hexits _ rfl).2 (.inl (List.cons_ne_nil _ _))⟩

/-- A conditional return is taken for a jump, and what follows it is no exit. -/
theorem conditional_return_stops :
    FlowRule.armConditional "bxle" = true ∧
      arm.classify 0 "bxle" "lr" ⟨[.jump], []⟩ = .ok (some .indirectJump) ∧
      ⟨0, .fallthrough, some 4⟩ ∉ exitsFor .always .indirectJump 0 4 := by
  decide +kernel

end Architecture

end CodeLift
