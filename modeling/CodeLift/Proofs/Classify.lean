import CodeLift.Classify
import Mathlib.Tactic.Common

/-!
# What a classification can be

Every rule by mnemonic, and the groups too, are handed one possible target and answer with one of a
few transfers: `ControlFlow.Offered` lists them. None of them makes up a target, and none has an
opinion on whether a call returns. A halt is found before a rule is asked.
-/

namespace CodeLift

namespace ControlFlow

/-- The transfers among which a rule chooses when `target` is the immediate target. -/
@[grind intro]
inductive Offered (target : Option Address) : ControlFlow → Prop where
  | callTo : Offered target (.callTo target)
  | jumpTo : Offered target (.jumpTo target)
  | condJump {t : Address} (h : target = some t) : Offered target (.condJump t)
  | ret : Offered target .ret
  | indirectJump : Offered target .indirectJump
  | indirectCall : Offered target .indirectCall

variable {target : Option Address} {f : ControlFlow}

@[grind →]
theorem Offered.of_map_condJump (h : target.map ControlFlow.condJump = some f) :
    f.Offered target := by
  obtain ⟨t, ht, rfl⟩ := Option.map_eq_some_iff.1 h
  exact .condJump ht

/-- The decoder's opinion on whether a call returns. -/
def hint : ControlFlow → Option Bool
  | call _ returns => returns
  | _ => none

theorem Offered.hint_eq_none (h : f.Offered target) : f.hint = none := by
  cases h with
  | callTo => cases target <;> rfl
  | jumpTo => cases target <;> rfl
  | condJump h => rfl
  | ret => rfl
  | indirectJump => rfl
  | indirectCall => rfl

end ControlFlow

/-! ## Rules by mnemonic -/

namespace FlowRule

variable {mnemonic operands : String} {target : Option Address} {f : ControlFlow}

theorem offered_of_arm (h : arm mnemonic operands target = some f) : f.Offered target := by
  unfold arm at h
  grind

theorem offered_of_aarch64 (h : aarch64 mnemonic target = some f) : f.Offered target := by
  unfold aarch64 at h
  grind

theorem offered_of_mips (h : mips mnemonic operands target = some f) : f.Offered target := by
  unfold mips at h
  grind

theorem offered_of_riscv (h : riscv mnemonic operands target = some f) : f.Offered target := by
  unfold riscv at h
  grind

theorem offered_of_ppc (h : ppc mnemonic target = some f) : f.Offered target := by
  unfold ppc at h
  grind

end FlowRule

namespace Architecture

variable {arch : Architecture} {pc : Address} {mnemonic operands : String} {detail : Detail}
  {groups : List Group} {target : Option Address} {f : ControlFlow}

theorem offered_of_flowByMnemonic (h : arch.flowByMnemonic mnemonic operands target = some f) :
    f.Offered target := by
  cases arch with
  | x86 => cases h
  | x64 => cases h
  | arm => exact FlowRule.offered_of_arm h
  | thumb => exact FlowRule.offered_of_arm h
  | aarch64 => exact FlowRule.offered_of_aarch64 h
  | mips32 => exact FlowRule.offered_of_mips h
  | riscv32 => exact FlowRule.offered_of_riscv h
  | riscv64 => exact FlowRule.offered_of_riscv h
  | ppc32 => exact FlowRule.offered_of_ppc h

/-! ## Groups -/

theorem offered_of_flowByGroup (h : arch.flowByGroup mnemonic target groups = some f) :
    f.Offered target := by
  unfold flowByGroup at h
  split at h
  · cases h
    exact .ret
  · split at h
    · cases h
      exact .callTo
    · split at h
      · -- a jump: with a target it is conditional or not, without one it is indirect
        cases target with
        | none =>
          cases h
          exact .indirectJump
        | some t =>
          cases h
          split
          · exact .condJump rfl
          · exact .jumpTo
      · cases h

/-! ## Classification -/

theorem classify_cases (h : arch.classify pc mnemonic operands detail = .ok (some f)) :
    f = .halt ∨ ∃ target, arch.immediateTarget pc (Text.lower operands) detail = .ok target ∧
      f.Offered target := by
  unfold classify at h
  simp only at h
  split at h
  · cases h
    exact .inl rfl
  · obtain ⟨target, ht, h⟩ := bind_eq_ok.1 h
    refine .inr ⟨target, ht, ?_⟩
    rcases Option.or_eq_some_iff.1 (Except.ok.inj h) with hm | ⟨-, hg⟩
    · exact offered_of_flowByMnemonic hm
    · exact offered_of_flowByGroup hg

theorem hint_of_classify (h : arch.classify pc mnemonic operands detail = .ok (some f)) :
    f.hint = none := by
  rcases classify_cases h with rfl | ⟨target, -, ho⟩
  · rfl
  · exact ho.hint_eq_none

/-- The immediate target can be told if the last operand can be read. -/
theorem exists_immediateTarget (arch : Architecture) (pc : Address) (detail : Detail)
    (h : ∃ v, Operands.lastImmediate operands = .ok v) :
    ∃ target, arch.immediateTarget pc operands detail = .ok target := by
  obtain ⟨v, hv⟩ := h
  simp only [immediateTarget, hv]
  cases arch <;> exact ⟨_, rfl⟩

theorem exists_classify (arch : Architecture) (pc : Address) (mnemonic : String) (detail : Detail)
    (h : ∃ v, Operands.lastImmediate (Text.lower operands) = .ok v) :
    ∃ flow, arch.classify pc mnemonic operands detail = .ok flow := by
  obtain ⟨target, ht⟩ := arch.exists_immediateTarget pc detail h
  unfold classify
  simp only
  split
  · exact ⟨_, rfl⟩
  · rw [ht]
    exact ⟨_, rfl⟩

end Architecture

end CodeLift
