import CodeLift.Proofs.Classify
import CodeLift.Proofs.SigmaForms
import CodeLift.Scan

/-!
# Decorated mnemonics

Disassemblers decorate mnemonics: on x86 with words such as `bnd` in front, on ARM with the width of
the encoding after a dot, on RISC-V with `c.` in front of a compressed instruction. A decoration
says nothing about control flow, so the instruction should be classified as without it.

On ARM and RISC-V that is so for all mnemonics but those of a halt, which are only recognised
undecorated. On x86 a conditional jump is recognised by how its mnemonic begins, so a word in front
of one makes the jump unconditional. All other jumps stay what they are.
-/

namespace CodeLift

namespace ControlFlow

theorem Offered.ne_halt {target : Option Address} {f : ControlFlow} (h : f.Offered target) :
    f ≠ .halt := by
  cases h with
  | callTo => cases target <;> exact ControlFlow.noConfusion
  | jumpTo => cases target <;> exact ControlFlow.noConfusion
  | condJump h => exact ControlFlow.noConfusion
  | ret => exact ControlFlow.noConfusion
  | indirectJump => exact ControlFlow.noConfusion
  | indirectCall => exact ControlFlow.noConfusion

end ControlFlow

namespace Architecture

variable {arch : Architecture} {pc : Address} {m n operands : String} {detail : Detail}
  {target : Option Address} {groups : List Group}

/-! ## Two mnemonics that are classified alike -/

/-- What a mnemonic that is no halt says together with the groups. -/
def flow (arch : Architecture) (mnemonic operands : String) (target : Option Address)
    (groups : List Group) : Option ControlFlow :=
  (arch.flowByMnemonic mnemonic operands target).or (arch.flowByGroup mnemonic target groups)

theorem classify_of_not_halt (h : Text.lower m ∉ haltMnemonics) :
    arch.classify pc m operands detail = do
      let target ← arch.immediateTarget pc (Text.lower operands) detail
      return arch.flow (Text.lower m) (Text.lower operands) target detail.groups := by
  unfold classify
  simp only [List.contains_iff_mem, h, ite_false]
  rfl

/-- A halt is known by its mnemonic, and by nothing else. -/
theorem classify_eq_halt_iff :
    arch.classify pc m operands detail = .ok (some .halt) ↔ Text.lower m ∈ haltMnemonics := by
  by_cases hm : Text.lower m ∈ haltMnemonics
  · unfold classify
    simp only [List.contains_iff_mem, hm, ite_true]
  · rw [classify_of_not_halt hm, bind_eq_ok]
    refine iff_of_false ?_ hm
    rintro ⟨target, -, h⟩
    rcases Option.or_eq_some_iff.1 (Except.ok.inj h) with hm | ⟨-, hg⟩
    · exact (offered_of_flowByMnemonic hm).ne_halt rfl
    · exact (offered_of_flowByGroup hg).ne_halt rfl

theorem classify_congr (hm : Text.lower m ∉ haltMnemonics) (hn : Text.lower n ∉ haltMnemonics)
    (h : ∀ operands target groups,
      arch.flow (Text.lower m) operands target groups =
        arch.flow (Text.lower n) operands target groups) :
    arch.classify pc m operands detail = arch.classify pc n operands detail := by
  rw [classify_of_not_halt hm, classify_of_not_halt hn]
  simp only [h]

/-- A decoration that is not looked for among the halts does no harm to other mnemonics, and hides
a halt. -/
theorem classify_eq_iff (hm : Text.lower m ∉ haltMnemonics)
    (h : ∀ operands target groups,
      arch.flow (Text.lower m) operands target groups =
        arch.flow (Text.lower n) operands target groups) :
    arch.classify pc m operands detail = arch.classify pc n operands detail ↔
      Text.lower n ∉ haltMnemonics := by
  constructor
  · intro heq hn
    have hhalt : arch.classify pc n operands detail = .ok (some .halt) := classify_eq_halt_iff.2 hn
    exact hm (classify_eq_halt_iff.1 (heq.trans hhalt))
  · intro hn
    exact classify_congr hm hn h

theorem flow_foldSigma (arch : Architecture) (m : String) :
    arch.flow (Text.foldSigma m) operands target groups = arch.flow m operands target groups := by
  simp only [flow, flowByGroup, flowByMnemonic_foldSigma, isConditional_foldSigma]

/-- The groups ask a mnemonic only whether a jump to a known address is conditional. -/
theorem flowByGroup_congr (h : target = none ∨ arch.isConditional m = arch.isConditional n) :
    arch.flowByGroup m target groups = arch.flowByGroup n target groups := by
  rcases h with rfl | h
  · rfl
  · simp only [flowByGroup, h]

end Architecture

/-! ## Texts with a decoration -/

/-- Words that are written in front of an x86 mnemonic, for a byte in front of the instruction. -/
def leadingWords : List String := ["bnd", "notrack", "rep", "repe", "repne", "lock", "data16"]

/-- The pieces of which decorations consist are in lower case. -/
theorem foldSigma_lower_decoration : ∀ s ∈ [".", "w", "n", "c.", " "] ++ leadingWords,
    Text.foldSigma (Text.lower s) = s := by
  decide

namespace Text

variable {s start : String} {d : Char} {ds : List Char}

theorem isPrefixOf_append_cons (h : d ∉ ds) (cs rest : List Char) :
    ds.isPrefixOf (cs ++ d :: rest) = ds.isPrefixOf cs := by
  induction ds generalizing cs with
  | nil => rfl
  | cons e ds ih =>
    rw [List.mem_cons, not_or] at h
    cases cs with
    | nil =>
      have hne : (e == d) = false := beq_eq_false_iff_ne.2 (Ne.symm h.1)
      simp [List.isPrefixOf, hne]
    | cons c cs => rw [List.cons_append, List.isPrefixOf, List.isPrefixOf, ih h.2]

/-- What follows a separator does not matter to how the text begins. -/
theorem startsWith_append {sep : String} (hsep : sep.toList = [d]) (h : d ∉ start.toList)
    (s rest : String) : startsWith (s ++ sep ++ rest) start = startsWith s start := by
  rw [startsWith, String.toList_append, String.toList_append, hsep, List.append_assoc,
    List.singleton_append, isPrefixOf_append_cons h, startsWith]

theorem dropStart?_append (start s : String) : dropStart? (start ++ s) start = some s := by
  have hstarts : startsWith (start ++ s) start = true := by
    rw [startsWith, String.toList_append, List.isPrefixOf_iff_prefix]
    exact List.prefix_append _ _
  rw [dropStart?, if_pos hstarts, String.toList_append, List.drop_left, String.ofList_toList]

/-- Texts differ if only one of them begins so. -/
theorem beq_of_startsWith {t : String} (hs : startsWith s start = true)
    (ht : startsWith t start = false) : (s == t) = false := by
  rw [beq_eq_false_iff_ne]
  rintro rfl
  rw [hs] at ht
  cases ht

theorem dropStart?_eq_none (h : startsWith s start = false) : dropStart? s start = none := by
  rw [dropStart?, h]
  rfl

theorem not_startsWith_b (h : startsWith s "c." = true) : startsWith s "b" = false := by
  obtain ⟨rest, hrest⟩ := List.isPrefixOf_iff_prefix.1 h
  rw [startsWith, ← hrest]
  rfl

end Text

/-! ## Widths on ARM -/

namespace FlowRule

variable {m n operands : String} {target : Option Address}

theorem stem_append_dot (s rest : String) : stem (s ++ "." ++ rest) = stem s := by
  have hdot : ".".toList = ['.'] := rfl
  rw [stem, stem, String.toList_append, String.toList_append, hdot, List.append_assoc,
    List.singleton_append]
  congr 1
  induction s.toList with
  | nil => rfl
  | cons c cs ih => rw [List.cons_append, List.takeWhile_cons, List.takeWhile_cons, ih]

theorem arm_congr (h : stem m = stem n) : arm m operands target = arm n operands target := by
  simp only [arm, h]

theorem armConditional_congr (h : stem m = stem n) : armConditional m = armConditional n := by
  simp only [armConditional, h]

end FlowRule

namespace Architecture

variable {arch : Architecture} {pc : Address} {m w operands : String} {detail : Detail}
  {target : Option Address} {groups : List Group}

theorem flow_append_dot (ha : arch = .arm ∨ arch = .thumb) (s rest : String) :
    arch.flow (s ++ "." ++ rest) operands target groups = arch.flow s operands target groups := by
  have hstem := FlowRule.stem_append_dot s rest
  have hcb : Text.startsWith (s ++ "." ++ rest) "cb" = Text.startsWith s "cb" :=
    Text.startsWith_append (d := '.') rfl (by decide) s rest
  have hrule : arch.flowByMnemonic (s ++ "." ++ rest) operands target =
      arch.flowByMnemonic s operands target := by
    rcases ha with rfl | rfl <;> simp only [flowByMnemonic, FlowRule.arm_congr hstem]
  have hcond : arch.isConditional (s ++ "." ++ rest) = arch.isConditional s := by
    rcases ha with rfl | rfl <;>
      simp only [isConditional, hcb, FlowRule.armConditional_congr hstem]
  rw [flow, flow, hrule, flowByGroup_congr (.inr hcond)]

/-- No halt has a decoration. -/
theorem not_halt_of_mem {c : Char} (hc : c = '.' ∨ c = ' ')
    (h : c ∈ (Text.foldSigma m).toList) : m ∉ haltMnemonics := by
  have hplain : ∀ s ∈ haltMnemonics, '.' ∉ s.toList ∧ ' ' ∉ s.toList := by decide
  intro hm
  have hs := hplain _ (foldSigma_mem_haltMnemonics.2 hm)
  rcases hc with rfl | rfl
  · exact hs.1 h
  · exact hs.2 h

theorem width_classified_iff (ha : arch = .arm ∨ arch = .thumb) (hw : w ∈ ["w", "n"]) :
    arch.classify pc (m ++ "." ++ w) operands detail = arch.classify pc m operands detail ↔
      Text.lower m ∉ haltMnemonics := by
  have hdot := foldSigma_lower_decoration "." (by simp)
  have hwidths : ["w", "n"] ⊆ [".", "w", "n", "c.", " "] ++ leadingWords := by simp
  have hwidth := foldSigma_lower_decoration w (hwidths hw)
  have hfold : Text.foldSigma (Text.lower (m ++ "." ++ w)) =
      Text.foldSigma (Text.lower m) ++ "." ++ w := by
    rw [Text.foldSigma_lower_append, Text.foldSigma_lower_append, hdot, hwidth]
  apply classify_eq_iff
  · apply not_halt_of_mem (.inl rfl)
    rw [hfold]
    simp
  · intro operands target groups
    rw [← flow_foldSigma, hfold, flow_append_dot ha, flow_foldSigma]

end Architecture

/-! ## Compressed instructions of RISC-V -/

namespace FlowRule

variable {m operands : String} {target : Option Address}

theorem riscv_append (h : Text.startsWith m "c." = false) :
    riscv ("c." ++ m) operands target = riscv m operands target := by
  have hnone := Text.dropStart?_eq_none h
  simp only [riscv, Text.dropStart?_append, hnone, Option.getD_some, Option.getD_none]

theorem riscv_of_startsWith_b (hc : Text.startsWith m "c." = false)
    (hb : Text.startsWith m "b" = true) : riscv m operands target = target.map .condJump := by
  have hnone := Text.dropStart?_eq_none hc
  have hother {s : String} (hs : Text.startsWith s "b" = false) : (m == s) = false :=
    Text.beq_of_startsWith hb hs
  simp (disch := decide) only [riscv, hnone, Option.getD_none, hother, hb, ite_true,
    Bool.false_eq_true, ite_false]

/-- Only one mark is taken off, and no rule is about a mnemonic that has another. -/
theorem riscv_append_of_startsWith (h : Text.startsWith m "c." = true) :
    riscv ("c." ++ m) operands target = none := by
  have hb := Text.not_startsWith_b h
  have hother {s : String} (hs : Text.startsWith s "c." = false) : (m == s) = false :=
    Text.beq_of_startsWith h hs
  simp (disch := decide) only [riscv, Text.dropStart?_append, Option.getD_some, hother, hb,
    Bool.false_eq_true, ite_false]

end FlowRule

namespace Architecture

variable {arch : Architecture} {pc : Address} {m n p b operands : String} {detail : Detail}
  {target : Option Address} {groups : List Group}

theorem flow_riscv (ha : arch = .riscv32 ∨ arch = .riscv64) (s : String) :
    arch.flow s operands target groups =
      (FlowRule.riscv s operands target).or (arch.flowByGroup s target groups) := by
  rcases ha with rfl | rfl <;> rfl

theorem isConditional_riscv (ha : arch = .riscv32 ∨ arch = .riscv64) (s : String) :
    arch.isConditional s = Text.startsWith s "b" := by
  rcases ha with rfl | rfl <;> rfl

/-- The groups never take a marked branch for conditional. -/
theorem isConditional_compressed (ha : arch = .riscv32 ∨ arch = .riscv64) (s : String) :
    arch.isConditional ("c." ++ s) = false := by
  rw [isConditional_riscv ha, Text.startsWith, String.toList_append]
  rfl

theorem flow_compressed (ha : arch = .riscv32 ∨ arch = .riscv64)
    (h : Text.startsWith m "c." = false) :
    arch.flow ("c." ++ m) operands target groups = arch.flow m operands target groups := by
  rw [flow_riscv ha, flow_riscv ha, FlowRule.riscv_append h]
  by_cases hb : Text.startsWith m "b" = true
  · -- the groups differ on a branch, but they are not asked
    cases target with
    | none => rw [flowByGroup_congr (.inl rfl)]
    | some t =>
      rw [FlowRule.riscv_of_startsWith_b h hb]
      rfl
  · have hsame : arch.isConditional ("c." ++ m) = arch.isConditional m := by
      rw [isConditional_compressed ha, isConditional_riscv ha, Bool.eq_false_iff.2 hb]
    rw [flowByGroup_congr (.inr hsame)]

theorem flow_compressed_twice (ha : arch = .riscv32 ∨ arch = .riscv64)
    (h : Text.startsWith m "c." = true) :
    arch.flow ("c." ++ m) operands target groups = arch.flowByGroup m target groups := by
  have hsame : arch.isConditional ("c." ++ m) = arch.isConditional m := by
    rw [isConditional_compressed ha, isConditional_riscv ha, Text.not_startsWith_b h]
  rw [flow_riscv ha, FlowRule.riscv_append_of_startsWith h, Option.none_or,
    flowByGroup_congr (.inr hsame)]

theorem foldSigma_lower_compressed (m : String) :
    Text.foldSigma (Text.lower ("c." ++ m)) = "c." ++ Text.foldSigma (Text.lower m) := by
  rw [Text.foldSigma_lower_append, foldSigma_lower_decoration "c." (by simp)]

theorem compressed_not_halt (m : String) : Text.lower ("c." ++ m) ∉ haltMnemonics := by
  apply not_halt_of_mem (.inl rfl)
  rw [foldSigma_lower_compressed]
  simp

theorem compressed_classified_iff (ha : arch = .riscv32 ∨ arch = .riscv64)
    (h : Text.startsWith (Text.lower m) "c." = false) :
    arch.classify pc ("c." ++ m) operands detail = arch.classify pc m operands detail ↔
      Text.lower m ∉ haltMnemonics := by
  have hfirst : Text.startsWith (Text.foldSigma (Text.lower m)) "c." = false :=
    (Text.startsWith_foldSigma (by decide)).trans h
  apply classify_eq_iff (compressed_not_halt m)
  intro operands target groups
  rw [← flow_foldSigma, foldSigma_lower_compressed, flow_compressed ha hfirst, flow_foldSigma]

/-- To a mnemonic that has the mark already, in whatever case, no rule applies any more. -/
theorem classify_compressed_twice (ha : arch = .riscv32 ∨ arch = .riscv64)
    (h : Text.startsWith (Text.lower m) "c." = true) :
    arch.classify pc ("c." ++ m) operands detail = do
      let target ← arch.immediateTarget pc (Text.lower operands) detail
      return arch.flowByGroup (Text.lower m) target detail.groups := by
  have hsecond : Text.startsWith (Text.foldSigma (Text.lower m)) "c." = true :=
    (Text.startsWith_foldSigma (by decide)).trans h
  have hflow (operands : String) (target : Option Address) (groups : List Group) :
      arch.flow (Text.lower ("c." ++ m)) operands target groups =
        arch.flowByGroup (Text.lower m) target groups := by
    rw [← flow_foldSigma, foldSigma_lower_compressed, flow_compressed_twice ha hsecond,
      flowByGroup_congr (.inr (isConditional_foldSigma arch _))]
  rw [classify_of_not_halt (compressed_not_halt m)]
  simp only [hflow]

/-- The width after an ARM mnemonic, and the mark in front of a compressed instruction of RISC-V,
change a classification exactly if the mnemonic is that of a halt: that is only recognised without
them. A mark in front of another one leaves the instruction to its groups. -/
theorem decorated_classified_iff (arch : Architecture) (pc : Address) (m operands : String)
    (detail : Detail) :
    (arch = .arm ∨ arch = .thumb → ∀ w ∈ ["w", "n"],
      (arch.classify pc (m ++ "." ++ w) operands detail = arch.classify pc m operands detail ↔
        Text.lower m ∉ haltMnemonics)) ∧
      (arch = .riscv32 ∨ arch = .riscv64 →
        (Text.startsWith (Text.lower m) "c." = false →
          (arch.classify pc ("c." ++ m) operands detail = arch.classify pc m operands detail ↔
            Text.lower m ∉ haltMnemonics)) ∧
          (Text.startsWith (Text.lower m) "c." = true →
            arch.classify pc ("c." ++ m) operands detail = do
              let target ← arch.immediateTarget pc (Text.lower operands) detail
              return arch.flowByGroup (Text.lower m) target detail.groups)) := by
  refine ⟨?_, ?_⟩
  · intro ha w hw
    exact width_classified_iff ha hw
  · intro ha
    exact ⟨compressed_classified_iff ha, classify_compressed_twice ha⟩

theorem decorated_classified_iff_branches :
    thumb.classify 0x10 "beq.w" "#0x40" ⟨[.jump], [0x40]⟩ =
        thumb.classify 0x10 "beq" "#0x40" ⟨[.jump], [0x40]⟩ ∧
      riscv32.classify 4 "c.bnez" "a0, 8" ⟨[.jump], []⟩ =
        riscv32.classify 4 "bnez" "a0, 8" ⟨[.jump], []⟩ ∧
      riscv64.classify 4 "c.C.J" "8" ⟨[], []⟩ = .ok none := by
  have hwidth := (decorated_classified_iff thumb 0x10 "beq" "#0x40" ⟨[.jump], [0x40]⟩).1
  have hcompressed := (decorated_classified_iff riscv32 4 "bnez" "a0, 8" ⟨[.jump], []⟩).2
  have htwice := (decorated_classified_iff riscv64 4 "C.J" "8" ⟨[], []⟩).2
  refine ⟨?_, ?_, ?_⟩
  · exact (hwidth (.inr rfl) "w" (by decide)).2 (by decide)
  · exact ((hcompressed (.inl rfl)).1 (by decide)).2 (by decide)
  · exact ((htwice (.inr rfl)).2 (by decide)).trans (by decide)

/-- An undefined instruction of Thumb is a halt, but not with its width, and neither is a breakpoint
of RISC-V if it is compressed. -/
theorem decorated_halt_missed :
    thumb.classify 0x4 "udf" "#0" ⟨[], []⟩ = .ok (some .halt) ∧
      thumb.classify 0x4 "udf.w" "#0" ⟨[], []⟩ = .ok none ∧
      riscv64.classify 0x100 "ebreak" "" ⟨[], []⟩ = .ok (some .halt) ∧
      riscv64.classify 0x100 "c.ebreak" "" ⟨[], []⟩ = .ok none := by
  decide

/-! ## Words in front of an x86 mnemonic -/

theorem isConditional_led (ha : arch = .x86 ∨ arch = .x64) (hp : p ∈ leadingWords) (s : String) :
    arch.isConditional (p ++ " " ++ s) = false := by
  have hwords : ∀ p ∈ leadingWords,
      Text.startsWith p "j" = false ∧ Text.startsWith p "loop" = false := by decide
  have hj : Text.startsWith (p ++ " " ++ s) "j" = false := by
    rw [Text.startsWith_append (d := ' ') rfl (by decide)]
    exact (hwords p hp).1
  have hloop : Text.startsWith (p ++ " " ++ s) "loop" = false := by
    rw [Text.startsWith_append (d := ' ') rfl (by decide)]
    exact (hwords p hp).2
  rcases ha with rfl | rfl <;> simp [isConditional, hj, hloop]

theorem isConditional_jmp (ha : arch = .x86 ∨ arch = .x64) :
    arch.isConditional (Text.lower "jmp") = false := by
  rcases ha with rfl | rfl <;> decide

theorem jmp_not_halt : Text.lower "jmp" ∉ haltMnemonics := by
  decide

/-- Whatever follows the word, the instruction is classified as an unconditional jump would be. -/
theorem classify_led (ha : arch = .x86 ∨ arch = .x64) (hp : p ∈ leadingWords) :
    arch.classify pc (p ++ " " ++ b) operands detail = arch.classify pc "jmp" operands detail := by
  have hblank := foldSigma_lower_decoration " " (by simp)
  have hword := foldSigma_lower_decoration p (List.mem_append_right _ hp)
  have hfold : Text.foldSigma (Text.lower (p ++ " " ++ b)) =
      p ++ " " ++ Text.foldSigma (Text.lower b) := by
    rw [Text.foldSigma_lower_append, Text.foldSigma_lower_append, hblank, hword]
  apply classify_congr
  · apply not_halt_of_mem (.inr rfl)
    rw [hfold]
    simp
  · exact jmp_not_halt
  · intro operands target groups
    have hsame : arch.isConditional (p ++ " " ++ Text.foldSigma (Text.lower b)) =
        arch.isConditional (Text.lower "jmp") := by
      rw [isConditional_led ha hp, isConditional_jmp ha]
    rw [← flow_foldSigma, hfold, flow, flow, flowByGroup_congr (.inr hsame)]
    rcases ha with rfl | rfl <;> rfl

theorem classify_x86 (ha : arch = .x86 ∨ arch = .x64) (hm : Text.lower m ∉ haltMnemonics) :
    arch.classify pc m operands detail =
      .ok (arch.flowByGroup (Text.lower m) (detail.immediates.getLast?.map Address.ofInt)
        detail.groups) := by
  rw [classify_of_not_halt hm]
  rcases ha with rfl | rfl <;> rfl

/-- The instruction is a conditional jump to a known address: its mnemonic says so, it has an
immediate, and its groups make it neither a return nor a call. -/
structure Branches (arch : Architecture) (mnemonic : String) (detail : Detail) : Prop where
  conditional : arch.isConditional mnemonic = true
  direct : detail.immediates ≠ []
  stays : .ret ∉ detail.groups ∧ .interruptReturn ∉ detail.groups ∧ .call ∉ detail.groups

theorem flowByGroup_of_jump {t : Address} (hg : .jump ∈ groups ∨ .relativeBranch ∈ groups)
    (hstays : .ret ∉ groups ∧ .interruptReturn ∉ groups ∧ .call ∉ groups) (m : String) :
    arch.flowByGroup m (some t) groups =
      some (if arch.isConditional m then .condJump t else .jump t) := by
  simp [flowByGroup, hg, hstays]

theorem flowByGroup_of_branches (h : arch.Branches m detail) (hn : arch.isConditional n = false)
    (hg : .jump ∈ detail.groups ∨ .relativeBranch ∈ detail.groups) :
    ∃ t,
      arch.flowByGroup n (detail.immediates.getLast?.map Address.ofInt) detail.groups =
        some (.jump t) ∧
      arch.flowByGroup m (detail.immediates.getLast?.map Address.ofInt) detail.groups =
        some (.condJump t) := by
  obtain ⟨v, hv⟩ := Option.isSome_iff_exists.1 (List.getLast?_isSome.2 h.direct)
  refine ⟨Address.ofInt v, ?_, ?_⟩
  · rw [hv, Option.map_some, flowByGroup_of_jump hg h.stays, hn]
    rfl
  · rw [hv, Option.map_some, flowByGroup_of_jump hg h.stays, h.conditional]
    rfl

theorem flowByGroup_of_not_branches (h : ¬ arch.Branches m detail)
    (hn : arch.isConditional n = false) :
    arch.flowByGroup n (detail.immediates.getLast?.map Address.ofInt) detail.groups =
      arch.flowByGroup m (detail.immediates.getLast?.map Address.ofInt) detail.groups := by
  by_cases hstays : .ret ∉ detail.groups ∧ .interruptReturn ∉ detail.groups ∧ .call ∉ detail.groups
  · apply flowByGroup_congr
    by_cases hdirect : detail.immediates = []
    · left
      rw [hdirect]
      rfl
    · right
      have hm : ¬ arch.isConditional m = true := fun hm => h ⟨hm, hdirect, hstays⟩
      rw [hn, Bool.eq_false_iff.2 hm]
  · -- the groups make it a return or a call, and the mnemonic is not asked
    have hleaves : .ret ∈ detail.groups ∨ .interruptReturn ∈ detail.groups ∨
        .call ∈ detail.groups := by
      by_contra hnot
      exact hstays (by simpa only [not_or] using hnot)
    rcases hleaves with hr | hr | hr <;> simp [flowByGroup, hr]

/-- A word such as `bnd` in front of a mnemonic changes the classification of a jump exactly if that
is a conditional jump to a known address. The jump then becomes unconditional. -/
theorem led_jump_classified_iff (arch : Architecture) (pc : Address) (p b operands : String)
    (detail : Detail) (ha : arch = .x86 ∨ arch = .x64) (hp : p ∈ leadingWords)
    (hb : Text.lower b ∉ haltMnemonics)
    (hg : .jump ∈ detail.groups ∨ .relativeBranch ∈ detail.groups) :
    (arch.classify pc (p ++ " " ++ b) operands detail = arch.classify pc b operands detail ↔
      ¬ arch.Branches (Text.lower b) detail) ∧
      (arch.Branches (Text.lower b) detail →
        ∃ t, arch.classify pc (p ++ " " ++ b) operands detail = .ok (some (.jump t)) ∧
          arch.classify pc b operands detail = .ok (some (.condJump t))) := by
  have hplain := isConditional_jmp ha
  rw [classify_led ha hp, classify_x86 ha jmp_not_halt, classify_x86 ha hb]
  refine ⟨⟨?_, ?_⟩, ?_⟩
  · intro heq h
    obtain ⟨t, hled, hbare⟩ := flowByGroup_of_branches h hplain hg
    rw [hled, hbare] at heq
    cases heq
  · intro h
    rw [flowByGroup_of_not_branches h hplain]
  · intro h
    obtain ⟨t, hled, hbare⟩ := flowByGroup_of_branches h hplain hg
    exact ⟨t, congrArg Except.ok hled, congrArg Except.ok hbare⟩

theorem led_jump_classified_iff_bnd :
    x64.classify 8 "bnd jmp" "0xe" ⟨[.jump], [0xe]⟩ = x64.classify 8 "jmp" "0xe" ⟨[.jump], [0xe]⟩ ∧
      ∃ t, x64.classify 8 "bnd jne" "0xe" ⟨[.jump], [0xe]⟩ = .ok (some (.jump t)) ∧
        x64.classify 8 "jne" "0xe" ⟨[.jump], [0xe]⟩ = .ok (some (.condJump t)) := by
  have h (b : String) (hb : Text.lower b ∉ haltMnemonics) :=
    led_jump_classified_iff x64 8 "bnd" b "0xe" ⟨[.jump], [0xe]⟩ (.inr rfl) (by decide) hb
      (.inl List.mem_cons_self)
  have hplain : x64.isConditional (Text.lower "jmp") = false := by decide
  refine ⟨(h "jmp" (by decide)).1.2 ?_, (h "jne" (by decide)).2 ?_⟩
  · intro hbranches
    rw [hbranches.conditional] at hplain
    cases hplain
  · exact ⟨by decide, by decide, by decide⟩

/-- A conditional jump is no exit to what follows it any more. -/
theorem led_branch_loses_fallthrough :
    x86.classify 8 "bnd je" "0xe" ⟨[.jump, .relativeBranch], [0xe]⟩ = .ok (some (.jump 0xe)) ∧
      x86.classify 8 "je" "0xe" ⟨[.jump, .relativeBranch], [0xe]⟩ = .ok (some (.condJump 0xe)) ∧
      ⟨8, .fallthrough, some 0xb⟩ ∉ exitsFor .always (.jump 0xe) 8 0xb ∧
      ⟨8, .fallthrough, some 0xb⟩ ∈ exitsFor .always (.condJump 0xe) 8 0xb := by
  decide

end Architecture

end CodeLift
