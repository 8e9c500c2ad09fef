import CodeLift.Proofs.Attempts

/-!
# Failures to decode are contained and reported

Where decoding fails, a block ends: its last operation says so, and nothing follows it. However the
block is cut later, at the point of failure or before it, that operation stays where it is. The
diagnostics report each such point once, with the failure that the decoder gives there.
-/

namespace CodeLift

/-- The failure to decode that a problem reports, if it is one. -/
def Diagnostic.failure? : Diagnostic → Option DecodeFailure
  | decode failure => some failure
  | unresolvedTarget _ _ _ => none

namespace FlowGraph

/-- The failures to decode that are reported, in the order of the diagnostics. -/
def failures (g : FlowGraph) : List DecodeFailure := g.diagnostics.filterMap Diagnostic.failure?

/-- The addresses that operations mark as unreachable, each as often as that is done. -/
def failurePoints (g : FlowGraph) : List Address :=
  g.blocks.toList.flatMap fun b => b.ops.filterMap Op.failedAt?

/-- Failures end their blocks, and the diagnostics report them exactly. -/
structure ContainsFailures (g : FlowGraph) (decode : Address → Except Fault Decoded) : Prop where
  /-- What is reported is what the decoder says at the address. -/
  genuine : ∀ f ∈ g.failures, FailsWith decode f.address f
  /-- There is one report for each point of failure. -/
  matched : (g.failures.map (·.address)).Perm g.failurePoints
  /-- No point is marked twice. -/
  once : g.failurePoints.Nodup
  /-- The mark is the last operation of its block, stands at the end of it, and nothing follows. -/
  final : ∀ b ∈ g.blocks, ∀ k pc, b.ops[k]? = some (.unreachable pc) →
    k + 1 = b.ops.length ∧ pc = b.stop ∧ b.edges = []
  /-- Code is missing exactly if some block says so. -/
  isPartial_iff : g.isPartial = true ↔ ∃ b ∈ g.blocks, b.isUnreachable = true
  /-- The diagnostics ascend. -/
  sorted : g.diagnostics.Pairwise fun d e => d.address ≤ e.address

end FlowGraph

/-! ## The failures of stretches -/

variable {decode : Address → Except Fault Decoded} {policy : ReturnPolicy}

theorem Exit.failure?_of_problem? {entries : List Address} {x : Exit} {d : Diagnostic}
    (h : x.problem? entries = some d) : d.failure? = none := by
  unfold problem? at h
  split at h
  · cases h
  · split at h
    · cases h
    · cases h
      rfl

namespace Stretch

variable {t : Stretch decode}

/-- The one problem of a stretch that is a failure to decode is its own failure. -/
theorem filterMap_failure?_problems (t : Stretch decode) (policy : ReturnPolicy)
    (entries : List Address) :
    (t.problems policy entries).filterMap Diagnostic.failure? = t.failure.toList := by
  have hexits : ((t.exits policy).filterMap (Exit.problem? entries)).filterMap
      Diagnostic.failure? = [] := by
    rw [List.filterMap_eq_nil_iff]
    intro d hd
    obtain ⟨x, -, hx⟩ := List.mem_filterMap.1 hd
    exact Exit.failure?_of_problem? hx
  rw [problems, List.filterMap_append, hexits, List.append_nil]
  cases t.failure with
  | none => rfl
  | some f => rfl

/-- The mark of a failure is the last operation of the block. -/
theorem place_of_unreachable {k : Nat} {pc : Address}
    (h : t.block.ops[k]? = some (.unreachable pc)) :
    k + 1 = t.block.ops.length ∧ pc = t.stop ∧ t.failure.isSome := by
  obtain ⟨hfail, hpc⟩ := unreachable_mem_block_ops.1 (List.mem_of_getElem? h)
  have hops : t.block.ops = t.insns.flatMap Insn.lowered ++ [.unreachable t.stop] := by
    simp [block, hfail]
  have hge : (t.insns.flatMap Insn.lowered).length ≤ k := by
    by_contra hlt
    rw [hops, List.getElem?_append_left (Nat.lt_of_not_le hlt)] at h
    obtain ⟨i, -, hi⟩ := List.mem_flatMap.1 (List.mem_of_getElem? h)
    exact Bool.false_ne_true (Insn.not_isUnreachable_of_mem hi).symm
  have hlt := (List.getElem?_eq_some_iff.1 h).1
  refine ⟨?_, hpc, hfail⟩
  rw [hops, List.length_append, List.length_singleton] at hlt ⊢
  omega

end Stretch

/-! ## The failures of a graph -/

namespace FlowGraph

variable {g : FlowGraph} {vs : List (Stretch decode)}

theorem Draws.failures_perm (h : g.Draws policy vs) :
    g.failures.Perm (vs.filterMap Stretch.failure) := by
  have hsort := (List.mergeSort_perm (vs.flatMap (Stretch.problems policy (vs.map Stretch.entry)))
    fun a b => a.address ≤ b.address).filterMap Diagnostic.failure?
  rw [List.filterMap_flatMap] at hsort
  simp only [Stretch.filterMap_failure?_problems] at hsort
  rw [failures, h.diagnostics, List.filterMap_eq_flatMap_toList Stretch.failure]
  exact hsort

theorem DrawsBlocks.failurePoints_eq (h : g.DrawsBlocks policy vs) :
    g.failurePoints = vs.flatMap fun t => if t.failure.isSome then [t.stop] else [] := by
  obtain ⟨notes, hblocks⟩ := h
  rw [failurePoints, hblocks, List.flatMap_map]
  exact List.flatMap_congr fun t _ => t.filterMap_failedAt?_ops

end FlowGraph

/-- The failures of stretches name the points of failure. -/
theorem Conforms.map_address_failures {size : Nat} (hc : Conforms decode size)
    (vs : List (Stretch decode)) :
    (vs.filterMap Stretch.failure).map (·.address) =
      vs.flatMap fun t => if t.failure.isSome then [t.stop] else [] := by
  rw [List.filterMap_eq_flatMap_toList, List.map_flatMap]
  refine List.flatMap_congr ?_
  intro t _
  cases hf : t.failure with
  | none => rfl
  | some f =>
    have haddr := hc.address_eq (t.fails hf).1
    simp [haddr]

theorem Apart.failurePoints_nodup {vs : List (Stretch decode)} (h : Apart vs) :
    (vs.flatMap fun t => if t.failure.isSome then [t.stop] else []).Nodup := by
  have hheld : ∀ {t : Stretch decode} {a : Address},
      a ∈ (if t.failure.isSome then [t.stop] else []) → a ∈ t.held := by
    intro t a ha
    exact List.mem_append_right _ ha
  rw [List.nodup_flatMap]
  refine ⟨?_, (List.nodup_flatMap.1 h).2.imp ?_⟩
  · intro t _
    split
    · exact List.nodup_singleton _
    · exact List.nodup_nil
  · intro t u hdisj a hat hau
    exact hdisj (hheld hat) (hheld hau)

namespace FlowGraph.Draws

variable {g : FlowGraph} {vs : List (Stretch decode)} {size : Nat}

theorem isPartial_iff (h : g.Draws policy vs) :
    g.isPartial = true ↔ ∃ b ∈ g.blocks, b.isUnreachable = true := by
  have hdecode : g.isPartial = true ↔ ∃ f, f ∈ g.failures := by
    rw [isPartial, List.any_eq_true]
    constructor
    · rintro ⟨d, hd, he⟩
      cases d with
      | decode f => exact ⟨f, List.mem_filterMap.2 ⟨_, hd, rfl⟩⟩
      | unresolvedTarget source target kind => cases he
    · rintro ⟨f, hf⟩
      obtain ⟨d, hd, he⟩ := List.mem_filterMap.1 hf
      cases d with
      | decode f => exact ⟨_, hd, rfl⟩
      | unresolvedTarget source target kind => cases he
  have hblock : (∃ b ∈ g.blocks, b.isUnreachable = true) ↔ ∃ t ∈ vs, t.failure.isSome := by
    rw [h.exists_iff fun _ _ => Iff.rfl]
    refine exists_congr fun t => and_congr_right fun _ => ?_
    have hun : (t.drawn policy (vs.map Stretch.entry)).isUnreachable = t.failure.isSome :=
      t.block_isUnreachable
    rw [hun]
  rw [hdecode, hblock]
  simp only [h.failures_perm.mem_iff, List.mem_filterMap, Option.isSome_iff_exists]
  constructor
  · rintro ⟨f, t, ht, hf⟩
    exact ⟨t, ht, f, hf⟩
  · rintro ⟨t, ht, f, hf⟩
    exact ⟨f, t, ht, hf⟩

theorem containsFailures (hc : Conforms decode size) (hapart : Apart vs) (h : g.Draws policy vs) :
    g.ContainsFailures decode := by
  have hpoints := h.blocks.failurePoints_eq
  refine ⟨?_, ?_, ?_, ?_, h.isPartial_iff, ?_⟩
  · -- genuine
    intro f hf
    obtain ⟨t, -, hfail⟩ := List.mem_filterMap.1 (h.failures_perm.mem_iff.1 hf)
    have hstop := (t.fails hfail).1
    rwa [hc.address_eq hstop]
  · -- matched
    rw [hpoints, ← hc.map_address_failures]
    exact h.failures_perm.map _
  · -- once
    rw [hpoints]
    exact hapart.failurePoints_nodup
  · -- final
    intro b hb k pc hk
    obtain ⟨t, -, notes, rfl⟩ := h.blocks.exists_stretch hb
    obtain ⟨hplace, hpc, hfail⟩ := Stretch.place_of_unreachable hk
    refine ⟨hplace, hpc, ?_⟩
    show (t.exits policy).filterMap _ = []
    rw [Stretch.exits_of_failure (Option.isSome_iff_ne_none.1 hfail)]
    rfl
  · -- sorted
    rw [h.diagnostics]
    exact inOrder_pairwise _

end FlowGraph.Draws

/-- Failures to decode end their blocks and are reported exactly, for any limit on the length of
blocks. -/
theorem Lifter.failures_contained {l : Lifter} {image : ByteArray}
    (hfit : image.size < Address.count) (hc : Conforms (l.decoder.decodeOne image) image.size)
    (entry : Address) :
    ∃ r, l.lift image entry = .ok r ∧
      r.graph.ContainsFailures (l.decoder.decodeOne image) := by
  obtain ⟨r, vs, hr, hcomplete, -, -, hdraws⟩ := l.lift_spec hfit hc entry
  exact ⟨r, hr, hdraws.containsFailures hc hcomplete.apart⟩

theorem Lifter.failures_contained_sample :
    ∃ r, Sample.lifter.lift Sample.image 0 = .ok r ∧
      r.graph.ContainsFailures (Sample.lifter.decoder.decodeOne Sample.image) :=
  failures_contained (by decide) Sample.conforms 0

end CodeLift
