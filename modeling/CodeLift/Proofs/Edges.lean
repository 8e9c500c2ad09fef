import CodeLift.Proofs.Lifting

/-!
# The edges of a lifted function

The edges of a block are the exits of its last instruction, in their order. An exit gets lost only
if its target lies outside the region, and then there is one diagnostic that says so. None of this
depends on how often a block was cut, or on which of the places that make exits made this one.
-/

namespace CodeLift

/-- The ways out of a block: those of the transfer of its last instruction, or the end of the block
if that has none. -/
def Block.Exits (decode : Address → Except Fault Decoded) (policy : ReturnPolicy) (b : Block)
    (xs : List Exit) : Prop :=
  ∃ pc i next, b.lastInsn? = some pc ∧ Decodes decode pc i ∧ i.next = .ok next ∧
    xs = match i.flow with
      | some flow => exitsFor policy flow pc next
      | none => [⟨pc, .fallthrough, some b.stop⟩]

namespace FlowGraph

/-- The edge that an exit becomes: to the block that begins at its target, or to nowhere if it has
no target. -/
def edgeFor? (g : FlowGraph) (x : Exit) : Option Edge :=
  match x.target with
  | none => some ⟨.indirect, none⟩
  | some c => ((g.blocks.toList.map (·.entry)).idxOf? c).map fun id => ⟨x.kind, some id⟩

/-- The exit `x` of a block leads to `c`, where no block begins. -/
def Omits (g : FlowGraph) (decode : Address → Except Fault Decoded) (policy : ReturnPolicy)
    (x : Exit) (c : Address) : Prop :=
  (∃ b ∈ g.blocks, b.isUnreachable = false ∧ ∃ xs, b.Exits decode policy xs ∧ x ∈ xs) ∧
    x.target = some c ∧ ¬ ∃ b ∈ g.blocks, b.entry = c

/-- The edges of a graph are the exits of its blocks. -/
structure Wired (g : FlowGraph) (decode : Address → Except Fault Decoded) (policy : ReturnPolicy)
    (size : Nat) : Prop where
  /-- No two blocks begin at one address. -/
  entries : (g.blocks.toList.map (·.entry)).Nodup
  /-- Nothing follows where decoding failed. -/
  failed : ∀ b ∈ g.blocks, b.isUnreachable = true → b.edges = []
  /-- Otherwise the exits follow, in their order. -/
  edges : ∀ b ∈ g.blocks, b.isUnreachable = false →
    ∃ xs, b.Exits decode policy xs ∧ b.edges = xs.filterMap g.edgeFor?
  /-- Each exit that is omitted is reported once. -/
  reported : ∀ {x c}, g.Omits decode policy x c →
    g.diagnostics.count (.unresolvedTarget x.source c x.kind) = 1
  /-- No other exits are reported. -/
  report : ∀ {source target kind}, .unresolvedTarget source target kind ∈ g.diagnostics →
    g.Omits decode policy ⟨source, kind, some target⟩ target
  /-- Only exits out of the region are omitted. -/
  outside : ∀ {x c}, g.Omits decode policy x c → size ≤ c.toNat

end FlowGraph

/-! ## Exits -/

variable {decode : Address → Except Fault Decoded} {policy : ReturnPolicy}

/-- The exits of a transfer differ. -/
theorem nodup_exitsFor (policy : ReturnPolicy) (flow : ControlFlow) (pc next : Address) :
    (exitsFor policy flow pc next).Nodup := by
  cases flow with
  | jump target => simp [exitsFor]
  | condJump target => simp [exitsFor]
  | call target returns =>
    simp only [exitsFor]
    split <;> simp
  | indirectCall =>
    simp only [exitsFor]
    split <;> simp
  | ret => simp [exitsFor]
  | indirectJump => simp [exitsFor]
  | halt => simp [exitsFor]

namespace Stretch

variable {t : Stretch decode} {x : Exit} {entries : List Address}

theorem kind_of_mem_exits (hx : x ∈ t.exits policy) (hn : x.target = none) :
    x.kind = .indirect := by
  obtain ⟨-, ⟨i, flow, -, -, -, hm⟩ | ⟨-, -, he⟩⟩ := of_mem_exits hx
  · exact (of_mem_exitsFor hm).2 hn
  · rw [he] at hn
    cases hn

theorem exits_nodup (t : Stretch decode) (policy : ReturnPolicy) : (t.exits policy).Nodup := by
  rcases t.end_cases with ⟨f, hf⟩ | ho | ⟨i, hi, flow, hflow⟩
  · rw [exits_of_failure (by rw [hf]; simp)]
    exact List.nodup_nil
  · obtain ⟨p, -, -, he⟩ := ho.exits_eq policy
    rw [he]
    exact List.nodup_singleton _
  · rw [(exits_of_flow policy hi hflow).2.2]
    exact nodup_exitsFor ..

/-- The ways out of the block of a stretch are the exits of the stretch. -/
theorem exits_iff {b : Block} (hlast : b.lastInsn? = t.last?) (hstop : b.stop = t.stop)
    (hf : t.failure = none) {xs : List Exit} : b.Exits decode policy xs ↔ xs = t.exits policy := by
  obtain ⟨before, i, hl, hi, hd, hn⟩ := exists_last fun hl => t.filled hl hf
  have hexits : t.exits policy = match i.flow with
      | some flow => exitsFor policy flow i.addr t.stop
      | none => [⟨i.addr, .fallthrough, some t.stop⟩] := by
    cases hflow : i.flow <;> simp only [exits, hl, List.getLast?_concat, hf, hflow]
  rw [hexits, Block.Exits, hlast, hstop, hi]
  constructor
  · rintro ⟨pc, j, next, hpc, hj, hnext, rfl⟩
    cases hpc
    cases hd.unique hj
    cases hn.symm.trans hnext
    rfl
  · rintro rfl
    exact ⟨i.addr, i, t.stop, rfl, hd, hn, rfl⟩

end Stretch

/-! ## Diagnostics -/

namespace Exit

variable {entries : List Address} {x y : Exit} {d : Diagnostic} {source target : Address}
  {kind : EdgeKind}

theorem problem?_eq_some_iff : x.problem? entries = some (.unresolvedTarget source target kind) ↔
    x = ⟨source, kind, some target⟩ ∧ target ∉ entries := by
  obtain ⟨xs, xk, xt⟩ := x
  cases xt with
  | none => simp [problem?]
  | some c =>
    by_cases hc : c ∈ entries
    · have hne : ¬ (c = target ∧ target ∉ entries) := fun h => h.2 (h.1 ▸ hc)
      simp only [problem?, hc, if_true, Exit.mk.injEq, Option.some.injEq]
      tauto
    · simp only [problem?, hc, if_false, Option.some.injEq, Diagnostic.unresolvedTarget.injEq,
        Exit.mk.injEq]
      constructor
      · rintro ⟨rfl, rfl, rfl⟩
        exact ⟨⟨rfl, rfl, rfl⟩, hc⟩
      · rintro ⟨⟨rfl, rfl, rfl⟩, -⟩
        exact ⟨rfl, rfl, rfl⟩

/-- A problem tells which exit it is about. -/
theorem problem?_inj (hx : x.problem? entries = some d) (hy : y.problem? entries = some d) :
    x = y := by
  cases d with
  | decode f =>
    unfold problem? at hx
    split at hx
    · cases hx
    · split at hx <;> cases hx
  | unresolvedTarget source target kind =>
    rw [(problem?_eq_some_iff.1 hx).1, (problem?_eq_some_iff.1 hy).1]

end Exit

theorem Stretch.problems_nodup (t : Stretch decode) (policy : ReturnPolicy)
    (entries : List Address) : (t.problems policy entries).Nodup := by
  have hexits : ((t.exits policy).filterMap (Exit.problem? entries)).Nodup := by
    refine (t.exits_nodup policy).filterMap ?_
    intro x y d hx hy
    exact Exit.problem?_inj hx hy
  unfold problems
  cases hf : t.failure with
  | none => simpa using hexits
  | some f =>
    rw [exits_of_failure (by rw [hf]; simp)]
    simp

/-- Nothing is said twice. -/
theorem Apart.problems_nodup {size : Nat} {vs : List (Stretch decode)} (hc : Conforms decode size)
    (h : Apart vs) (entries : List Address) :
    (vs.flatMap (Stretch.problems policy entries)).Nodup := by
  rw [List.nodup_flatMap]
  refine ⟨fun t _ => t.problems_nodup policy entries, (List.nodup_flatMap.1 h).2.imp ?_⟩
  intro t u hdisj d ht hu
  exact hdisj (Stretch.address_mem_held hc ht) (Stretch.address_mem_held hc hu)

theorem mem_inOrder {ds : List Diagnostic} {d : Diagnostic} : d ∈ inOrder ds ↔ d ∈ ds :=
  (List.mergeSort_perm ds _).mem_iff

namespace FlowGraph.Draws

variable {g : FlowGraph} {vs : List (Stretch decode)} {b : Block} {x : Exit} {c : Address}

theorem exists_entry_iff (h : g.Draws policy vs) : (∃ b ∈ g.blocks, b.entry = c) ↔ Begins vs c :=
  h.exists_iff fun _ _ => Iff.rfl

/-- The omitted exits are those of the stretches that lead where no stretch begins. -/
theorem omits_iff (h : g.Draws policy vs) :
    g.Omits decode policy x c ↔ Leaves policy vs x ∧ x.target = some c ∧ ¬ Begins vs c := by
  rw [Omits, h.exists_iff fun _ _ => Iff.rfl, h.exists_entry_iff]
  refine and_congr_left fun _ => exists_congr fun t => and_congr_right fun _ => ?_
  have hun : (t.drawn policy (vs.map Stretch.entry)).isUnreachable = t.failure.isSome :=
    t.block_isUnreachable
  rw [hun, Option.isSome_eq_false_iff, Option.isNone_iff_eq_none]
  constructor
  · rintro ⟨hf, xs, hxs, hx⟩
    rwa [(Stretch.exits_iff t.block_lastInsn? rfl hf).1 hxs] at hx
  · intro hx
    have hf : t.failure = none := by
      by_contra hne
      rw [Stretch.exits_of_failure hne] at hx
      exact List.not_mem_nil hx
    exact ⟨hf, _, (Stretch.exits_iff t.block_lastInsn? rfl hf).2 rfl, hx⟩

/-- The exits that are reported are the omitted ones. -/
theorem unresolved_mem_iff (h : g.Draws policy vs) {source target : Address} {kind : EdgeKind} :
    .unresolvedTarget source target kind ∈ g.diagnostics ↔
      Leaves policy vs ⟨source, kind, some target⟩ ∧ ¬ Begins vs target := by
  rw [h.diagnostics, mem_inOrder, List.mem_flatMap, begins_iff_mem]
  constructor
  · rintro ⟨t, ht, hd⟩
    rw [Stretch.problems, List.mem_append, List.mem_filterMap] at hd
    rcases hd with hd | ⟨x, hx, hd⟩
    · simp at hd
    · obtain ⟨rfl, hn⟩ := Exit.problem?_eq_some_iff.1 hd
      exact ⟨⟨t, ht, hx⟩, hn⟩
  · rintro ⟨⟨t, ht, hx⟩, hn⟩
    refine ⟨t, ht, ?_⟩
    rw [Stretch.problems, List.mem_append, List.mem_filterMap]
    exact .inr ⟨_, hx, Exit.problem?_eq_some_iff.2 ⟨rfl, hn⟩⟩

end FlowGraph.Draws

/-! ## The graph of complete stretches -/

variable {s : Scanner} {size : Nat} {entry : Address} {vs : List (Stretch s.decode)} {g : FlowGraph}

theorem Complete.wired (hc : Conforms s.decode size) (h : Complete s size entry vs)
    (hasc : Ascending vs) (hd : g.Draws s.policy vs) : g.Wired s.decode s.policy size := by
  obtain ⟨notes, hblocks⟩ := hd.blocks
  have hmem : ∀ b ∈ g.blocks, ∃ t ∈ vs, b.lastInsn? = t.last? ∧ b.stop = t.stop ∧
      b.isUnreachable = t.failure.isSome ∧
      b.edges = (t.exits s.policy).filterMap (Exit.edge? (vs.map Stretch.entry)) := by
    intro b hb
    rw [← Array.mem_toList_iff, hblocks] at hb
    obtain ⟨t, ht, rfl⟩ := List.mem_map.1 hb
    exact ⟨t, ht, t.block_lastInsn?, rfl, t.block_isUnreachable, rfl⟩
  have hedge : ∀ {t : Stretch s.decode} {x : Exit}, x ∈ t.exits s.policy →
      x.edge? (vs.map Stretch.entry) = g.edgeFor? x := by
    intro t x hx
    rw [FlowGraph.edgeFor?, hd.map_entry, Exit.edge?]
    cases hn : x.target with
    | none => rw [Stretch.kind_of_mem_exits hx hn]
    | some c => rfl
  refine ⟨?_, ?_, ?_, ?_, ?_, ?_⟩
  · -- entries
    rw [hd.map_entry, List.Nodup, List.pairwise_map]
    exact hasc.imp fun hlt he => absurd (congrArg UInt64.toNat he) (Nat.ne_of_lt hlt)
  · -- failed
    intro b hb hun
    obtain ⟨t, -, -, -, hfail, hedges⟩ := hmem b hb
    rw [hun] at hfail
    rw [hedges, Stretch.exits_of_failure (Option.isSome_iff_ne_none.1 hfail.symm)]
    rfl
  · -- edges
    intro b hb hun
    obtain ⟨t, -, hlast, hstop, hfail, hedges⟩ := hmem b hb
    rw [hun] at hfail
    have hnone : t.failure = none := by simpa using hfail.symm
    refine ⟨_, (Stretch.exits_iff hlast hstop hnone).2 rfl, ?_⟩
    rw [hedges]
    exact List.filterMap_congr fun x hx => hedge hx
  · -- reported
    intro x c hx
    obtain ⟨hleaves, htarget, hn⟩ := hd.omits_iff.1 hx
    have hnodup : g.diagnostics.Nodup := by
      rw [hd.diagnostics]
      exact (List.mergeSort_perm _ _).nodup_iff.2 (h.apart.problems_nodup hc _)
    apply List.count_eq_one_of_mem hnodup
    rw [hd.unresolved_mem_iff, ← htarget]
    exact ⟨hleaves, hn⟩
  · -- report
    intro source target kind hm
    obtain ⟨hleaves, hn⟩ := hd.unresolved_mem_iff.1 hm
    exact hd.omits_iff.2 ⟨hleaves, rfl, hn⟩
  · -- outside
    intro x c hx
    obtain ⟨hleaves, htarget, hn⟩ := hd.omits_iff.1 hx
    by_contra hlt
    exact hn (h.targets ⟨x, hleaves, htarget⟩ (Nat.lt_of_not_le hlt))

/-- The edges of a lifted function are the exits of its blocks, for any limit on their length. -/
theorem Lifter.edges_eq_exits {l : Lifter} {image : ByteArray} (hfit : image.size < Address.count)
    (hc : Conforms (l.decoder.decodeOne image) image.size) (entry : Address) :
    ∃ r, l.lift image entry = .ok r ∧
      r.graph.Wired (l.decoder.decodeOne image) l.policy image.size := by
  obtain ⟨r, vs, hr, hcomplete, hasc, -, hdraws⟩ := l.lift_spec hfit hc entry
  exact ⟨r, hr, hcomplete.wired hc hasc hdraws⟩

theorem Lifter.edges_eq_exits_sample :
    ∃ r, Sample.lifter.lift Sample.image 0 = .ok r ∧
      r.graph.Wired (Sample.lifter.decoder.decodeOne Sample.image) .always Sample.image.size :=
  edges_eq_exits (by decide) Sample.conforms 0

end CodeLift
