import CodeLift.Annotation
import CodeLift.Proofs.Layout
import CodeLift.Proofs.Numbering

/-!
# The flow graph of a code map

A map that shows stretches is turned into a flow graph without a fault. The blocks of the graph are
those of the stretches in the order of their entries, and the edges of a block are the exits of its
stretch, in their order. An exit whose target begins no stretch becomes a diagnostic instead.
-/

namespace CodeLift

variable {decode : Address → Except Fault Decoded} {policy : ReturnPolicy}

/-! ## The order of the blocks -/

/-- The entries ascend. -/
def Ascending (ts : List (Stretch decode)) : Prop :=
  ts.Pairwise fun t u => t.entry.toNat < u.entry.toNat

/-- Stretches can be put into the order of their entries in one way only. -/
theorem Ascending.eq_of_perm {ts us : List (Stretch decode)} (ht : Ascending ts) (hu : Ascending us)
    (h : ts.Perm us) : ts = us := by
  refine h.eq_of_pairwise ?_ ht hu
  intro t u _ _ htu hut
  exact absurd htu (Nat.lt_asymm hut)

theorem Ascending.nodup {ts : List (Stretch decode)} (h : Ascending ts) : ts.Nodup := by
  refine h.imp ?_
  rintro t _ hlt rfl
  exact Nat.lt_irrefl _ hlt

theorem Ascending.entry_inj {ts : List (Stretch decode)} (h : Ascending ts) {j k : Nat}
    {t u : Stretch decode} (ht : ts[j]? = some t) (hu : ts[k]? = some u) (he : t.entry = u.entry) :
    j = k := by
  rw [Ascending, List.pairwise_iff_getElem] at h
  obtain ⟨hj, rfl⟩ := List.getElem?_eq_some_iff.1 ht
  obtain ⟨hk, rfl⟩ := List.getElem?_eq_some_iff.1 hu
  rcases Nat.lt_trichotomy j k with hlt | heq | hgt
  · exact absurd (congrArg UInt64.toNat he) (Nat.ne_of_lt (h j k hj hk hlt))
  · exact heq
  · exact absurd (congrArg UInt64.toNat he) (Nat.ne_of_gt (h k j hk hj hgt))

/-- The block of a stretch, with edges to the blocks that begin at `entries`. -/
def Stretch.drawn (policy : ReturnPolicy) (entries : List Address) (t : Stretch decode) : Block :=
  { t.block with edges := (t.exits policy).filterMap (Exit.edge? entries) }

namespace CodeMap

variable {m : CodeMap} {ts vs : List (Stretch decode)} {t : Stretch decode} {x : Exit} {id : Nat}

/-- The stretches `vs` are those that `m` shows as `ts`, in the order in which their blocks are
numbered. -/
structure Numbers (m : CodeMap) (ts vs : List (Stretch decode)) : Prop where
  /-- No stretch is lost. -/
  perm : vs.Perm ts
  /-- The entries ascend. -/
  ascending : Ascending vs
  /-- The blocks are looked up in this order. -/
  ordered : m.ordered = vs.map Stretch.block

theorem Numbers.starts_eq (hn : m.Numbers ts vs) : m.starts = vs.map Stretch.entry := by
  rw [starts, hn.ordered, List.map_map]
  rfl

namespace Shows

theorem charted (h : m.Shows policy ts) : m.Charted := by
  refine ⟨?_, ?_⟩
  · intro a k
    rw [h.entries, h.getElem?_blocks, List.getElem?_map]
    cases ts[k]? <;> simp
  · intro a k ho
    obtain ⟨t, hk, -⟩ := h.owner ho
    rw [h.size_eq]
    exact (List.getElem?_eq_some_iff.1 hk).1

theorem exists_numbers (h : m.Shows policy ts) : ∃ vs, m.Numbers ts vs := by
  have hordered : m.ordered = (m.slots.filterMap (ts[·]?)).map Stretch.block := by
    rw [ordered, List.map_filterMap]
    exact List.filterMap_congr fun k _ => h.getElem?_blocks k
  have hasc : Ascending (m.slots.filterMap (ts[·]?)) := by
    have hstarts := h.charted.starts_ascending
    rw [starts, hordered, List.map_map, List.pairwise_map] at hstarts
    exact hstarts.imp fun hlt => UInt64.lt_iff_toNat_lt.1 hlt
  refine ⟨_, ?_, hasc, hordered⟩
  rw [List.perm_ext_iff_of_nodup hasc.nodup h.apart.nodup]
  intro t
  rw [List.mem_filterMap]
  constructor
  · rintro ⟨k, -, hk⟩
    exact List.mem_of_getElem? hk
  · intro ht
    obtain ⟨k, hk⟩ := List.mem_iff_getElem?.1 ht
    refine ⟨k, h.charted.mem_slots_iff.2 ?_, hk⟩
    rw [h.size_eq]
    exact (List.getElem?_eq_some_iff.1 hk).1

/-! ## The blocks with their edges -/

theorem filter_exits (h : m.Shows policy ts) (ht : t ∈ ts) :
    (m.exits.filter fun x => t.last? == some x.source) = t.exits policy := by
  cases hl : t.last? with
  | none =>
    have hnil : t.insns = [] := by simpa [Stretch.last?] using hl
    rw [Stretch.exits_of_nil hnil]
    simp
  | some p =>
    rw [← h.exits ht hl]
    refine List.filter_congr ?_
    intro x _
    simp [eq_comm]

/-- An exit belongs to the block whose last instruction it leaves. -/
theorem exists_place (h : m.Shows policy ts) (hn : m.Numbers ts vs) (hx : x ∈ m.exits) :
    ∃ (id : Nat) (t : Stretch decode), m.place? x = some id ∧ vs[id]? = some t ∧
      t.last? = some x.source := by
  obtain ⟨t, ht, hl⟩ := h.source hx
  obtain ⟨k, hk⟩ := List.mem_iff_getElem?.1 ht
  have hi : t.insns ≠ [] := by
    intro hnil
    simp [Stretch.last?, hnil] at hl
  have hblock : m.blocks[k]? = some t.block := by
    rw [h.getElem?_blocks, hk]
    rfl
  obtain ⟨id, hid, -, hstart⟩ := h.charted.exists_number hblock
  rw [hn.starts_eq, List.getElem?_map] at hstart
  obtain ⟨u, hu, he⟩ := Option.map_eq_some_iff.1 hstart
  have hmem : u ∈ ts := hn.perm.mem_iff.1 (List.mem_of_getElem? hu)
  obtain rfl := h.apart.unique hmem ht u.entry_mem_held (he ▸ t.entry_mem_held)
  have howner := h.owned hk hi (Stretch.last_mem_held hl)
  exact ⟨id, u, h.charted.place?_of_owner howner hid, hu, hl⟩

theorem edgesAt_eq (h : m.Shows policy ts) (hn : m.Numbers ts vs) (hid : vs[id]? = some t) :
    m.edgesAt id = (t.exits policy).filterMap (Exit.edge? (vs.map Stretch.entry)) := by
  have ht : t ∈ ts := hn.perm.mem_iff.1 (List.mem_of_getElem? hid)
  rw [edgesAt, hn.starts_eq, ← h.filter_exits ht]
  congr 1
  refine List.filter_congr ?_
  intro x hx
  obtain ⟨j, u, hplace, hj, hl⟩ := h.exists_place hn hx
  have hiff : j = id ↔ t.last? = some x.source := by
    constructor
    · rintro rfl
      cases hid.symm.trans hj
      exact hl
    · intro htl
      have hu : u ∈ ts := hn.perm.mem_iff.1 (List.mem_of_getElem? hj)
      obtain rfl := h.apart.unique hu ht (Stretch.last_mem_held hl) (Stretch.last_mem_held htl)
      exact hn.ascending.entry_inj hj hid rfl
  rw [Bool.eq_iff_iff, hplace, beq_iff_eq, beq_iff_eq, Option.some.injEq, hiff]

theorem problems_eq (h : m.Shows policy ts) (hn : m.Numbers ts vs) :
    m.problems = m.exits.filterMap (Exit.problem? (vs.map Stretch.entry)) := by
  rw [problems, hn.starts_eq, List.filter_eq_self.2]
  intro x hx
  obtain ⟨id, t, hplace, -⟩ := h.exists_place hn hx
  rw [hplace]
  rfl

/-- The flow graph of a map has the blocks of the stretches with their exits as edges, and reports
the exits that are dropped. -/
theorem toFlowGraph (h : m.Shows policy ts) (hn : m.Numbers ts vs) (entry : Address)
    (ds : List Diagnostic) :
    ∃ events, m.toFlowGraph entry ds = .ok ({
      entry
      blocks := (vs.map (Stretch.drawn policy (vs.map Stretch.entry))).toArray
      diagnostics := (ds ++ m.exits.filterMap (Exit.problem? (vs.map Stretch.entry))).mergeSort
        fun a b => a.address ≤ b.address }, events) := by
  have hblocks : (m.ordered.mapIdx fun id b => { b with edges := b.edges ++ m.edgesAt id }) =
      vs.map (Stretch.drawn policy (vs.map Stretch.entry)) := by
    apply List.ext_getElem?
    intro id
    rw [List.getElem?_mapIdx, hn.ordered, List.getElem?_map, List.getElem?_map]
    cases hid : vs[id]? with
    | none => rfl
    | some t =>
      simp only [Option.map_some, Stretch.drawn, h.edgesAt_eq hn hid, Stretch.block_edges,
        List.nil_append]
  rw [← hblocks, ← h.problems_eq hn]
  exact h.charted.toFlowGraph entry ds

end Shows

end CodeMap

end CodeLift
