import CodeLift.Proofs.AnyBlocks
import CodeLift.Proofs.Diagnostics

/-!
# Finishing a code map of any blocks

Whatever blocks and exits a map was put together from, finishing it numbers the blocks in the order
of their entries, and hands every exit of a known instruction to the block that holds it. There it
is an edge to the block that begins at its target, or a diagnostic if there is none.

Blocks are found by their entries with a search by halves. It is correct because the entries ascend,
so it stands here together with the order of the blocks.
-/

namespace CodeLift

/-! ## Searching by halves -/

namespace FlowGraph

variable {g : FlowGraph} {blocks : Array Block} {b c : Block} {a : Address} {base size i j id : Nat}

/-- The blocks are in the order of their entries. -/
def Ascends (blocks : Array Block) : Prop :=
  blocks.toList.Pairwise fun b c => b.entry < c.entry

theorem Ascends.entry_lt (h : Ascends blocks) (hb : blocks[i]? = some b) (hc : blocks[j]? = some c)
    (hij : i < j) : b.entry < c.entry := by
  obtain ⟨hi, rfl⟩ := Array.getElem?_eq_some_iff.1 hb
  obtain ⟨hj, rfl⟩ := Array.getElem?_eq_some_iff.1 hc
  exact List.pairwise_iff_getElem.1 h i j hi hj hij

/-- The block is found if it is among those that are searched. -/
theorem Ascends.searchFrom_eq (h : Ascends blocks) (hb : blocks[id]? = some b) (hlow : base ≤ id)
    (hhigh : id < base + size) (hsize : base + size ≤ blocks.size) :
    searchFrom blocks b.entry base size = id := by
  fun_induction searchFrom blocks b.entry base size with
  | case1 base size hlt half c hc ih =>
    have hhalf : half = size / 2 := rfl
    by_cases hle : c.entry ≤ b.entry
    · have hid : base + half ≤ id := by
        -- a block before the middle one has a smaller entry
        by_contra hbelow
        have hentry := h.entry_lt hb hc (Nat.lt_of_not_le hbelow)
        exact UInt64.not_le.2 hentry hle
      simp only [dif_pos hle, if_pos hle] at ih ⊢
      exact ih hid (by omega) (by omega)
    · have hid : id < base + half := by
        by_contra habove
        rcases Nat.eq_or_lt_of_le (Nat.le_of_not_lt habove) with rfl | hlt
        · cases hb.symm.trans hc
          exact hle (UInt64.le_refl _)
        · exact hle (UInt64.le_of_lt (h.entry_lt hc hb hlt))
      simp only [dif_neg hle, if_neg hle] at ih ⊢
      exact ih hlow (by omega) (by omega)
  | case2 base size hlt half hnone =>
    have hhalf : half = size / 2 := rfl
    have hmid : base + half < blocks.size := by omega
    rw [Array.getElem?_eq_getElem hmid] at hnone
    cases hnone
  | case3 base size hlt => omega

theorem Ascends.blockAt?_eq_some_iff (h : Ascends g.blocks) :
    g.blockAt? a = some id ↔ ∃ b, g.blocks[id]? = some b ∧ b.entry = a := by
  constructor
  · intro hfound
    simp only [blockAt?] at hfound
    split at hfound
    · next b hb =>
      split at hfound
      · next he =>
        cases hfound
        exact ⟨b, hb, beq_iff_eq.1 he⟩
      · cases hfound
    · cases hfound
  · rintro ⟨b, hb, rfl⟩
    have hid := (Array.getElem?_eq_some_iff.1 hb).1
    have hsearch := h.searchFrom_eq hb (Nat.zero_le id) (by omega) (Nat.le_of_eq (Nat.zero_add _))
    simp only [blockAt?, hsearch, hb, beq_self_eq_true, if_true]

end FlowGraph

/-! ## Where exits come out -/

/-- What becomes of an exit of a known instruction: an edge, or a problem if no block begins at its
target. -/
def Exit.landing (g : FlowGraph) (x : Exit) : Edge ⊕ Diagnostic :=
  match x.target with
  | none => .inl ⟨x.kind, none⟩
  | some c =>
    match g.blockAt? c with
    | some id => .inl ⟨x.kind, some id⟩
    | none => .inr (.unresolvedTarget x.source c x.kind)

/-- The graph `g` is what the map `m` comes to once all cuts are made, if the problems `ds` were met
before. -/
structure FlowGraph.Resolves (g : FlowGraph) (m : CodeMap) (ds : List Diagnostic) : Prop where
  ascending : FlowGraph.Ascends g.blocks
  /-- Each block of the map is there once. -/
  blocks : (g.blocks.toList.map fun b => { b with edges := [] }).Perm m.blocks.toList
  found : ∀ {a : Address} {id : BlockId},
    g.blockAt? a = some id ↔ ∃ b : Block, g.blocks[id]? = some b ∧ b.entry = a
  /-- The edges of a block are the exits of the instructions that its slot owns. -/
  edges : ∀ b ∈ g.blocks, ∃ k, m.entries[b.entry]? = some k ∧
    b.edges = (m.exits.filter fun x => m.owners[x.source]? == some k).filterMap fun x =>
      (x.landing g).getLeft?
  /-- Each owner has become one block. -/
  placed : ∀ {a : Address} {k : Nat}, m.owners[a]? = some k →
    ∃! id : BlockId, ∃ b, g.blocks[id]? = some b ∧ m.entries[b.entry]? = some k
  diagnostics : g.diagnostics.Perm (ds ++
    (m.exits.filter fun x => m.owners.contains x.source).filterMap fun x =>
      (x.landing g).getRight?)
  sorted : g.diagnostics.Pairwise fun d e => d.address ≤ e.address

namespace CodeMap

variable {m m' : CodeMap} {g : FlowGraph} {x : Exit} {k id : Nat} {b : Block} {a : Address}
  {c : Split}

/-! ## The graph of a map -/

/-- The blocks of the graph are those of the map, in their order. -/
def DrawnIn (m : CodeMap) (g : FlowGraph) : Prop :=
  ∀ id : Nat, g.blocks[id]? = m.ordered[id]?.map (m.numbered id)

namespace DrawnIn

theorem map_entry (hg : m.DrawnIn g) : g.blocks.toList.map (·.entry) = m.starts := by
  apply List.ext_getElem?
  intro id
  rw [List.getElem?_map, Array.getElem?_toList, hg, starts, List.getElem?_map, Option.map_map]
  rfl

theorem ascends (hg : m.DrawnIn g) (h : m.Charted) : FlowGraph.Ascends g.blocks := by
  have hstarts := h.starts_ascending
  rwa [← hg.map_entry, List.pairwise_map] at hstarts

theorem blockAt?_eq (hg : m.DrawnIn g) (h : m.Charted) (a : Address) :
    g.blockAt? a = m.starts.idxOf? a := by
  apply Option.ext
  intro id
  rw [(hg.ascends h).blockAt?_eq_some_iff]
  have hstart : (∃ b, g.blocks[id]? = some b ∧ b.entry = a) ↔ m.starts[id]? = some a := by
    rw [← hg.map_entry, List.getElem?_map, Array.getElem?_toList, Option.map_eq_some_iff]
  rw [hstart]
  constructor
  · exact idxOf?_of_nodup h.starts_nodup
  · intro hid
    obtain ⟨hlt, rfl, -⟩ := List.idxOf?_eq_some_iff.1 hid
    exact List.getElem?_eq_getElem hlt

theorem getLeft?_landing (hg : m.DrawnIn g) (h : m.Charted) (x : Exit) :
    (x.landing g).getLeft? = x.edge? m.starts := by
  unfold Exit.landing Exit.edge?
  cases x.target with
  | none => rfl
  | some c =>
    simp only [hg.blockAt?_eq h]
    cases m.starts.idxOf? c <;> rfl

theorem getRight?_landing (hg : m.DrawnIn g) (h : m.Charted) (x : Exit) :
    (x.landing g).getRight? = x.problem? m.starts := by
  unfold Exit.landing Exit.problem?
  cases x.target with
  | none => rfl
  | some c =>
    simp only [hg.blockAt?_eq h]
    cases hc : m.starts.idxOf? c with
    | none => simp [List.idxOf?_eq_none_iff.1 hc]
    | some id =>
      have hmem : c ∈ m.starts := List.isSome_idxOf?.1 (by rw [hc]; rfl)
      simp [hmem]

/-- A block of the graph is the block of a slot. -/
theorem exists_slot (hg : m.DrawnIn g) (h : m.Charted) (hb : g.blocks[id]? = some b) :
    ∃ k c, m.slots[id]? = some k ∧ m.blocks[k]? = some c ∧ m.entries[b.entry]? = some k ∧
      b = m.numbered id c := by
  rw [hg, h.getElem?_ordered] at hb
  obtain ⟨c, hc, rfl⟩ := Option.map_eq_some_iff.1 hb
  obtain ⟨k, hk, hc⟩ := Option.bind_eq_some_iff.1 hc
  exact ⟨k, c, hk, hc, h.entries.2 ⟨c, hc, rfl⟩, rfl⟩

theorem edges_eq (hg : m.DrawnIn g) (h : m.Filed) (hb : b ∈ g.blocks) :
    ∃ k, m.entries[b.entry]? = some k ∧
      b.edges = (m.exits.filter fun x => m.owners[x.source]? == some k).filterMap fun x =>
        (x.landing g).getLeft? := by
  obtain ⟨id, hid⟩ := Array.mem_iff_getElem?.1 hb
  obtain ⟨k, c, hk, hc, he, rfl⟩ := hg.exists_slot h.toCharted hid
  refine ⟨k, he, ?_⟩
  have hnone : c.edges = [] := (h.blocks c (Array.mem_of_getElem? hc)).edges
  have howned : (m.exits.filter fun x => m.owners[x.source]? == some k) =
      m.exits.filter (m.place? · == some id) := by
    apply List.filter_congr
    intro x _
    rw [Bool.eq_iff_iff, beq_iff_eq, beq_iff_eq]
    exact (h.place?_eq_some_iff hk).symm
  simp only [numbered, hnone, List.nil_append, edgesAt, howned, hg.getLeft?_landing h.toCharted]

theorem existsUnique_of_owner (hg : m.DrawnIn g) (h : m.Charted) (ho : m.owners[a]? = some k) :
    ∃! id : BlockId, ∃ b, g.blocks[id]? = some b ∧ m.entries[b.entry]? = some k := by
  obtain ⟨c, hc⟩ : ∃ c, m.blocks[k]? = some c := ⟨_, Array.getElem?_eq_getElem (h.owners ho)⟩
  obtain ⟨id, hid, hordered, -⟩ := h.exists_number hc
  refine ⟨id, ⟨m.numbered id c, ?_, h.entries.2 ⟨c, hc, rfl⟩⟩, ?_⟩
  · rw [hg, hordered]
    rfl
  · rintro j ⟨b, hb, he⟩
    obtain ⟨i, -, hi, -, he', -⟩ := hg.exists_slot h hb
    cases he.symm.trans he'
    exact (List.getElem?_inj (List.getElem?_eq_some_iff.1 hi).1 h.slots_nodup).1 (hi.trans hid.symm)

theorem blocks_perm (hg : m.DrawnIn g) (h : m.Filed) :
    (g.blocks.toList.map fun b => { b with edges := [] }).Perm m.blocks.toList := by
  have hordered : (g.blocks.toList.map fun b => { b with edges := [] }) = m.ordered := by
    apply List.ext_getElem?
    intro id
    rw [List.getElem?_map, Array.getElem?_toList, hg, Option.map_map]
    cases hb : m.ordered[id]? with
    | none => rfl
    | some b =>
      have hmem := h.ordered_perm.mem_iff.1 (List.mem_of_getElem? hb)
      have hnone := (h.blocks b (Array.mem_toList_iff.1 hmem)).edges
      simp [numbered, ← hnone]
  rw [hordered]
  exact h.ordered_perm

end DrawnIn

theorem Filed.resolves (h : m.Filed) (entry : Address) (ds : List Diagnostic) :
    ∃ g events, m.toFlowGraph entry ds = .ok (g, events) ∧ g.entry = entry ∧ g.Resolves m ds := by
  obtain ⟨events, hgraph⟩ := h.toFlowGraph entry ds
  refine ⟨_, events, hgraph, rfl, ?_⟩
  -- only the blocks and the diagnostics of the graph matter, not how it was put together
  generalize hg : FlowGraph.mk entry _ _ _ = g at hgraph ⊢
  have hdrawn : m.DrawnIn g := by
    intro id
    rw [← hg, List.getElem?_toArray, List.getElem?_mapIdx]
  have hdiagnostics : g.diagnostics = CodeLift.inOrder (ds ++ m.problems) := by
    rw [← hg]
    rfl
  have hproblems : m.problems =
      (m.exits.filter fun x => m.owners.contains x.source).filterMap fun x =>
        (x.landing g).getRight? := by
    simp only [problems, h.isSome_place?, hdrawn.getRight?_landing h.toCharted]
  have hascends := hdrawn.ascends h.toCharted
  refine ⟨hascends, hdrawn.blocks_perm h, hascends.blockAt?_eq_some_iff,
    fun b hb => hdrawn.edges_eq h hb, hdrawn.existsUnique_of_owner h.toCharted, ?_, ?_⟩
  · rw [hdiagnostics, ← hproblems]
    exact List.mergeSort_perm _ _
  · rw [hdiagnostics]
    exact inOrder_pairwise _

/-! ## Making the last cuts -/

/-- The map `m'` knows the addresses and the exits of `m`, and perhaps more. -/
structure Extends (m m' : CodeMap) : Prop where
  exits : ∃ more, m'.exits = m.exits ++ more
  entries : ∀ a ∈ m.entries, a ∈ m'.entries
  owners : ∀ a ∈ m.owners, a ∈ m'.owners

theorem Extends.refl (m : CodeMap) : m.Extends m :=
  ⟨⟨[], (List.append_nil _).symm⟩, fun _ ha => ha, fun _ ha => ha⟩

theorem Extends.trans {m₁ m₂ m₃ : CodeMap} (h : m₁.Extends m₂) (h' : m₂.Extends m₃) :
    m₁.Extends m₃ := by
  obtain ⟨more, hmore⟩ := h.exits
  obtain ⟨more', hmore'⟩ := h'.exits
  refine ⟨⟨more ++ more', ?_⟩, fun a ha => h'.entries a (h.entries a ha),
    fun a ha => h'.owners a (h.owners a ha)⟩
  rw [hmore', hmore, List.append_assoc]

theorem mem_own_of_mem {owners : Std.TreeMap Address Nat} (h : a ∈ owners) (slot : Nat)
    (addrs : List Address) : a ∈ own owners slot addrs := by
  rw [← Std.TreeMap.isSome_getElem?_iff_mem, getElem?_own]
  split
  · rfl
  · exact Std.TreeMap.isSome_getElem?_iff_mem.2 h

theorem SplitResult.extends (h : m.SplitResult a c) : m.Extends c.map := by
  cases h with
  | found => exact .refl m
  | none => exact .refl m
  | lost hd => exact ⟨⟨[], (List.append_nil _).symm⟩, fun _ ha => ha, fun _ ha => ha⟩
  | divided _ _ _ hlast =>
    simp only [divide, hlast]
    exact ⟨⟨_, List.reverse_cons⟩, fun b hb => Std.TreeMap.mem_insert.2 (.inr hb),
      fun b hb => mem_own_of_mem hb _ _⟩

/-- The cuts that finishing begins with are cuts like all others. -/
theorem Assembled.splitInterior (h : m.Assembled) (addrs : List Address) :
    ∃ m' events, m.splitInterior addrs = .ok (m', events) ∧ m'.Assembled ∧ m.Extends m' := by
  induction addrs generalizing m with
  | nil => exact ⟨m, [], rfl, h, .refl m⟩
  | cons a as ih =>
    cases hl : m.lookup a with
    | entry k =>
      simp only [CodeMap.splitInterior, hl]
      exact ih h
    | unknown =>
      simp only [CodeMap.splitInterior, hl]
      exact ih h
    | interior k =>
      obtain ⟨c, hc, hresult⟩ := h.filed.splitResult a
      obtain ⟨m', events, hm', hassembled, hextends⟩ := ih (h.split hc)
      simp only [CodeMap.splitInterior, hl, hc, hm', bind, Except.bind]
      exact ⟨m', _, rfl, hassembled, hresult.extends.trans hextends⟩

end CodeMap

namespace Sample

/-- What is known of `addr` once a block of two steps is recorded that jumps back to the second one,
and falls through to an address where nothing is. -/
def spinLookup (addr : Address) : Except Fault Lookup := do
  let b ← [{ addr := 0, size := 1, ops := [{ opcode := "step" }], bytes := [0] },
    { addr := 1, size := 1, ops := [{ opcode := "step" }], bytes := [1] }].foldlM Block.push
    (.empty 0)
  let m ← ({} : CodeMap).commit b [⟨1, .conditional, some 1⟩, ⟨1, .fallthrough, some 2⟩]
  return m.lookup addr

end Sample

namespace CodeMap

/-- Finishing never fails. The blocks of all slots are numbered by their entries, and every exit of
a known instruction becomes one edge of the block that holds it, or one diagnostic. -/
theorem finish_resolves {m : CodeMap} (h : m.Assembled) (entry : Address) (ds : List Diagnostic) :
    ∃ m' cuts g events,
      m.splitInterior (m.exits.filterMap (·.target)) = .ok (m', cuts) ∧ m.Extends m' ∧
      m.finish entry ds = .ok (g, events) ∧ g.entry = entry ∧ g.Resolves m' ds := by
  obtain ⟨m', cuts, hcuts, hassembled, hextends⟩ :=
    h.splitInterior (m.exits.filterMap (·.target))
  obtain ⟨g, drops, hgraph, hentry, hresolves⟩ := hassembled.filed.resolves entry ds
  refine ⟨m', cuts, g, cuts ++ drops, hcuts, hextends, ?_, hentry, hresolves⟩
  simp only [finish, hcuts, hgraph, bind, Except.bind]
  rfl

/-- Finishing cuts the block where the jump leads, and the second exit leads nowhere. -/
theorem finish_resolves_sample : ∃ m : CodeMap, m.Assembled ∧ m.lookup 1 = .interior 0 ∧
    ∃ m' cuts g events,
      m.splitInterior (m.exits.filterMap (·.target)) = .ok (m', cuts) ∧
      m.finish 0 [] = .ok (g, events) ∧ g.Resolves m' [] := by
  have hlookup : Sample.spinLookup 1 = .ok (.interior 0) := by decide +kernel
  obtain ⟨b, hb, h⟩ := bind_eq_ok.1 hlookup
  obtain ⟨m, hm, h⟩ := bind_eq_ok.1 h
  have hassembled : m.Assembled := .commit .empty (.plain hb) hm
  obtain ⟨m', cuts, g, events, hcuts, -, hfinish, -, hresolves⟩ := finish_resolves hassembled 0 []
  exact ⟨m, hassembled, Except.ok.inj h, m', cuts, g, events, hcuts, hfinish, hresolves⟩

end CodeMap

end CodeLift
