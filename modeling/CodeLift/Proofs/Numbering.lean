import CodeLift.CodeMap.Finish
import Mathlib.Data.List.Nodup

/-!
# Numbering blocks and resolving exits

The blocks of a map are numbered in the order of their entries, and each exit becomes an edge, a
diagnostic, or nothing. All that this rests on is `CodeMap.Charted`: the entries lead to the slots
of their blocks and back, and every owner is a slot. It does not matter where the blocks came from.
-/

namespace CodeLift

theorem mapM_eq_ok {α β : Type} {f : α → Except Fault β} {g : α → β} {l : List α}
    (h : ∀ a ∈ l, f a = .ok (g a)) : l.mapM f = .ok (l.map g) := by
  induction l with
  | nil => rfl
  | cons a as ih =>
    rw [List.mapM_cons, h a List.mem_cons_self, ih fun b hb => h b (List.mem_cons_of_mem _ hb)]
    rfl

theorem idxOf?_of_nodup {α : Type} [BEq α] [LawfulBEq α] {l : List α} (hl : l.Nodup) {i : Nat}
    {a : α} (h : l[i]? = some a) : l.idxOf? a = some i := by
  obtain ⟨hi, rfl⟩ := List.getElem?_eq_some_iff.1 h
  rw [List.idxOf?_eq_some_iff]
  refine ⟨hi, rfl, ?_⟩
  intro j hj he
  exact Nat.ne_of_lt hj (hl.getElem_inj_iff.1 he)

/-! ## What becomes of an exit -/

namespace Exit

/-- The edge that an exit becomes when blocks begin at `entries`. -/
def edge? (entries : List Address) (x : Exit) : Option Edge :=
  match x.target with
  | none => some ⟨x.kind, none⟩
  | some c => (entries.idxOf? c).map fun id => ⟨x.kind, some id⟩

/-- The problem that an exit is when blocks begin at `entries`, but none at its target. -/
def problem? (entries : List Address) (x : Exit) : Option Diagnostic :=
  match x.target with
  | none => none
  | some c => if c ∈ entries then none else some (.unresolvedTarget x.source c x.kind)

/-- What becomes of an exit of the block `id`. -/
def resolution (entries : List Address) (id : BlockId) (x : Exit) : Resolution :=
  match x.target with
  | none => .edge id ⟨x.kind, none⟩
  | some c =>
    match entries.idxOf? c with
    | some target => .edge id ⟨x.kind, some target⟩
    | none => .unresolved c

end Exit

/-- The edge that a resolution adds to the block `id`. -/
def Resolution.edgeOf? (id : BlockId) : Resolution → Option Edge
  | .edge source e => if source = id then some e else none
  | .unresolved _ => none
  | .orphan => none

theorem Exit.edgeOf?_resolution (entries : List Address) (id source : BlockId) (x : Exit) :
    (x.resolution entries source).edgeOf? id = if source = id then x.edge? entries else none := by
  unfold resolution edge?
  split
  · rfl
  · split
    · next hc => rw [hc]; rfl
    · next hc => rw [hc]; simp [Resolution.edgeOf?]

theorem Exit.source_of_resolution {entries : List Address} {x : Exit} {id source : BlockId}
    {e : Edge} (h : x.resolution entries id = .edge source e) : source = id := by
  unfold resolution at h
  split at h
  · cases h
    rfl
  · split at h
    · cases h
      rfl
    · cases h

theorem getElem?_foldl_attach (rs : List Resolution) (blocks : Array Block) (id : Nat) :
    (rs.foldl CodeMap.attach blocks)[id]? = blocks[id]?.map fun b =>
      { b with edges := b.edges ++ rs.filterMap (Resolution.edgeOf? id) } := by
  induction rs generalizing blocks with
  | nil => simp
  | cons r rs ih =>
    rw [List.foldl_cons, ih]
    cases r with
    | edge source e =>
      rw [CodeMap.attach, Array.getElem?_modify]
      by_cases hs : source = id
      · simp [hs, Resolution.edgeOf?, Function.comp_def]
      · simp [hs, Resolution.edgeOf?]
    | unresolved target => rfl
    | orphan => rfl

namespace CodeMap

variable {m : CodeMap} {a : Address} {k id : Nat} {b : Block} {x : Exit}

/-! ## The order of the blocks -/

/-- Entries and slots belong to each other, and every owner is a slot. -/
structure Charted (m : CodeMap) : Prop where
  entries : ∀ {a : Address} {k : Nat},
    m.entries[a]? = some k ↔ ∃ b : Block, m.blocks[k]? = some b ∧ b.entry = a
  owners : ∀ {a : Address} {k : Nat}, m.owners[a]? = some k → k < m.blocks.size

/-- The blocks in the order of their entries. -/
def ordered (m : CodeMap) : List Block := m.slots.filterMap (m.blocks[·]?)

/-- The entries of the blocks, in their order. -/
def starts (m : CodeMap) : List Address := m.ordered.map (·.entry)

/-- The number of the block that holds the instruction which an exit leaves. -/
def place? (m : CodeMap) (x : Exit) : Option BlockId :=
  m.owners[x.source]?.bind (m.slots.idxOf? ·)

/-- What becomes of an exit. -/
def outcome (m : CodeMap) (x : Exit) : Resolution :=
  match m.place? x with
  | none => .orphan
  | some id => x.resolution m.starts id

theorem slots_eq (m : CodeMap) : m.slots = m.entries.toList.map Prod.snd := by
  have hfold : m.slots = m.entries.foldr (fun _ k acc => k :: acc) [] := rfl
  rw [hfold, Std.TreeMap.foldr_eq_foldr_toList]
  induction m.entries.toList with
  | nil => rfl
  | cons p ps ih => rw [List.foldr_cons, ih, List.map_cons]

namespace Charted

theorem exists_of_mem (h : m.Charted) (he : (a, k) ∈ m.entries.toList) :
    ∃ b : Block, m.blocks[k]? = some b ∧ b.entry = a :=
  h.entries.1 (Std.TreeMap.mem_toList_iff_getElem?_eq_some.1 he)

theorem mem_slots_iff (h : m.Charted) : k ∈ m.slots ↔ k < m.blocks.size := by
  rw [slots_eq, List.mem_map]
  constructor
  · rintro ⟨⟨a, j⟩, he, rfl⟩
    obtain ⟨b, hb, -⟩ := h.exists_of_mem he
    exact (Array.getElem?_eq_some_iff.1 hb).1
  · intro hk
    have he := h.entries.2 ⟨_, Array.getElem?_eq_getElem hk, rfl⟩
    exact ⟨_, Std.TreeMap.mem_toList_iff_getElem?_eq_some.2 he, rfl⟩

theorem slots_nodup (h : m.Charted) : m.slots.Nodup := by
  rw [slots_eq, List.Nodup, List.pairwise_map]
  refine (Std.TreeMap.ordered_keys_toList (t := m.entries)).imp_of_mem ?_
  rintro ⟨a, k⟩ ⟨b, j⟩ ha hb hlt (rfl : k = j)
  obtain ⟨c, hc, rfl⟩ := h.exists_of_mem ha
  obtain ⟨d, hd, rfl⟩ := h.exists_of_mem hb
  cases hc.symm.trans hd
  simp at hlt

theorem starts_eq (h : m.Charted) : m.starts = m.entries.toList.map Prod.fst := by
  rw [starts, ordered, slots_eq, List.filterMap_map, List.map_filterMap, ← List.filterMap_eq_map]
  refine List.filterMap_congr ?_
  rintro ⟨a, k⟩ he
  obtain ⟨b, hb, rfl⟩ := h.exists_of_mem he
  simp [hb]

theorem starts_ascending (h : m.Charted) : m.starts.Pairwise (· < ·) := by
  rw [h.starts_eq, List.pairwise_map]
  exact (Std.TreeMap.ordered_keys_toList (t := m.entries)).imp fun hlt => Std.compare_eq_lt.1 hlt

theorem starts_nodup (h : m.Charted) : m.starts.Nodup :=
  h.starts_ascending.imp fun hlt he => UInt64.ne_of_lt hlt he

theorem ordered_perm (h : m.Charted) : m.ordered.Perm m.blocks.toList := by
  have hordered : m.ordered.Nodup := h.starts_nodup.of_map
  have hblocks : m.blocks.toList.Nodup := by
    rw [List.nodup_iff_getElem?_ne_getElem?]
    intro i j hij hj he
    obtain ⟨b, hb⟩ : ∃ b, m.blocks[j]? = some b := ⟨_, Array.getElem?_eq_getElem hj⟩
    rw [Array.getElem?_toList, Array.getElem?_toList] at he
    have hi := h.entries.2 ⟨b, he.trans hb, rfl⟩
    cases hi.symm.trans (h.entries.2 ⟨b, hb, rfl⟩)
    exact Nat.lt_irrefl _ hij
  rw [List.perm_ext_iff_of_nodup hordered hblocks]
  intro b
  rw [ordered, List.mem_filterMap, Array.mem_toList_iff]
  constructor
  · rintro ⟨k, -, hk⟩
    exact Array.mem_of_getElem? hk
  · intro hb
    obtain ⟨k, hk⟩ := Array.mem_iff_getElem?.1 hb
    exact ⟨k, h.mem_slots_iff.2 (Array.getElem?_eq_some_iff.1 hk).1, hk⟩

theorem blocks_eq (h : m.Charted) : m.slots.mapM m.blockIn = .ok m.ordered := by
  have hall : ∀ l : List Nat, (∀ k ∈ l, k < m.blocks.size) →
      l.mapM m.blockIn = .ok (l.filterMap (m.blocks[·]?)) := by
    intro l hl
    induction l with
    | nil => rfl
    | cons k ks ih =>
      have hk := Array.getElem?_eq_getElem (hl k List.mem_cons_self)
      rw [List.mapM_cons, blockIn, hk, ih fun j hj => hl j (List.mem_cons_of_mem _ hj),
        List.filterMap_cons_some hk]
      rfl
  exact hall m.slots fun k hk => h.mem_slots_iff.1 hk

theorem getElem?_ordered (h : m.Charted) (id : Nat) :
    m.ordered[id]? = m.slots[id]?.bind (m.blocks[·]?) := by
  have hsome : m.ordered.map some = m.slots.map (m.blocks[·]?) := by
    rw [ordered, List.map_filterMap, ← List.filterMap_eq_map]
    refine List.filterMap_congr ?_
    intro k hk
    simp [Array.getElem?_eq_getElem (h.mem_slots_iff.1 hk)]
  have hid := congrArg (·[id]?) hsome
  simp only [List.getElem?_map] at hid
  cases hs : m.slots[id]? with
  | none => simpa [hs] using hid
  | some k =>
    rw [hs] at hid
    obtain ⟨b, hb, hk⟩ := Option.map_eq_some_iff.1 hid
    rw [hb, hk, Option.bind_some]

/-- The number of a slot is its place among the slots. -/
theorem number_eq (h : m.Charted) (hk : m.slots[id]? = some k) :
    CodeMap.number m.numbering k = .ok id := by
  have hmem : (k, id) ∈ m.slots.zipIdx := List.mk_mem_zipIdx_iff_getElem?.2 hk
  have hdistinct : m.slots.zipIdx.Pairwise fun a b => ¬ compare a.1 b.1 = .eq := by
    have hmap := h.slots_nodup
    rw [← List.zipIdx_map_fst 0 m.slots, List.Nodup, List.pairwise_map] at hmap
    exact hmap.imp fun hne he => hne (Std.LawfulEqOrd.compare_eq_iff_eq.1 he)
  have hlookup : m.numbering[k]? = some id :=
    Std.TreeMap.getElem?_ofList_of_mem Std.ReflOrd.compare_self hdistinct hmem
  rw [CodeMap.number, hlookup]

/-- Each slot has a number, by which its block and the entry of that are found. -/
theorem exists_number (h : m.Charted) (hb : m.blocks[k]? = some b) :
    ∃ id : Nat, m.slots[id]? = some k ∧ m.ordered[id]? = some b ∧ m.starts[id]? = some b.entry := by
  have hk := h.mem_slots_iff.2 (Array.getElem?_eq_some_iff.1 hb).1
  obtain ⟨id, hid⟩ := List.mem_iff_getElem?.1 hk
  have hordered : m.ordered[id]? = some b := by rw [h.getElem?_ordered, hid, Option.bind_some, hb]
  refine ⟨id, hid, hordered, ?_⟩
  rw [starts, List.getElem?_map, hordered]
  rfl

theorem place?_of_owner (h : m.Charted) (ho : m.owners[x.source]? = some k)
    (hid : m.slots[id]? = some k) : m.place? x = some id := by
  rw [place?, ho, Option.bind_some]
  exact idxOf?_of_nodup h.slots_nodup hid

theorem place?_eq_some_iff (h : m.Charted) (hid : m.slots[id]? = some k) :
    m.place? x = some id ↔ m.owners[x.source]? = some k := by
  constructor
  · intro hplace
    obtain ⟨j, hj, hidx⟩ := Option.bind_eq_some_iff.1 hplace
    obtain ⟨hlt, rfl, -⟩ := List.idxOf?_eq_some_iff.1 hidx
    rw [hj, ← hid, List.getElem?_eq_getElem hlt]
  · intro howner
    exact h.place?_of_owner howner hid

theorem isSome_place? (h : m.Charted) (x : Exit) :
    (m.place? x).isSome = m.owners.contains x.source := by
  rw [Std.TreeMap.contains_eq_isSome_getElem?]
  cases ho : m.owners[x.source]? with
  | none => simp [place?, ho]
  | some k =>
    obtain ⟨id, hid, -⟩ := h.exists_number (Array.getElem?_eq_getElem (h.owners ho))
    rw [h.place?_of_owner ho hid]
    rfl

/-! ## Resolving exits -/

theorem resolve_eq (h : m.Charted) (x : Exit) :
    m.resolve m.numbering x = .ok (m.outcome x) := by
  unfold resolve outcome
  cases ho : m.owners[x.source]? with
  | none => simp only [place?, ho, Option.bind_none]
  | some k =>
    obtain ⟨id, hid, -⟩ := h.exists_number (Array.getElem?_eq_getElem (h.owners ho))
    simp only [h.place?_of_owner ho hid, h.number_eq hid, Exit.resolution]
    cases hx : x.target with
    | none => rfl
    | some c =>
      cases hc : m.entries[c]? with
      | none =>
        have hfree : c ∉ m.starts := by
          intro hm
          rw [h.starts_eq] at hm
          obtain ⟨⟨a, j⟩, he, rfl⟩ := List.mem_map.1 hm
          rw [Std.TreeMap.mem_toList_iff_getElem?_eq_some, hc] at he
          cases he
        simp only [hc, List.idxOf?_eq_none_iff.2 hfree]
      | some j =>
        obtain ⟨d, hd, rfl⟩ := h.entries.1 hc
        obtain ⟨target, htarget, -, hstart⟩ := h.exists_number hd
        simp only [hc, h.number_eq htarget, idxOf?_of_nodup h.starts_nodup hstart]
        rfl

theorem resolve_exits (h : m.Charted) :
    m.exits.mapM (m.resolve m.numbering) = .ok (m.exits.map m.outcome) :=
  mapM_eq_ok fun x _ => h.resolve_eq x

theorem lt_of_outcome (h : m.Charted) {e : Edge} (ho : m.outcome x = .edge id e) :
    id < m.ordered.length := by
  unfold outcome at ho
  split at ho
  · cases ho
  · next source hplace =>
    obtain rfl := Exit.source_of_resolution ho
    obtain ⟨k, -, hk⟩ := Option.bind_eq_some_iff.1 hplace
    obtain ⟨hlt, -⟩ := List.idxOf?_eq_some_iff.1 hk
    have hslot := h.mem_slots_iff.1 (List.getElem_mem hlt)
    have hordered := h.getElem?_ordered id
    rw [List.getElem?_eq_getElem hlt, Option.bind_some, Array.getElem?_eq_getElem hslot] at hordered
    exact (List.getElem?_eq_some_iff.1 hordered).1

end Charted

/-- The edges of the block `id`: the exits that leave its instructions, in their order. -/
def edgesAt (m : CodeMap) (id : BlockId) : List Edge :=
  (m.exits.filter (m.place? · == some id)).filterMap (Exit.edge? m.starts)

/-- The exits of known instructions that lead nowhere. -/
def problems (m : CodeMap) : List Diagnostic :=
  (m.exits.filter fun x => (m.place? x).isSome).filterMap (Exit.problem? m.starts)

theorem filterMap_edgeOf?_outcome (m : CodeMap) (id : BlockId) :
    (m.exits.map m.outcome).filterMap (Resolution.edgeOf? id) = m.edgesAt id := by
  rw [edgesAt, List.filterMap_map, List.filterMap_filter]
  refine List.filterMap_congr ?_
  intro x _
  simp only [Function.comp_apply, outcome]
  cases m.place? x with
  | none => rfl
  | some source => simp only [Exit.edgeOf?_resolution, beq_iff_eq, Option.some.injEq]

/-- The exits that are dropped, as diagnostics. -/
theorem map_dropped (m : CodeMap) :
    ((dropped m.exits (m.exits.map m.outcome)).map fun (x, target) =>
      Diagnostic.unresolvedTarget x.source target x.kind) = m.problems := by
  rw [problems, dropped, ← List.map_prod_left_eq_zip, List.filterMap_map, List.map_filterMap,
    List.filterMap_filter]
  refine List.filterMap_congr ?_
  intro x _
  simp only [Function.comp_apply, outcome]
  cases m.place? x with
  | none => rfl
  | some id =>
    simp only [Exit.resolution, Exit.problem?, Option.isSome_some, if_true]
    cases x.target with
    | none => rfl
    | some c =>
      by_cases hc : c ∈ m.starts
      · obtain ⟨target, htarget⟩ := Option.isSome_iff_exists.1 (List.isSome_idxOf?.2 hc)
        simp [htarget, hc]
      · simp [List.idxOf?_eq_none_iff.2 hc, hc]

/-- The block with the number `id`, with its edges. -/
def numbered (m : CodeMap) (id : BlockId) (b : Block) : Block :=
  { b with edges := b.edges ++ m.edgesAt id }

/-- The flow graph of a map has its blocks in the order of their entries, each with the exits of its
instructions as edges, and reports the exits that are dropped. -/
theorem Charted.toFlowGraph (h : m.Charted) (entry : Address) (ds : List Diagnostic) :
    ∃ events, m.toFlowGraph entry ds = .ok ({
      entry
      blocks := (m.ordered.mapIdx m.numbered).toArray
      diagnostics := (ds ++ m.problems).mergeSort fun a b => a.address ≤ b.address }, events) := by
  have hblocks : (m.exits.map m.outcome).foldl attach m.ordered.toArray =
      (m.ordered.mapIdx m.numbered).toArray := by
    apply Array.ext_getElem?
    intro id
    rw [getElem?_foldl_attach, filterMap_edgeOf?_outcome, List.getElem?_toArray,
      List.getElem?_toArray, List.getElem?_mapIdx]
    rfl
  rw [CodeMap.toFlowGraph, h.blocks_eq, h.resolve_exits]
  simp only [bind, Except.bind, pure, Except.pure, hblocks, map_dropped]
  exact ⟨_, rfl⟩

end CodeMap

end CodeLift
