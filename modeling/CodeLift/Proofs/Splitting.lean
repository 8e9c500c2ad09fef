import CodeLift.Proofs.AnyDecoder
import CodeLift.Proofs.MapHistory

/-!
# What a cut does to a code map

An address inside a block is made an entry: the block is divided there, its exits go with the second
part, and control falls through from the first part into the second. Nothing else in the map
changes, and what is known of all other addresses stays what it was.

The blocks of a conforming decoder can be divided wherever the map says that an instruction begins,
however often they have been divided before. A second cut at the same address finds the entry.
-/

namespace CodeLift

/-! ## The parts of a block -/

namespace Block

variable {b head tail : Block} {a : Address}

/-- The blocks `head` and `tail` are `whole`, divided at `a`. -/
structure Parts (whole : Block) (a : Address) (head tail : Block) : Prop where
  head_entry : head.entry = whole.entry
  head_stop : head.stop = a
  tail_entry : tail.entry = a
  tail_stop : tail.stop = whole.stop
  ops : whole.ops = head.ops ++ tail.ops
  /-- The records are divided, and those of the second part count operations from the cut on. -/
  insns : ∃ rest, whole.insns = head.insns ++ rest ∧
    tail.insns = rest.map (·.rebase head.ops.length)
  /-- Every record points at the start of its own instruction. -/
  head_indexed : head.Indexed
  tail_indexed : tail.Indexed

theorem Indexed.parts (h : b.Indexed) (hc : b.cut? a = .ok (some (head, tail))) :
    b.Parts a head tail := by
  cases hpoint : b.cutPoint? a with
  | none =>
    rw [Block.cut?, hpoint] at hc
    cases hc
  | some point =>
    obtain ⟨n, k⟩ := point
    cases hc.symm.trans (h.cut?_of_cutPoint? hpoint)
    have hd := h.divides_of_cutPoint? hpoint
    have hlen : (b.head a n k).ops.length = k := by
      rw [Block.head, List.length_take]
      exact Nat.min_eq_left hd.le
    refine ⟨rfl, rfl, rfl, rfl, ?_, ⟨b.insns.drop n, ?_, ?_⟩, h.head hd a, h.tail hd a⟩
    · exact (List.take_append_drop k b.ops).symm
    · exact (List.take_append_drop n b.insns).symm
    · rw [hlen]
      rfl

end Block

theorem Stretch.indexed_block {decode : Address → Except Fault Decoded} (t : Stretch decode) :
    t.block.Indexed :=
  Block.indexed_of_lowered _ rfl rfl

/-- The same is known of an address, the slot apart. -/
inductive Lookup.SameKind : Lookup → Lookup → Prop where
  | entry (j k : Nat) : SameKind (.entry j) (.entry k)
  | interior (j k : Nat) : SameKind (.interior j) (.interior k)
  | unknown : SameKind .unknown .unknown

namespace CodeMap

/-- The map `m'` is `m` after `whole`, the block in slot `k`, has been divided at `a`. -/
structure Divided (m : CodeMap) (a : Address) (k : Nat) (whole head tail : Block) (m' : CodeMap) :
    Prop where
  /-- The first part stays in the slot, and the second one gets the next free slot. -/
  before : m.blocks[k]? = some whole
  first : m'.blocks[k]? = some head
  second : m'.blocks[m.blocks.size]? = some tail
  parts : whole.Parts a head tail
  /-- All other blocks stay. -/
  others : ∀ j, j ≠ k → j ≠ m.blocks.size → m'.blocks[j]? = m.blocks[j]?
  /-- One exit is added, after all others. -/
  exits : ∃ p, head.lastInsn? = some p ∧ m'.exits = m.exits ++ [⟨p, .fallthrough, some a⟩]
  /-- The exits of the block go with the second part, those of other blocks stay. -/
  owners : ∀ x ∈ m.exits, m'.owners[x.source]? =
    if m.owners[x.source]? = some k then some m.blocks.size else m.owners[x.source]?
  /-- A block begins at the cut. -/
  entry : m'.lookup a = .entry m.blocks.size
  /-- Of other addresses the same is known. -/
  kinds : ∀ b, b ≠ a → (m.lookup b).SameKind (m'.lookup b)

section

variable {decode : Address → Except Fault Decoded} {policy : ReturnPolicy} {m m' : CodeMap}
  {ts ts' : List (Stretch decode)} {t head tail : Stretch decode} {a b : Address} {k : Nat}

namespace Shows

/-- What is known of an address depends only on whether a stretch begins there or holds it. -/
theorem sameKind (h : m.Shows policy ts) (h' : m'.Shows policy ts')
    (hknown : Known ts' b ↔ Known ts b) (hbegins : Begins ts' b ↔ Begins ts b) :
    (m.lookup b).SameKind (m'.lookup b) := by
  have hinside : ∀ {us : List (Stretch decode)} {j : Nat} {u : Stretch decode}, Apart us →
      us[j]? = some u → b ∈ u.held → b ≠ u.entry → ¬ Begins us b := by
    rintro us j u hapart hu hb hne ⟨v, hv, rfl⟩
    exact hne (congrArg _ (hapart.unique hv (List.mem_of_getElem? hu) v.entry_mem_held hb))
  rcases slot_cases ts b with ⟨j, u, hu, rfl⟩ | ⟨j, u, hu, hb, hne⟩ | hu
  · obtain ⟨v, hv, he⟩ := hbegins.2 ⟨u, List.mem_of_getElem? hu, rfl⟩
    obtain ⟨i, hi⟩ := List.mem_iff_getElem?.1 hv
    rw [h.lookup_entry hu, ← he, h'.lookup_entry hi]
    exact .entry j i
  · obtain ⟨v, hv, hbv⟩ := hknown.2 ⟨u, List.mem_of_getElem? hu, hb⟩
    obtain ⟨i, hi⟩ := List.mem_iff_getElem?.1 hv
    have hne' : b ≠ v.entry := fun he =>
      hinside h.apart hu hb hne (hbegins.1 ⟨v, hv, he.symm⟩)
    rw [h.lookup_interior hu hb hne, h'.lookup_interior hi hbv hne']
    exact .interior j i
  · rw [h.lookup_unknown hu, h'.lookup_unknown (mt hknown.1 hu)]
    exact .unknown

/-- After a cut the exits of the stretch leave its second part. -/
theorem owner_of_exit (h : m.Shows policy ts) (hk : ts[k]? = some t) (hc : t.Cut a head tail)
    {x : Exit} (hx : x ∈ m.exits) :
    (own m.owners ts.length tail.held)[x.source]? =
      if m.owners[x.source]? = some k then some ts.length else m.owners[x.source]? := by
  obtain ⟨u, hu, hleaves⟩ := h.mem_exits_iff.1 hx
  have hlast := (Stretch.of_mem_exits hleaves).1
  have hsource := Stretch.last_mem_held hlast
  obtain ⟨j, hj⟩ := List.mem_iff_getElem?.1 hu
  have hi : u.insns ≠ [] := by
    rintro hi
    simp [Stretch.last?, hi] at hlast
  have howner := h.owned hj hi hsource
  rw [getElem?_own, howner]
  by_cases hjk : j = k
  · -- the exit leaves the last instruction, and that is in the second part
    obtain rfl : u = t := Option.some.inj (hj.symm.trans (hjk ▸ hk))
    rw [← hc.tail_exits] at hleaves
    rw [if_pos (Stretch.last_mem_held (Stretch.of_mem_exits hleaves).1), if_pos (congrArg _ hjk)]
  · have hnot : x.source ∉ tail.held := by
      intro htail
      have hmem : x.source ∈ t.held := by
        rw [hc.held_eq]
        exact List.mem_append_right _ htail
      exact hjk (h.apart.slot_unique hj hk hsource hmem)
    rw [if_neg hnot, if_neg fun he => hjk (Option.some.inj he)]

theorem divided (h : m.Shows policy ts) (hk : ts[k]? = some t) (hc : t.Cut a head tail)
    (ha : a ∈ t.held) {c : Split} (hs : m.split a = .ok c) :
    m.Divided a k t.block head.block tail.block c.map := by
  have hshows := h.shows_cut hk hc ha hs
  have hcut := cutAt_set hk hc
  obtain ⟨c', hc', -, hblocks, -, howners, hexits⟩ := h.split_eq hk hc ha
  cases hs.symm.trans hc'
  obtain ⟨hlt, -⟩ := List.getElem?_eq_some_iff.1 hk
  have hslot : ∀ {j : Nat} {u : Stretch decode}, (ts.set k head ++ [tail])[j]? = some u →
      c.map.blocks[j]? = some u.block := by
    intro j u hu
    rw [hshows.getElem?_blocks, hu]
    rfl
  have htail : (ts.set k head ++ [tail])[ts.length]? = some tail :=
    (getElem?_set_append hlt).2 (.inr (.inl ⟨rfl, rfl⟩))
  refine ⟨?_, ?_, ?_, t.indexed_block.parts hc.cut?_block, ?_, ?_, ?_, ?_, ?_⟩
  · rw [h.getElem?_blocks, hk]
    rfl
  · exact hslot ((getElem?_set_append hlt).2 (.inl ⟨rfl, rfl⟩))
  · rw [h.size_eq]
    exact hslot htail
  · -- others
    intro j hjk hj
    have hj' : ¬ j = (m.blocks.setIfInBounds k head.block).size := by
      rwa [Array.size_setIfInBounds]
    rw [hblocks, Array.getElem?_push, if_neg hj', Array.getElem?_setIfInBounds,
      if_neg (Ne.symm hjk)]
  · -- exits
    obtain ⟨p, hp, -, he⟩ := hc.head_exits policy
    exact ⟨p, by rw [head.block_lastInsn?, hp], by rw [hexits, he]⟩
  · -- owners
    intro x hx
    rw [howners, h.size_eq]
    exact h.owner_of_exit hk hc hx
  · have hlookup := hshows.lookup_entry htail
    rwa [hc.tail_entry, ← h.size_eq] at hlookup
  · -- kinds
    intro b hne
    refine h.sameKind hshows hcut.known_iff ?_
    rw [hcut.begins_iff]
    exact or_iff_right hne

end Shows

end

/-- Cutting at an address inside a block divides the block there and leaves the rest of the map as
it is. A further cut there finds the new block and does nothing. -/
theorem split_divides {s : Scanner} {size : Nat} {m : CodeMap} {cuts : Set Nat} {a : Address}
    {k : Nat} (hf : Fits s.decode size) (hsize : size < Address.count) (h : Built s m cuts)
    (hl : m.lookup a = .interior k) :
    ∃ c, m.split a = .ok c ∧ c.slot = some m.blocks.size ∧
      (∃ whole head tail, m.Divided a k whole head tail c.map) ∧
      c.map.split a = .ok { map := c.map, slot := some m.blocks.size } := by
  obtain ⟨ts, ht⟩ := h.exists_tracks hf hsize
  have hshows := ht.toShows
  obtain ⟨t, hk, ha, hne⟩ := hshows.exists_of_interior hl
  obtain ⟨head, tail, hcut⟩ := Stretch.exists_cut ha hne
  obtain ⟨c, hc, hslot, -⟩ := hshows.split_eq hk hcut ha
  have hdivided := hshows.divided hk hcut ha hc
  refine ⟨c, hc, by rw [hslot, hshows.size_eq], ⟨_, _, _, hdivided⟩, ?_⟩
  rw [split, hdivided.entry]

/-- The second cut falls into the tail that the first one left. -/
theorem split_divides_sample :
    Fits Sample.row.decode Sample.image.size ∧ Sample.image.size < Address.count ∧
      ∃ (m : CodeMap) (cuts : Set Nat) (c : Split), Built Sample.row m cuts ∧
        m.lookup 2 = .interior 1 ∧ m.split 2 = .ok c ∧
        ∃ whole head tail, m.Divided 2 1 whole head tail c.map := by
  obtain ⟨m, cuts, hbuilt, hinside⟩ := Sample.exists_row_built
  have hfit : Sample.image.size < Address.count := by decide
  obtain ⟨c, hc, -, hdivided, -⟩ := split_divides Sample.row_fits hfit hbuilt hinside
  exact ⟨Sample.row_fits, hfit, m, cuts, c, hbuilt, hinside, hc, hdivided⟩

end CodeMap

end CodeLift
