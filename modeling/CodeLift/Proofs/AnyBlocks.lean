import CodeLift.Proofs.AnyDecoder
import CodeLift.Proofs.Numbering

/-!
# Code maps of any blocks

Here blocks are put together by hand: instructions are added to an empty block, whatever addresses
they give, and the block is recorded with whatever exits. Its first instruction need not lie where
the block begins, and an instruction can be in several blocks.

Cutting such a map never faults. But if a block begins elsewhere than its first instruction and is
cut there, nothing is left before the cut to fall through from. The cut then fails, and yet it takes
all that the block held. In all other cases a cut that fails leaves the map as it is.
-/

namespace CodeLift

/-! ## Blocks put together by hand -/

namespace Block

variable {b : Block} {a entry : Address} {insns : List Insn} {n k : Nat}

/-- The block holds instructions added one by one, and perhaps a mark that decoding failed. -/
inductive Made : Block → Prop where
  | plain {entry : Address} {insns : List Insn} {b : Block}
      (h : insns.foldlM push (.empty entry) = .ok b) : Made b
  | marked {entry : Address} {insns : List Insn} {b : Block}
      (h : insns.foldlM push (.empty entry) = .ok b) (pc : Address) :
      Made (b.pushOp (.unreachable pc))

/-- What adding and cutting keep. -/
structure Filed (b : Block) : Prop extends b.Indexed where
  /-- No operation comes before those of the first record. -/
  first : ∀ r, b.insns.head? = some r → r.firstOp = 0
  /-- A mere failure lies where its block begins. -/
  bare : b.insns = [] → b.isUnreachable = true → b.stop = b.entry
  edges : b.edges = []

theorem eq_of_pushes (h : insns.foldlM push (.empty entry) = .ok b) :
    ∃ stop, (insns = [] → stop = entry) ∧ b = {
      entry, stop
      insns := Record.ofInsns [] 0 insns
      ops := insns.flatMap Insn.lowered } := by
  rw [← pushAll_eq_foldlM] at h
  obtain ⟨ends, hends, h⟩ := bind_eq_ok.1 h
  cases h
  refine ⟨ends.getLast?.getD entry, ?_, ?_⟩
  · rintro rfl
    cases hends
    rfl
  · simp [appendAll, empty]

theorem Made.filed (h : b.Made) : b.Filed := by
  have hshape : ∃ insns mark, b.insns = Record.ofInsns [] 0 insns ∧
      b.ops = insns.flatMap Insn.lowered ++ mark ∧ (insns = [] → b.stop = b.entry) ∧
      b.edges = [] := by
    cases h with
    | plain h =>
      obtain ⟨stop, hstop, rfl⟩ := eq_of_pushes h
      exact ⟨_, [], rfl, (List.append_nil _).symm, hstop, rfl⟩
    | marked h pc =>
      obtain ⟨stop, hstop, rfl⟩ := eq_of_pushes h
      exact ⟨_, [.unreachable pc], rfl, rfl, hstop, rfl⟩
  obtain ⟨insns, mark, hinsns, hops, hstop, hedges⟩ := hshape
  refine ⟨indexed_of_lowered mark hinsns hops, ?_, ?_, hedges⟩
  · intro r hr
    rw [hinsns] at hr
    cases insns with
    | nil => cases hr
    | cons i is =>
      rw [Record.ofInsns_cons] at hr
      cases hr
      rfl
  · intro hnil _
    rw [hinsns, ← List.length_eq_zero_iff, Record.length_ofInsns, List.length_eq_zero_iff] at hnil
    exact hstop hnil

/-! ## Cutting them -/

/-- The block with all that it held taken away, so that it ends at `a`. -/
def emptied (b : Block) (a : Address) : Block := { b with stop := a, insns := [], ops := [] }

theorem Filed.emptied (h : b.Filed) (a : Address) : (b.emptied a).Filed := by
  refine ⟨⟨?_, List.Pairwise.nil⟩, ?_, ?_, h.edges⟩
  · intro r hr
    exact absurd hr List.not_mem_nil
  · intro r hr
    cases hr
  · intro _ hu
    cases hu

/-- The first instruction of the block lies at `a`. -/
def StartsAt (b : Block) (a : Address) : Prop := b.insns.head?.map (·.addr) = some a

/-- What comes of cutting a block. -/
inductive CutResult (b : Block) (a : Address) : Option (Block × Block) → Prop where
  /-- The block holds no instruction at `a`. -/
  | none (h : ¬ b.StartsAt a) : CutResult b a none
  /-- Nothing is left before the cut. -/
  | lost (h : b.StartsAt a) (tail : Block) : CutResult b a (some (b.emptied a, tail))
  /-- Something is left on both sides. -/
  | parts {head tail : Block} {p : Address} (h : ¬ b.StartsAt a) (hlast : head.lastInsn? = some p)
      (hentry : head.entry = b.entry) (hentry' : tail.entry = a) (hhead : head.Filed)
      (htail : tail.Filed) : CutResult b a (some (head, tail))

/-- Where a block can be cut. -/
theorem cutPoint?_cases (b : Block) (a : Address) :
    (b.cutPoint? a = none ∧ ¬ b.StartsAt a) ∨
    (∃ (n : Nat) (r : Record), b.cutPoint? a = some (n, r.firstOp) ∧ b.insns[n]? = some r ∧
      (n = 0 ↔ b.StartsAt a)) ∨
    (b.cutPoint? a = some (b.insns.length, b.ops.length - 1) ∧ b.stop = a ∧
      b.isUnreachable = true ∧ ¬ b.StartsAt a) := by
  unfold cutPoint? StartsAt
  cases hfind : b.insns.findIdx? (·.addr == a) with
  | none =>
    have hnot : ¬ b.insns.head?.map (·.addr) = some a := by
      intro hstart
      obtain ⟨r, hr, hra⟩ := Option.map_eq_some_iff.1 hstart
      have hne := List.findIdx?_eq_none_iff.1 hfind r (List.mem_of_head? hr)
      simp [hra] at hne
    by_cases hmark : b.stop = a ∧ b.isUnreachable = true
    · exact .inr (.inr ⟨by simp [hmark], hmark.1, hmark.2, hnot⟩)
    · exact .inl ⟨by simpa using hmark, hnot⟩
  | some n =>
    obtain ⟨hn, hat, hbefore⟩ := List.findIdx?_eq_some_iff_getElem.1 hfind
    have hr := List.getElem?_eq_getElem hn
    refine .inr (.inl ⟨n, b.insns[n], by simp [hr], hr, ?_⟩)
    rw [List.head?_eq_getElem?]
    constructor
    · rintro rfl
      rw [hr]
      exact congrArg some (beq_iff_eq.1 hat)
    · intro hstart
      -- the search has not passed over the first record
      by_contra hpos
      obtain ⟨r, hr', hra⟩ := Option.map_eq_some_iff.1 hstart
      have hne := hbefore 0 (Nat.pos_of_ne_zero hpos)
      obtain ⟨_, rfl⟩ := List.getElem?_eq_some_iff.1 hr'
      simp [hra] at hne

theorem exists_lastInsn?_head (hne : b.insns.take n ≠ []) (a : Address) (k : Nat) :
    ∃ p, (b.head a n k).lastInsn? = some p := by
  show ∃ p, (b.insns.take n).getLast?.map _ = some p
  rw [List.getLast?_eq_some_getLast hne]
  exact ⟨_, rfl⟩

namespace Filed

theorem head (h : b.Filed) (hd : b.Divides n k) (hne : b.insns.take n ≠ []) (a : Address) :
    (b.head a n k).Filed := by
  refine ⟨h.toIndexed.head hd a, ?_, fun hnil => absurd hnil hne, h.edges⟩
  intro r hr
  refine h.first r ?_
  rw [← List.take_append_drop n b.insns, List.head?_append]
  exact Option.or_eq_some_iff.2 (.inl hr)

theorem tail_record (h : b.Filed) {r : Record} (hr : b.insns[n]? = some r) (a : Address) :
    (b.tail a n r.firstOp).Filed := by
  have hfirst : (b.tail a n r.firstOp).insns.head? = some (r.rebase r.firstOp) := by
    show ((b.insns.drop n).map (·.rebase r.firstOp)).head? = _
    rw [List.head?_map, List.head?_drop, hr]
    rfl
  refine ⟨h.toIndexed.tail (h.divides_of_record hr) a, ?_, ?_, rfl⟩
  · intro s hs
    cases hfirst.symm.trans hs
    exact Nat.sub_self _
  · intro hnil
    rw [hnil] at hfirst
    cases hfirst

theorem tail_mark (h : b.Filed) (hu : b.isUnreachable = true) :
    (b.tail b.stop b.insns.length (b.ops.length - 1)).Filed := by
  have hnil : (b.tail b.stop b.insns.length (b.ops.length - 1)).insns = [] := by
    show (b.insns.drop b.insns.length).map _ = []
    rw [List.drop_length]
    rfl
  refine ⟨h.toIndexed.tail (h.divides_of_isUnreachable hu) _, ?_, fun _ _ => rfl, rfl⟩
  intro r hr
  rw [hnil] at hr
  cases hr

/-- A block can be cut everywhere but at its entry, where a mere failure would be torn off. -/
theorem cutResult (h : b.Filed) (ha : a ≠ b.entry) :
    ∃ parts, b.cut? a = .ok parts ∧ b.CutResult a parts := by
  rcases b.cutPoint?_cases a with ⟨hc, hnot⟩ | ⟨n, r, hc, hr, hzero⟩ | ⟨hc, rfl, hu, hnot⟩
  · exact ⟨none, by simp only [cut?, hc], .none hnot⟩
  · refine ⟨_, h.toIndexed.cut?_of_cutPoint? hc, ?_⟩
    cases n with
    | zero =>
      have hfirst : r.firstOp = 0 := h.first r (by rw [List.head?_eq_getElem?, hr])
      have hhead : b.head a 0 r.firstOp = b.emptied a := by
        rw [hfirst]
        rfl
      rw [hhead]
      exact .lost (hzero.1 rfl) _
    | succ n =>
      have hne : b.insns.take (n + 1) ≠ [] := by
        intro hnil
        rcases List.take_eq_nil_iff.1 hnil with hn | hnil
        · cases hn
        · rw [hnil] at hr
          cases hr
      obtain ⟨p, hp⟩ := exists_lastInsn?_head hne a r.firstOp
      have hd := h.divides_of_record hr
      exact .parts (fun hs => Nat.succ_ne_zero n (hzero.2 hs)) hp rfl rfl (h.head hd hne a)
        (h.tail_record hr a)
  · refine ⟨_, h.toIndexed.cut?_of_cutPoint? hc, ?_⟩
    have hne : b.insns.take b.insns.length ≠ [] := by
      rw [List.take_length]
      exact fun hnil => ha (h.bare hnil hu)
    obtain ⟨p, hp⟩ := exists_lastInsn?_head hne b.stop (b.ops.length - 1)
    have hd := h.divides_of_isUnreachable hu
    exact .parts hnot hp rfl rfl (h.head hd hne b.stop) (h.tail_mark hu)

end Filed

end Block

/-! ## Maps of such blocks -/

namespace CodeMap

variable {m m' : CodeMap} {a : Address} {b head tail : Block} {k : Nat} {c : Split}
  {exits : List Exit}

/-- The map has come about by recording such blocks, each at an entry that is free, and by making
addresses entries. -/
inductive Assembled : CodeMap → Prop where
  | empty : Assembled {}
  | commit {m m' : CodeMap} {b : Block} {exits : List Exit} (h : Assembled m) (hb : b.Made)
      (hm : m.commit b exits = .ok m') : Assembled m'
  | split {m : CodeMap} {a : Address} {c : Split} (h : Assembled m) (hc : m.split a = .ok c) :
      Assembled c.map

/-- What recording and cutting keep. -/
structure Filed (m : CodeMap) : Prop extends m.Charted where
  blocks : ∀ b ∈ m.blocks, b.Filed

/-- The block in slot `k` begins elsewhere, but its first instruction lies at `a`. -/
structure Displaced (m : CodeMap) (a : Address) (k : Nat) (b : Block) : Prop where
  inside : m.lookup a = .interior k
  block : m.blocks[k]? = some b
  first : b.StartsAt a

/-- What comes of making `a` an entry. -/
inductive SplitResult (m : CodeMap) (a : Address) : Split → Prop where
  /-- A block begins there already. -/
  | found {k : Nat} (h : m.lookup a = .entry k) : SplitResult m a { map := m, slot := some k }
  /-- No block can be cut there. -/
  | none (h : ∀ k b, ¬ m.Displaced a k b) : SplitResult m a { map := m, slot := none }
  /-- The block there loses all that it held. -/
  | lost {k : Nat} {b : Block} (h : m.Displaced a k b) :
      SplitResult m a {
        map := { m with blocks := m.blocks.setIfInBounds k (b.emptied a) }
        slot := none }
  /-- The block there is divided. -/
  | divided {k : Nat} {b head tail : Block} {p : Address} (hl : m.lookup a = .interior k)
      (hb : m.blocks[k]? = some b) (h : ¬ b.StartsAt a) (hlast : head.lastInsn? = some p)
      (hentry : head.entry = b.entry) (hentry' : tail.entry = a) (hhead : head.Filed)
      (htail : tail.Filed) : SplitResult m a (m.divide k head tail)

namespace Charted

/-- A block can be put in the place of another one that begins at the same address. -/
theorem set (h : m.Charted) (hb : m.blocks[k]? = some b) (he : head.entry = b.entry) :
    Charted { m with blocks := m.blocks.setIfInBounds k head } := by
  refine ⟨?_, ?_⟩
  · intro a j
    rw [h.entries, Array.getElem?_setIfInBounds]
    split
    · next hkj =>
      subst hkj
      rw [if_pos (Array.getElem?_eq_some_iff.1 hb).1]
      simp [hb, he]
    · rfl
  · intro a j hj
    rw [Array.size_setIfInBounds]
    exact h.owners hj

/-- A block can be added in the next slot, and be given any addresses. -/
theorem push (h : m.Charted) (hb : b.entry ∉ m.entries) (addrs : List Address)
    (pending : List Exit) :
    Charted {
      blocks := m.blocks.push b
      entries := m.entries.insert b.entry m.blocks.size
      owners := own m.owners m.blocks.size addrs
      pending } := by
  refine ⟨?_, ?_⟩
  · have hentries : ∀ {a : Address} {k : Nat},
        m.entries[a]? = some k ↔ (m.blocks.toList.map (·.entry))[k]? = some a := by
      intro a k
      rw [h.entries, List.getElem?_map, Option.map_eq_some_iff, Array.getElem?_toList]
    have hfree : b.entry ∉ m.blocks.toList.map (·.entry) := by
      intro hmem
      obtain ⟨k, hk⟩ := List.mem_iff_getElem?.1 hmem
      refine hb (Std.TreeMap.isSome_getElem?_iff_mem.1 ?_)
      rw [hentries.2 hk]
      rfl
    intro a k
    have hinsert := getElem?_insert_entry (a := a) (k := k) hentries hfree
    rw [List.length_map, Array.length_toList, ← List.map_singleton, ← List.map_append,
      ← Array.toList_push, List.getElem?_map, Option.map_eq_some_iff, Array.getElem?_toList]
      at hinsert
    exact hinsert
  · intro a k hk
    rw [Array.size_push]
    rw [getElem?_own] at hk
    split at hk
    · cases hk
      exact Nat.lt_succ_self _
    · exact Nat.lt_succ_of_lt (h.owners hk)

end Charted

theorem filed_empty : ({} : CodeMap).Filed := by
  refine ⟨⟨?_, ?_⟩, ?_⟩
  · intro a k
    simp
  · intro a k hk
    simp at hk
  · intro b hb
    exact absurd hb (Array.not_mem_empty b)

namespace Filed

theorem set (h : m.Filed) (hb : m.blocks[k]? = some b) (he : head.entry = b.entry)
    (hhead : head.Filed) : Filed { m with blocks := m.blocks.setIfInBounds k head } := by
  refine ⟨h.toCharted.set hb he, ?_⟩
  intro c hc
  rcases Array.mem_or_eq_of_mem_setIfInBounds hc with hc | rfl
  · exact h.blocks c hc
  · exact hhead

theorem push (h : m.Filed) (hb : b.Filed) (hfree : b.entry ∉ m.entries) (addrs : List Address)
    (pending : List Exit) :
    Filed {
      blocks := m.blocks.push b
      entries := m.entries.insert b.entry m.blocks.size
      owners := own m.owners m.blocks.size addrs
      pending } := by
  refine ⟨h.toCharted.push hfree addrs pending, ?_⟩
  intro c hc
  rcases Array.mem_push.1 hc with hc | rfl
  · exact h.blocks c hc
  · exact hb

theorem commit (h : m.Filed) (hb : b.Filed) (hm : m.commit b exits = .ok m') : m'.Filed := by
  unfold CodeMap.commit at hm
  split at hm
  · cases hm
  · next hfree =>
    cases hm
    exact h.push hb (fun he => hfree (Std.TreeMap.mem_iff_contains.1 he)) _ _

/-- Every cut has one of these results. -/
theorem splitResult (h : m.Filed) (a : Address) : ∃ c, m.split a = .ok c ∧ m.SplitResult a c := by
  unfold CodeMap.split
  cases hl : m.lookup a with
  | entry k => exact ⟨_, rfl, .found hl⟩
  | unknown =>
    refine ⟨_, rfl, .none ?_⟩
    intro k b hd
    cases hl.symm.trans hd.inside
  | interior k =>
    obtain ⟨hentry, howner⟩ := lookup_eq_interior_iff.1 hl
    obtain ⟨b, hb⟩ : ∃ b, m.blocks[k]? = some b :=
      ⟨_, Array.getElem?_eq_getElem (h.owners howner)⟩
    have hblock : m.blockIn k = .ok b := by rw [blockIn, hb]
    have hne : a ≠ b.entry := by
      rintro rfl
      cases hentry.symm.trans (h.entries.2 ⟨b, hb, rfl⟩)
    obtain ⟨parts, hparts, hresult⟩ := (h.blocks b (Array.mem_of_getElem? hb)).cutResult hne
    simp only [hblock, hparts, bind, Except.bind]
    cases hresult with
    | none hnot =>
      refine ⟨_, rfl, .none ?_⟩
      intro j c hd
      cases hl.symm.trans hd.inside
      cases hb.symm.trans hd.block
      exact hnot hd.first
    | lost hfirst tail => exact ⟨_, rfl, .lost ⟨hl, hb, hfirst⟩⟩
    | parts hnot hlast hentry hentry' hhead htail =>
      exact ⟨_, rfl, .divided hl hb hnot hlast hentry hentry' hhead htail⟩

theorem of_splitResult (h : m.Filed) (hr : m.SplitResult a c) : c.map.Filed := by
  cases hr with
  | found => exact h
  | none => exact h
  | lost hd => exact h.set hd.block rfl ((h.blocks _ (Array.mem_of_getElem? hd.block)).emptied a)
  | @divided k b head tail p hl hb hnot hlast hentry hentry' hhead htail =>
    have hfree : tail.entry ∉ m.entries := by
      rw [hentry', ← Std.TreeMap.isSome_getElem?_iff_mem, (lookup_eq_interior_iff.1 hl).1]
      exact Bool.false_ne_true
    -- once the head is in its place, the tail is a block like any other
    have hset := h.set hb hentry hhead
    have hpush := hset.push htail hfree
    simp only [Array.size_setIfInBounds] at hpush
    simp only [divide, hlast]
    exact hpush _ _

end Filed

theorem Assembled.filed (h : m.Assembled) : m.Filed := by
  induction h with
  | empty => exact filed_empty
  | commit _ hb hm ih => exact ih.commit hb.filed hm
  | split _ hc ih =>
    obtain ⟨c, hc', hresult⟩ := ih.splitResult _
    cases hc.symm.trans hc'
    exact ih.of_splitResult hresult

/-! ## Cuts that fail -/

theorem Displaced.blocks_ne (h : m.Displaced a k b) :
    m.blocks.setIfInBounds k (b.emptied a) ≠ m.blocks := by
  intro he
  have hk := (Array.getElem?_eq_some_iff.1 h.block).1
  have hb : (m.blocks.setIfInBounds k (b.emptied a))[k]? = some b := by rw [he, h.block]
  rw [Array.getElem?_setIfInBounds_self_of_lt hk] at hb
  have hfirst := h.first
  rw [Block.StartsAt, ← Option.some.inj hb] at hfirst
  cases hfirst

namespace Filed

/-- There is nothing to fall through from, and the block is emptied. -/
theorem split_displaced (h : m.Filed) (hd : m.Displaced a k b) :
    m.split a = .ok {
      map := { m with blocks := m.blocks.setIfInBounds k (b.emptied a) }
      slot := none } := by
  obtain ⟨c, hc, hresult⟩ := h.splitResult a
  rw [hc]
  cases hresult with
  | found hl => cases hl.symm.trans hd.inside
  | none hnot => exact absurd hd (hnot k b)
  | lost hd' =>
    cases hd'.inside.symm.trans hd.inside
    cases hd'.block.symm.trans hd.block
    rfl
  | divided hl hb hnot =>
    cases hl.symm.trans hd.inside
    cases hb.symm.trans hd.block
    exact absurd hd.first hnot

theorem split_keeps (h : m.Filed) (hnot : ∀ k b, ¬ m.Displaced a k b) :
    ∃ c, m.split a = .ok c ∧ (c.slot = none → c.map = m) := by
  obtain ⟨c, hc, hresult⟩ := h.splitResult a
  refine ⟨c, hc, ?_⟩
  intro hslot
  cases hresult with
  | found => rfl
  | none => rfl
  | lost hd => exact absurd hd (hnot _ _)
  | divided _ _ _ hlast =>
    simp only [divide, hlast] at hslot
    cases hslot

end Filed

end CodeMap

namespace Sample

/-- A block that begins before its only instruction. -/
def stray : Block where
  entry := 5
  stop := 10
  insns := [{ addr := 9, size := 1, bytes := [0], text := none, firstOp := 0 }]
  ops := [.insnStart 9 1, .micro "step" [] ⟨9, 0⟩]

theorem stray_made : stray.Made := by
  have hpush : [{ addr := 9, size := 1, ops := [{ opcode := "step" }], bytes := [0] }].foldlM
      Block.push (.empty 5) = .ok stray := by decide
  exact .plain hpush

/-- The map that holds nothing else. -/
def strays : CodeMap where
  blocks := #[stray]
  entries := ({} : Std.TreeMap Address Nat).insert 5 0
  owners := ({} : Std.TreeMap Address Nat).insert 9 0

theorem strays_assembled : strays.Assembled := by
  have hm : ({} : CodeMap).commit stray [] = .ok strays := by
    rw [CodeMap.commit, if_neg (by simp)]
    rfl
  exact .commit .empty stray_made hm

theorem strays_displaced : strays.Displaced 9 0 stray := by
  refine ⟨?_, rfl, rfl⟩
  decide +kernel

end Sample

namespace CodeMap

/-- A cut that fails leaves the map as it is, but for one case: the block that holds the address has
its first instruction there and begins elsewhere. Then the block is emptied. -/
theorem failed_split_keeps_iff {m : CodeMap} (h : m.Assembled) (a : Address) :
    ∃ c, m.split a = .ok c ∧
      ((c.slot = none → c.map = m) ↔ ∀ k b, ¬ m.Displaced a k b) ∧
      ∀ k b, m.Displaced a k b → c.slot = none ∧
        c.map = { m with blocks := m.blocks.setIfInBounds k (b.emptied a) } := by
  by_cases hd : ∃ k b, m.Displaced a k b
  · obtain ⟨k, b, hd⟩ := hd
    refine ⟨_, h.filed.split_displaced hd, ⟨?_, ?_⟩, ?_⟩
    · intro hkeeps
      exact absurd (congrArg CodeMap.blocks (hkeeps rfl)) hd.blocks_ne
    · intro hnot
      exact absurd hd (hnot k b)
    · intro j d hd'
      cases hd.inside.symm.trans hd'.inside
      cases hd.block.symm.trans hd'.block
      exact ⟨rfl, rfl⟩
  · have hnot : ∀ k b, ¬ m.Displaced a k b := fun k b hd' => hd ⟨k, b, hd'⟩
    obtain ⟨c, hc, hkeeps⟩ := h.filed.split_keeps hnot
    exact ⟨c, hc, ⟨fun _ => hnot, fun _ => hkeeps⟩, fun k b hd' => absurd hd' (hnot k b)⟩

/-- The block loses its only instruction, and no block begins where that was. -/
theorem failed_split_keeps_iff_sample :
    Sample.strays.Assembled ∧ Sample.strays.Displaced 9 0 Sample.stray ∧
      ∃ c, Sample.strays.split 9 = .ok c ∧ c.slot = none ∧
        c.map = { Sample.strays with
          blocks := Sample.strays.blocks.setIfInBounds 0 (Sample.stray.emptied 9) } := by
  obtain ⟨c, hc, -, hlost⟩ := failed_split_keeps_iff Sample.strays_assembled 9
  obtain ⟨hslot, hmap⟩ := hlost 0 _ Sample.strays_displaced
  exact ⟨Sample.strays_assembled, Sample.strays_displaced, c, hc, hslot, hmap⟩

/-- So a cut that fails can change the map. -/
theorem failed_split_changes_map :
    Sample.strays.Assembled ∧
      ∃ c, Sample.strays.split 9 = .ok c ∧ c.slot = none ∧ c.map ≠ Sample.strays := by
  have hsplit := Sample.strays_assembled.filed.split_displaced Sample.strays_displaced
  refine ⟨Sample.strays_assembled, _, hsplit, rfl, ?_⟩
  intro he
  exact Sample.strays_displaced.blocks_ne (congrArg CodeMap.blocks he)

end CodeMap

end CodeLift
