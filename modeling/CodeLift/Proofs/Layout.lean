import CodeLift.Proofs.StretchBlock
import Mathlib.Data.List.Perm.Basic

/-!
# Code maps and the stretches they show

A code map holds the block of one stretch in each slot. Everything else in it is an index into that
list: the slot of every entry, the slot of every address that is held, and the exits of all
stretches, in some order but those of one stretch together. `CodeMap.Shows` says so, and recording a
block and cutting one keep it. Neither can fault.

What the later arguments use of a list of stretches does not depend on the slots: which addresses
are known, where stretches begin, and where their exits lead.
-/

namespace CodeLift

variable {decode : Address → Except Fault Decoded} {policy : ReturnPolicy}

/-! ## Lists of stretches -/

section Lists

variable {ts ts' : List (Stretch decode)} {t u : Stretch decode} {a b : Address} {k j : Nat}

/-- Some stretch holds `a`. -/
def Known (ts : List (Stretch decode)) (a : Address) : Prop := ∃ t ∈ ts, a ∈ t.held

/-- Some stretch begins at `a`. -/
def Begins (ts : List (Stretch decode)) (a : Address) : Prop := ∃ t ∈ ts, t.entry = a

/-- Some stretch has the exit `x`. -/
def Leaves (policy : ReturnPolicy) (ts : List (Stretch decode)) (x : Exit) : Prop :=
  ∃ t ∈ ts, x ∈ t.exits policy

/-- No address is held by two stretches. -/
def Apart (ts : List (Stretch decode)) : Prop := (ts.flatMap Stretch.held).Nodup

theorem Begins.known (h : Begins ts a) : Known ts a := by
  obtain ⟨t, ht, rfl⟩ := h
  exact ⟨t, ht, t.entry_mem_held⟩

theorem known_append : Known (ts ++ [t]) a ↔ Known ts a ∨ a ∈ t.held := by
  simp [Known, or_and_right, exists_or]

theorem begins_append : Begins (ts ++ [t]) a ↔ Begins ts a ∨ t.entry = a := by
  simp [Begins, or_and_right, exists_or]

theorem leaves_append {x : Exit} :
    Leaves policy (ts ++ [t]) x ↔ Leaves policy ts x ∨ x ∈ t.exits policy := by
  simp [Leaves, or_and_right, exists_or]

theorem begins_iff_mem : Begins ts a ↔ a ∈ ts.map Stretch.entry := by
  simp [Begins]

theorem Apart.slot_unique (h : Apart ts) (ht : ts[k]? = some t) (hu : ts[j]? = some u)
    (hat : a ∈ t.held) (hau : a ∈ u.held) : k = j := by
  have hp := (List.nodup_flatMap.1 h).2
  rw [List.pairwise_iff_getElem] at hp
  obtain ⟨hk, rfl⟩ := List.getElem?_eq_some_iff.1 ht
  obtain ⟨hj, rfl⟩ := List.getElem?_eq_some_iff.1 hu
  rcases Nat.lt_trichotomy k j with hlt | heq | hgt
  · exact absurd hau (hp k j hk hj hlt hat)
  · exact heq
  · exact absurd hat (hp j k hj hk hgt hau)

theorem Apart.unique (h : Apart ts) (ht : t ∈ ts) (hu : u ∈ ts) (hat : a ∈ t.held)
    (hau : a ∈ u.held) : t = u := by
  obtain ⟨k, hk⟩ := List.mem_iff_getElem?.1 ht
  obtain ⟨j, hj⟩ := List.mem_iff_getElem?.1 hu
  obtain rfl := h.slot_unique hk hj hat hau
  exact Option.some.inj (hk.symm.trans hj)

theorem Apart.nodup (h : Apart ts) : ts.Nodup := by
  refine (List.nodup_flatMap.1 h).2.imp ?_
  rintro t _ hd rfl
  exact hd t.entry_mem_held t.entry_mem_held

/-- An address begins a stretch, lies inside one, or is not known. -/
theorem slot_cases (ts : List (Stretch decode)) (a : Address) :
    (∃ (k : Nat) (t : Stretch decode), ts[k]? = some t ∧ t.entry = a) ∨
      (∃ (k : Nat) (t : Stretch decode), ts[k]? = some t ∧ a ∈ t.held ∧ a ≠ t.entry) ∨
      ¬ Known ts a := by
  by_cases hk : Known ts a
  · obtain ⟨t, ht, ha⟩ := hk
    obtain ⟨k, hk⟩ := List.mem_iff_getElem?.1 ht
    by_cases he : a = t.entry
    · exact .inl ⟨k, t, hk, he.symm⟩
    · exact .inr (.inl ⟨k, t, hk, ha, he⟩)
  · exact .inr (.inr hk)

/-- The stretches `ts'` are `ts` after the one that holds `a` has been cut there. -/
def CutAt (ts : List (Stretch decode)) (a : Address) (ts' : List (Stretch decode)) : Prop :=
  ∃ t head tail rest, t.Cut a head tail ∧ ts.Perm (t :: rest) ∧ ts'.Perm (head :: tail :: rest)

theorem CutAt.known_iff (h : CutAt ts a ts') : Known ts' b ↔ Known ts b := by
  obtain ⟨t, head, tail, rest, hc, hp, hp'⟩ := h
  simp [Known, hp.mem_iff, hp'.mem_iff, hc.held_eq, or_assoc]

theorem CutAt.begins_iff (h : CutAt ts a ts') : Begins ts' b ↔ b = a ∨ Begins ts b := by
  obtain ⟨t, head, tail, rest, hc, hp, hp'⟩ := h
  simp only [Begins, hp.mem_iff, hp'.mem_iff, List.mem_cons, exists_eq_or_imp, hc.head_entry,
    hc.tail_entry]
  rw [eq_comm (a := a)]
  tauto

/-- Cutting adds one exit, over the cut. -/
theorem CutAt.leaves_iff (h : CutAt ts a ts') (policy : ReturnPolicy) :
    ∃ p, ∀ x, Leaves policy ts' x ↔ x = ⟨p, .fallthrough, some a⟩ ∨ Leaves policy ts x := by
  obtain ⟨t, head, tail, rest, hc, hp, hp'⟩ := h
  obtain ⟨p, -, -, he⟩ := hc.head_exits policy
  refine ⟨p, ?_⟩
  intro x
  simp only [Leaves, hp.mem_iff, hp'.mem_iff, List.mem_cons, exists_eq_or_imp, he, hc.tail_exits,
    List.not_mem_nil, or_false]

/-- Cutting moves failures but keeps them all. -/
theorem CutAt.failures_perm (h : CutAt ts a ts') :
    (ts'.filterMap Stretch.failure).Perm (ts.filterMap Stretch.failure) := by
  obtain ⟨t, head, tail, rest, hc, hp, hp'⟩ := h
  have hcons : (head :: tail :: rest).filterMap Stretch.failure =
      (t :: rest).filterMap Stretch.failure := by
    rw [List.filterMap_cons_none hc.head_failure, List.filterMap_cons, List.filterMap_cons,
      hc.tail_failure]
  exact (hp'.filterMap _).trans (hcons ▸ (hp.filterMap _).symm)

/-- Cutting keeps the addresses that are held. -/
theorem CutAt.held_perm (h : CutAt ts a ts') :
    (ts'.flatMap Stretch.held).Perm (ts.flatMap Stretch.held) := by
  obtain ⟨t, head, tail, rest, hc, hp, hp'⟩ := h
  have hcons : (head :: tail :: rest).flatMap Stretch.held = (t :: rest).flatMap Stretch.held := by
    simp only [List.flatMap_cons, hc.held_eq, List.append_assoc]
  exact (hp'.flatMap_right _).trans (hcons ▸ (hp.flatMap_right _).symm)

/-- An open stretch after a cut ends at the cut, or where an open one did before. -/
theorem CutAt.of_open (h : CutAt ts a ts') (ht : t ∈ ts') (ho : t.Open) :
    t.stop = a ∨ ∃ u ∈ ts, u.Open ∧ u.stop = t.stop := by
  obtain ⟨v, head, tail, rest, hc, hp, hp'⟩ := h
  rw [hp'.mem_iff, List.mem_cons, List.mem_cons] at ht
  rcases ht with rfl | rfl | ht
  · exact .inl hc.head_stop
  · have hv : v ∈ ts := hp.mem_iff.2 List.mem_cons_self
    refine .inr ⟨v, hv, ⟨hc.tail_failure ▸ ho.1, ?_⟩, hc.tail_stop.symm⟩
    intro i hi
    rw [hc.insns, List.mem_append] at hi
    exact hi.elim (hc.head_open.2 i) (ho.2 i)
  · exact .inr ⟨t, hp.mem_iff.2 (List.mem_cons_of_mem _ ht), ho, rfl⟩

/-- Cutting makes no stretch longer. -/
theorem CutAt.exists_length_le (h : CutAt ts a ts') (ht : t ∈ ts') :
    ∃ u ∈ ts, t.insns.length ≤ u.insns.length := by
  obtain ⟨v, head, tail, rest, hc, hp, hp'⟩ := h
  have hv : v ∈ ts := hp.mem_iff.2 List.mem_cons_self
  have hlen : v.insns.length = head.insns.length + tail.insns.length := by
    rw [hc.insns, List.length_append]
  rw [hp'.mem_iff, List.mem_cons, List.mem_cons] at ht
  rcases ht with rfl | rfl | ht
  · exact ⟨v, hv, by omega⟩
  · exact ⟨v, hv, by omega⟩
  · exact ⟨t, hp.mem_iff.2 (List.mem_cons_of_mem _ ht), Nat.le_refl _⟩

end Lists

/-! ## Code maps -/

namespace CodeMap

variable {m : CodeMap} {ts : List (Stretch decode)} {t u : Stretch decode} {a b p : Address}
  {k j : Nat} {x : Exit}

/-- The map `m` shows the stretches `ts`, by slot. -/
structure Shows (m : CodeMap) (policy : ReturnPolicy) (ts : List (Stretch decode)) : Prop where
  /-- Each slot has the block of its stretch. -/
  blocks : m.blocks.toList = ts.map Stretch.block
  /-- The stretches do not overlap. -/
  apart : Apart ts
  /-- The entries lead to the slots of their stretches. -/
  entries : ∀ {a : Address} {k : Nat}, m.entries[a]? = some k ↔ (ts.map Stretch.entry)[k]? = some a
  /-- Only an address that is held has an owner. -/
  owner : ∀ {a : Address} {k : Nat}, m.owners[a]? = some k →
    ∃ t : Stretch decode, ts[k]? = some t ∧ a ∈ t.held
  /-- Every address that is held has an owner, unless it is held by a mere failure. -/
  owned : ∀ {a : Address} {k : Nat} {t : Stretch decode}, ts[k]? = some t → t.insns ≠ [] →
    a ∈ t.held → m.owners[a]? = some k
  /-- The exits of a stretch are those recorded for its last instruction, in their order. -/
  exits : ∀ {t : Stretch decode} {p : Address}, t ∈ ts → t.last? = some p →
    m.exits.filter (·.source == p) = t.exits policy
  /-- Every exit is recorded for the last instruction of a stretch. -/
  source : ∀ {x : Exit}, x ∈ m.exits → ∃ t ∈ ts, t.last? = some x.source

theorem shows_empty : ({} : CodeMap).Shows policy ([] : List (Stretch decode)) := by
  refine ⟨rfl, List.nodup_nil, ?_, ?_, ?_, ?_, ?_⟩ <;> simp [CodeMap.exits]

theorem lookup_eq_interior_iff {m : CodeMap} :
    m.lookup a = .interior k ↔ m.entries[a]? = none ∧ m.owners[a]? = some k := by
  unfold lookup
  cases m.entries[a]? with
  | some j => simp
  | none => cases m.owners[a]? <;> simp

theorem lookup_eq_unknown_iff {m : CodeMap} :
    m.lookup a = .unknown ↔ m.entries[a]? = none ∧ m.owners[a]? = none := by
  unfold lookup
  cases m.entries[a]? with
  | some j => simp
  | none => cases m.owners[a]? <;> simp

theorem getElem?_own (owners : Std.TreeMap Address Nat) (slot : Nat) (addrs : List Address) :
    (own owners slot addrs)[a]? = if a ∈ addrs then some slot else owners[a]? := by
  unfold own
  induction addrs generalizing owners with
  | nil => simp
  | cons b bs ih =>
    simp only [List.foldl_cons, ih, Std.TreeMap.getElem?_insert, Std.LawfulEqOrd.compare_eq_iff_eq]
    by_cases hm : a ∈ bs
    · simp [hm]
    · by_cases hb : b = a
      · simp [hb]
      · simp [hm, hb, Ne.symm hb]

theorem getElem?_insert_entry {entries : Std.TreeMap Address Nat} {addrs : List Address}
    (h : ∀ {a : Address} {k : Nat}, entries[a]? = some k ↔ addrs[k]? = some a) (hb : b ∉ addrs) :
    (entries.insert b addrs.length)[a]? = some k ↔ (addrs ++ [b])[k]? = some a := by
  simp only [Std.TreeMap.getElem?_insert, Std.LawfulEqOrd.compare_eq_iff_eq]
  by_cases hk : k < addrs.length
  · rw [List.getElem?_append_left hk]
    by_cases hba : b = a
    · have hne : addrs[k]? ≠ some a := fun he => hb (hba ▸ List.mem_of_getElem? he)
      simp only [hba, if_true, Option.some.injEq, hne, iff_false]
      omega
    · rw [if_neg hba, h]
  · rw [List.getElem?_append_right (Nat.le_of_not_lt hk)]
    have hnone : entries[a]? ≠ some k := by
      rw [Ne, h, List.getElem?_eq_none (Nat.le_of_not_lt hk)]
      simp
    by_cases hba : b = a
    · simp only [hba, if_true, Option.some.injEq, List.getElem?_singleton]
      split <;> simp <;> omega
    · simp only [hba, if_false, hnone, false_iff, List.getElem?_singleton]
      split <;> simp [hba]

namespace Shows

theorem size_eq (h : m.Shows policy ts) : m.blocks.size = ts.length := by
  rw [← Array.length_toList, h.blocks, List.length_map]

theorem getElem?_blocks (h : m.Shows policy ts) (k : Nat) :
    m.blocks[k]? = ts[k]?.map Stretch.block := by
  rw [← Array.getElem?_toList, h.blocks, List.getElem?_map]

theorem blockIn_eq (h : m.Shows policy ts) (hk : ts[k]? = some t) : m.blockIn k = .ok t.block := by
  rw [blockIn, h.getElem?_blocks, hk]
  rfl

/-- The exits of the map are those of the stretches. -/
theorem mem_exits_iff (h : m.Shows policy ts) : x ∈ m.exits ↔ Leaves policy ts x := by
  constructor
  · intro hx
    obtain ⟨t, ht, hl⟩ := h.source hx
    refine ⟨t, ht, ?_⟩
    rw [← h.exits ht hl, List.mem_filter]
    exact ⟨hx, beq_self_eq_true _⟩
  · rintro ⟨t, ht, hx⟩
    rw [← h.exits ht (Stretch.of_mem_exits hx).1] at hx
    exact (List.mem_filter.1 hx).1

theorem getElem?_entries (h : m.Shows policy ts) (hk : ts[k]? = some t) :
    m.entries[t.entry]? = some k := by
  rw [h.entries, List.getElem?_map, hk]
  rfl

theorem entries_eq_none (h : m.Shows policy ts) (ha : ¬ Begins ts a) : m.entries[a]? = none := by
  cases he : m.entries[a]? with
  | none => rfl
  | some k => exact absurd (begins_iff_mem.2 (List.mem_of_getElem? (h.entries.1 he))) ha

theorem lookup_entry (h : m.Shows policy ts) (hk : ts[k]? = some t) :
    m.lookup t.entry = .entry k := by
  rw [lookup, h.getElem?_entries hk]

theorem lookup_interior (h : m.Shows policy ts) (hk : ts[k]? = some t) (ha : a ∈ t.held)
    (hne : a ≠ t.entry) : m.lookup a = .interior k := by
  have hb : ¬ Begins ts a := by
    rintro ⟨u, hu, rfl⟩
    exact hne (congrArg _ (h.apart.unique hu (List.mem_of_getElem? hk) u.entry_mem_held ha))
  obtain ⟨head, tail, hc⟩ := Stretch.exists_cut ha hne
  have hi : t.insns ≠ [] := by
    rw [hc.insns]
    exact List.append_ne_nil_of_left_ne_nil hc.head_insns_ne_nil _
  rw [lookup, h.entries_eq_none hb, h.owned hk hi ha]

theorem lookup_unknown (h : m.Shows policy ts) (ha : ¬ Known ts a) : m.lookup a = .unknown := by
  have ho : m.owners[a]? = none := by
    cases ho : m.owners[a]? with
    | none => rfl
    | some k =>
      obtain ⟨t, hk, hat⟩ := h.owner ho
      exact absurd ⟨t, List.mem_of_getElem? hk, hat⟩ ha
  rw [lookup, h.entries_eq_none fun hb => ha hb.known, ho]

theorem not_known_of_unknown (h : m.Shows policy ts) (hu : m.lookup a = .unknown) :
    ¬ Known ts a := by
  rcases slot_cases ts a with ⟨k, t, hk, rfl⟩ | ⟨k, t, hk, ha, hne⟩ | hn
  · rw [h.lookup_entry hk] at hu
    cases hu
  · rw [h.lookup_interior hk ha hne] at hu
    cases hu
  · exact hn

theorem exists_of_interior (h : m.Shows policy ts) (hl : m.lookup a = .interior k) :
    ∃ t : Stretch decode, ts[k]? = some t ∧ a ∈ t.held ∧ a ≠ t.entry := by
  rcases slot_cases ts a with ⟨j, t, hj, rfl⟩ | ⟨j, t, hj, ha, hne⟩ | hn
  · rw [h.lookup_entry hj] at hl
    cases hl
  · rw [h.lookup_interior hj ha hne] at hl
    cases hl
    exact ⟨t, hj, ha, hne⟩
  · rw [h.lookup_unknown hn] at hl
    cases hl

/-- The boundaries of a map are the addresses that are held. -/
theorem isBoundary_iff (h : m.Shows policy ts) : m.isBoundary a = true ↔ Known ts a := by
  rw [isBoundary, Std.TreeMap.contains_eq_isSome_getElem?, Std.TreeMap.contains_eq_isSome_getElem?]
  rcases slot_cases ts a with ⟨k, t, hk, rfl⟩ | ⟨k, t, hk, ha, hne⟩ | hu
  · have hkn : Known ts t.entry := ⟨t, List.mem_of_getElem? hk, t.entry_mem_held⟩
    simp [h.getElem?_entries hk, hkn]
  · obtain ⟨-, ho⟩ := lookup_eq_interior_iff.1 (h.lookup_interior hk ha hne)
    have hkn : Known ts a := ⟨t, List.mem_of_getElem? hk, ha⟩
    simp [ho, hkn]
  · obtain ⟨he, ho⟩ := lookup_eq_unknown_iff.1 (h.lookup_unknown hu)
    simp [he, ho, hu]

/-! ### Recording a block -/

/-- The addresses that are given to a slot when the block of a stretch is recorded in it. -/
theorem recorded_eq (t : Stretch decode) :
    (t.block.insns.map (·.addr) ++
      if t.block.isUnreachable && !t.block.insns.isEmpty then [t.block.stop] else []) =
    if t.insns = [] then [] else t.held := by
  by_cases hl : t.insns = []
  · simp [Stretch.map_addr_block_insns, hl]
  · simp [Stretch.held, hl]

theorem getElem?_concat (hu : (ts ++ [t])[k]? = some u) :
    ts[k]? = some u ∨ (k = ts.length ∧ u = t) := by
  by_cases hk : k < ts.length
  · rw [List.getElem?_append_left hk] at hu
    exact .inl hu
  · rw [List.getElem?_append_right (Nat.le_of_not_lt hk), List.getElem?_singleton] at hu
    split at hu
    · cases hu
      exact .inr ⟨by omega, rfl⟩
    · cases hu

theorem filter_append_exits {exits : List Exit} (hp : ∀ x ∈ exits, x.source ≠ p)
    (ht : t.last? = some p) :
    (exits ++ t.exits policy).filter (·.source == p) = t.exits policy := by
  rw [List.filter_append, List.filter_eq_nil_iff.2 fun x hx he => hp x hx (beq_iff_eq.1 he),
    List.nil_append, List.filter_eq_self]
  intro x hx
  have hs := (Stretch.of_mem_exits hx).1
  rw [ht, Option.some.injEq] at hs
  exact beq_iff_eq.2 hs.symm

theorem filter_append_of_ne {exits : List Exit} (ht : t.last? ≠ some p) :
    (exits ++ t.exits policy).filter (·.source == p) = exits.filter (·.source == p) := by
  have hnil : (t.exits policy).filter (·.source == p) = [] := by
    rw [List.filter_eq_nil_iff]
    rintro x hx he
    exact ht (beq_iff_eq.1 he ▸ (Stretch.of_mem_exits hx).1)
  rw [List.filter_append, hnil, List.append_nil]

/-- What recording a new stretch does to the parts of the map. -/
theorem commit_eq (h : m.Shows policy ts) (ht : ¬ Begins ts t.entry) :
    ∃ m', m.commit t.block (t.exits policy) = .ok m' ∧ m'.blocks = m.blocks.push t.block ∧
      m'.entries = m.entries.insert t.entry ts.length ∧
      m'.owners = own m.owners ts.length (if t.insns = [] then [] else t.held) := by
  have hfree : m.entries.contains t.block.entry = false := by
    rw [Std.TreeMap.contains_eq_isSome_getElem?, Stretch.block_entry, h.entries_eq_none ht]
    rfl
  rw [CodeMap.commit, hfree, ← h.size_eq, ← recorded_eq]
  exact ⟨_, rfl, rfl, rfl, rfl⟩

/-- A new stretch is given what it holds, unless it is a mere failure. -/
theorem getElem?_owners_of_commit {m' : CodeMap} (h : m.Shows policy ts) (ht : ¬ Begins ts t.entry)
    (hm : m.commit t.block (t.exits policy) = .ok m') (a : Address) :
    m'.owners[a]? = if t.insns ≠ [] ∧ a ∈ t.held then some ts.length else m.owners[a]? := by
  obtain ⟨m₁, hm₁, -, -, howners⟩ := h.commit_eq ht
  cases hm.symm.trans hm₁
  rw [howners, getElem?_own]
  by_cases hl : t.insns = [] <;> simp [hl]

/-- A stretch through unknown addresses can be recorded. -/
theorem commit (h : m.Shows policy ts) (hnew : ∀ a ∈ t.held, ¬ Known ts a) :
    ∃ m', m.commit t.block (t.exits policy) = .ok m' ∧ m'.Shows policy (ts ++ [t]) := by
  have hentry : ¬ Begins ts t.entry := fun hb => hnew _ t.entry_mem_held hb.known
  obtain ⟨m', hm', hblocks, hentries, -⟩ := h.commit_eq hentry
  have hown := h.getElem?_owners_of_commit hentry hm'
  have hexits := exits_of_commit hm'
  have hlast : ∀ {u : Stretch decode} {p : Address}, u ∈ ts → u.last? = some p → t.last? ≠ some p :=
    fun hu hp ht => hnew _ (Stretch.last_mem_held ht) ⟨_, hu, Stretch.last_mem_held hp⟩
  refine ⟨m', hm', ?_, ?_, ?_, ?_, ?_, ?_, ?_⟩
  · rw [hblocks, Array.toList_push, h.blocks, List.map_append]
    rfl
  · rw [Apart, List.flatMap_append, List.flatMap_singleton, List.nodup_append]
    refine ⟨h.apart, t.held_nodup, ?_⟩
    rintro a ha _ hat rfl
    obtain ⟨u, hu, hau⟩ := List.mem_flatMap.1 ha
    exact hnew a hat ⟨u, hu, hau⟩
  · intro a k
    rw [hentries, List.map_append, ← List.length_map Stretch.entry]
    exact getElem?_insert_entry h.entries (fun hm => hentry (begins_iff_mem.2 hm))
  · -- owner
    intro a k ho
    rw [hown] at ho
    split at ho
    · next hc =>
      cases ho
      exact ⟨t, List.getElem?_concat_length, hc.2⟩
    · obtain ⟨u, hu, hau⟩ := h.owner ho
      refine ⟨u, ?_, hau⟩
      rw [List.getElem?_append_left (List.getElem?_eq_some_iff.1 hu).1, hu]
  · -- owned
    intro a k u hu hi ha
    rw [hown]
    rcases getElem?_concat hu with hu | ⟨rfl, rfl⟩
    · have hat : a ∉ t.held := fun hat => hnew a hat ⟨u, List.mem_of_getElem? hu, ha⟩
      rw [if_neg fun hc => hat hc.2]
      exact h.owned hu hi ha
    · rw [if_pos ⟨hi, ha⟩]
  · -- exits
    intro u p hu hp
    rw [hexits]
    rcases List.mem_append.1 hu with hu | hu
    · rw [filter_append_of_ne (hlast hu hp)]
      exact h.exits hu hp
    · obtain rfl := List.mem_singleton.1 hu
      refine filter_append_exits ?_ hp
      rintro x hx rfl
      obtain ⟨v, hv, hvx⟩ := h.source hx
      exact hlast hv hvx hp
  · -- source
    intro x hx
    rw [hexits, List.mem_append] at hx
    rcases hx with hx | hx
    · obtain ⟨u, hu, hux⟩ := h.source hx
      exact ⟨u, List.mem_append_left _ hu, hux⟩
    · exact ⟨t, by simp, (Stretch.of_mem_exits hx).1⟩

/-! ### Cutting a block -/

/-- What cutting the stretch in a slot does to the parts of the map. -/
theorem split_eq {head tail : Stretch decode} (h : m.Shows policy ts) (hk : ts[k]? = some t)
    (hc : t.Cut a head tail) (ha : a ∈ t.held) :
    ∃ s, m.split a = .ok s ∧ s.slot = some ts.length ∧
      s.map.blocks = (m.blocks.setIfInBounds k head.block).push tail.block ∧
      s.map.entries = m.entries.insert a ts.length ∧
      s.map.owners = own m.owners ts.length tail.held ∧
      s.map.exits = m.exits ++ head.exits policy := by
  obtain ⟨p, hp, -, he⟩ := hc.head_exits policy
  have hheld : (tail.block.insns.map (·.addr) ++
      if tail.block.isUnreachable then [tail.block.stop] else []) = tail.held := by
    simp [Stretch.held]
  have hbind : m.split a = .ok (m.divide k head.block tail.block) := by
    rw [split, h.lookup_interior hk ha hc.ne_entry]
    simp only [h.blockIn_eq hk, hc.cut?_block, bind, Except.bind, pure, Except.pure]
  refine ⟨_, hbind, ?_⟩
  simp only [divide, Stretch.block_lastInsn?, hp, h.size_eq, hheld, he, Stretch.block_entry,
    hc.tail_entry, CodeMap.exits, List.reverse_cons, and_self]

theorem getElem?_set_append {head tail : Stretch decode} (hk : k < ts.length) :
    (ts.set k head ++ [tail])[j]? = some u ↔
      (j = k ∧ u = head) ∨ (j = ts.length ∧ u = tail) ∨ (j ≠ k ∧ ts[j]? = some u) := by
  rw [List.getElem?_append, List.length_set, List.getElem?_set, List.getElem?_singleton]
  by_cases hj : j < ts.length
  · by_cases hkj : k = j
    · simp [hj, hkj]
      grind
    · simp only [hj, hkj, if_true, if_false]
      grind
  · have hnone : ts[j]? = none := List.getElem?_eq_none (Nat.le_of_not_lt hj)
    simp only [hj, if_false, hnone]
    split <;> simp <;> grind

theorem map_entry_set {head tail : Stretch decode} (hk : ts[k]? = some t)
    (hc : t.Cut a head tail) : (ts.set k head).map Stretch.entry = ts.map Stretch.entry := by
  have hget : (ts.map Stretch.entry)[k]? = some t.entry := by
    rw [List.getElem?_map, hk]
    rfl
  obtain ⟨hlt, heq⟩ := List.getElem?_eq_some_iff.1 hget
  rw [List.map_set, hc.head_entry, ← heq, List.set_getElem_self]

/-- Before a cut nothing leaves the instruction in front of it. -/
theorem source_ne_of_cut {head tail : Stretch decode} (h : m.Shows policy ts) (ht : t ∈ ts)
    (hc : t.Cut a head tail) (hp : head.last? = some p) : ∀ x ∈ m.exits, x.source ≠ p := by
  rintro x hx rfl
  have hhead := Stretch.last_mem_held hp
  have hmem : x.source ∈ t.held := by
    rw [hc.held_eq]
    exact List.mem_append_left _ hhead
  obtain ⟨u, hu, hx'⟩ := h.mem_exits_iff.1 hx
  have hlast := (Stretch.of_mem_exits hx').1
  obtain rfl := h.apart.unique hu ht (Stretch.last_mem_held hlast) hmem
  rw [← hc.tail_exits] at hx'
  exact hc.disjoint hhead (Stretch.last_mem_held (Stretch.of_mem_exits hx').1)

/-- After a cut each stretch has its exits, those of the whole being with the second part. -/
theorem filter_exits_cut {head tail : Stretch decode} (h : m.Shows policy ts)
    (hk : ts[k]? = some t) (hc : t.Cut a head tail)
    (hu : (ts.set k head ++ [tail])[j]? = some u) (hp : u.last? = some p) :
    (m.exits ++ head.exits policy).filter (·.source == p) = u.exits policy := by
  have ht := List.mem_of_getElem? hk
  have hlt := (List.getElem?_eq_some_iff.1 hk).1
  rcases (getElem?_set_append hlt).1 hu with ⟨rfl, rfl⟩ | ⟨rfl, rfl⟩ | ⟨hjk, hu⟩
  · exact filter_append_exits (h.source_ne_of_cut ht hc hp) hp
  · have hne : head.last? ≠ some p := fun hl =>
      hc.disjoint (Stretch.last_mem_held hl) (Stretch.last_mem_held hp)
    rw [filter_append_of_ne hne, h.exits ht (hc.last?_eq hp), hc.tail_exits]
  · have hne : head.last? ≠ some p := by
      intro hl
      have hpt : p ∈ t.held := by
        rw [hc.held_eq]
        exact List.mem_append_left _ (Stretch.last_mem_held hl)
      exact hjk (h.apart.slot_unique hu hk (Stretch.last_mem_held hp) hpt)
    rw [filter_append_of_ne hne]
    exact h.exits (List.mem_of_getElem? hu) hp

/-- After a cut the addresses of the second part have a new owner. -/
theorem owner_cut {head tail : Stretch decode} (h : m.Shows policy ts) (hk : ts[k]? = some t)
    (hc : t.Cut a head tail) (ho : (own m.owners ts.length tail.held)[b]? = some j) :
    ∃ u, (ts.set k head ++ [tail])[j]? = some u ∧ b ∈ u.held := by
  have hlt := (List.getElem?_eq_some_iff.1 hk).1
  rw [getElem?_own] at ho
  split at ho
  · next hb =>
    cases ho
    exact ⟨tail, (getElem?_set_append hlt).2 (.inr (.inl ⟨rfl, rfl⟩)), hb⟩
  · next hb =>
    obtain ⟨u, hu, hbu⟩ := h.owner ho
    by_cases hjk : j = k
    · obtain rfl : u = t := Option.some.inj (hu.symm.trans (hjk ▸ hk))
      rw [hc.held_eq, List.mem_append] at hbu
      exact ⟨head, (getElem?_set_append hlt).2 (.inl ⟨hjk, rfl⟩), hbu.resolve_right hb⟩
    · exact ⟨u, (getElem?_set_append hlt).2 (.inr (.inr ⟨hjk, hu⟩)), hbu⟩

theorem owned_cut {head tail : Stretch decode} (h : m.Shows policy ts) (hk : ts[k]? = some t)
    (hc : t.Cut a head tail) (hu : (ts.set k head ++ [tail])[j]? = some u) (hi : u.insns ≠ [])
    (hb : b ∈ u.held) : (own m.owners ts.length tail.held)[b]? = some j := by
  have hlt := (List.getElem?_eq_some_iff.1 hk).1
  rw [getElem?_own]
  rcases (getElem?_set_append hlt).1 hu with ⟨rfl, rfl⟩ | ⟨rfl, rfl⟩ | ⟨hjk, hu⟩
  · rw [if_neg (hc.disjoint hb)]
    refine h.owned hk ?_ (by rw [hc.held_eq]; exact List.mem_append_left _ hb)
    rw [hc.insns]
    exact List.append_ne_nil_of_left_ne_nil hi _
  · rw [if_pos hb]
  · have hbt : b ∉ tail.held := by
      intro hbt
      have hmem : b ∈ t.held := by
        rw [hc.held_eq]
        exact List.mem_append_right _ hbt
      exact hjk (h.apart.slot_unique hu hk hb hmem)
    rw [if_neg hbt]
    exact h.owned hu hi hb

/-- After a cut the parts stand in the slot of the whole and in the next one. -/
theorem cutAt_set {head tail : Stretch decode} (hk : ts[k]? = some t) (hc : t.Cut a head tail) :
    CutAt ts a (ts.set k head ++ [tail]) := by
  obtain ⟨hlt, hget⟩ := List.getElem?_eq_some_iff.1 hk
  have hperm : ts.Perm (t :: ts.eraseIdx k) := hget ▸ (List.getElem_cons_eraseIdx_perm hlt).symm
  have hperm' : (ts.set k head ++ [tail]).Perm (head :: tail :: ts.eraseIdx k) :=
    ((List.perm_append_singleton tail _).trans
      ((List.set_perm_cons_eraseIdx hlt head).cons tail)).trans (.swap ..)
  exact ⟨t, head, tail, _, hc, hperm, hperm'⟩

/-- What the map shows after a cut. -/
theorem shows_cut {head tail : Stretch decode} {s : Split} (h : m.Shows policy ts)
    (hk : ts[k]? = some t) (hc : t.Cut a head tail) (ha : a ∈ t.held) (hs : m.split a = .ok s) :
    s.map.Shows policy (ts.set k head ++ [tail]) := by
  obtain ⟨s', hs', -, hblocks, hentries, howners, hexits⟩ := h.split_eq hk hc ha
  cases hs.symm.trans hs'
  have ht := List.mem_of_getElem? hk
  have hcut := cutAt_set hk hc
  refine ⟨?_, ?_, ?_, ?_, ?_, ?_, ?_⟩
  · rw [hblocks, Array.toList_push, Array.toList_setIfInBounds, h.blocks, List.map_append,
      List.map_set]
    rfl
  · exact hcut.held_perm.nodup_iff.2 h.apart
  · -- entries
    intro b j
    have hfree : a ∉ ts.map Stretch.entry := by
      rw [← begins_iff_mem]
      rintro ⟨u, hu, rfl⟩
      exact hc.ne_entry (congrArg _ (h.apart.unique hu ht u.entry_mem_held ha))
    rw [hentries, List.map_append, map_entry_set hk hc, ← List.length_map Stretch.entry,
      List.map_singleton, hc.tail_entry]
    exact getElem?_insert_entry h.entries hfree
  · -- owner
    intro b j ho
    rw [howners] at ho
    exact h.owner_cut hk hc ho
  · -- owned
    intro b j u hu hi hb
    rw [howners]
    exact h.owned_cut hk hc hu hi hb
  · -- exits
    intro u p hu hp
    obtain ⟨j, hj⟩ := List.mem_iff_getElem?.1 hu
    rw [hexits]
    exact h.filter_exits_cut hk hc hj hp
  · -- source
    intro x hx
    rw [hexits, List.mem_append] at hx
    have hleaves : Leaves policy (ts.set k head ++ [tail]) x := by
      rcases hx with hx | hx
      · obtain ⟨p, hp⟩ := hcut.leaves_iff policy
        exact (hp x).2 (.inr (h.mem_exits_iff.1 hx))
      · have hlt := (List.getElem?_eq_some_iff.1 hk).1
        exact ⟨head, List.mem_append_left _ (List.mem_set hlt head), hx⟩
    obtain ⟨u, hu, hx⟩ := hleaves
    exact ⟨u, hu, (Stretch.of_mem_exits hx).1⟩

/-- An address inside a stretch can be made an entry. -/
theorem split (h : m.Shows policy ts) (hk : ts[k]? = some t) (ha : a ∈ t.held)
    (hne : a ≠ t.entry) :
    ∃ s ts', m.split a = .ok s ∧ s.map.Shows policy ts' ∧ CutAt ts a ts' := by
  obtain ⟨head, tail, hc⟩ := Stretch.exists_cut ha hne
  obtain ⟨s, hs, -⟩ := h.split_eq hk hc ha
  exact ⟨s, ts.set k head ++ [tail], hs, h.shows_cut hk hc ha hs, cutAt_set hk hc⟩

end Shows

end CodeMap

end CodeLift
