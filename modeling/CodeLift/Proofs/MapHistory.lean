import CodeLift.Proofs.Lifting
import Mathlib.Order.Interval.Set.Basic

/-!
# Code maps after any history

A code map can come about in many ways: blocks are recorded where nothing is known yet, and in
between any address is made a block entry. `CodeMap.Built` follows such a history and keeps the slots
that cuts have filled. Whatever the history, the four parts of the map agree with each other, and the
next step never faults.

`CodeMap.Shows` leaves one thing open, whether the entry of a block without instructions has an
owner. It has one just if the block came about by a cut, which is why the history keeps count.
-/

namespace CodeLift

namespace CodeMap

/-- The map `m` has come about by recording and cutting blocks, of which the slots `cuts` were
filled by cuts. -/
inductive Built (s : Scanner) : CodeMap → Set Nat → Prop where
  /-- Nothing is known. -/
  | empty : Built s {} ∅
  /-- A block is scanned from an unknown address, and recorded. -/
  | commit {m m' : CodeMap} {cuts : Set Nat} {a : Address} {r : Run} (h : Built s m cuts)
      (hu : m.lookup a = .unknown) (hr : s.run m.isBoundary a = .ok r)
      (hm : m.commit (r.block a) (r.exits s.policy) = .ok m') : Built s m' cuts
  /-- An address is made a block entry, whatever lies there. -/
  | split {m : CodeMap} {cuts : Set Nat} {b : Address} {c : Split} (h : Built s m cuts)
      (hc : m.split b = .ok c) :
      Built s c.map (cuts ∪ Set.Ico m.blocks.size c.map.blocks.size)

/-- The parts of a map agree. -/
structure Coherent (m : CodeMap) (cuts : Set Nat) : Prop where
  /-- The entries and the slots belong to each other. -/
  entries : ∀ (a : Address) (k : Nat),
    m.entries[a]? = some k ↔ ∃ b : Block, m.blocks[k]? = some b ∧ b.entry = a
  /-- A slot owns the instructions of its block, and the point where decoding failed if there is an
  instruction before it or the block came about by a cut. -/
  owners : ∀ (a : Address) (k : Nat),
    m.owners[a]? = some k ↔ ∃ b : Block, m.blocks[k]? = some b ∧
      ((∃ r ∈ b.insns, r.addr = a) ∨
        b.isUnreachable = true ∧ a = b.stop ∧ (b.insns ≠ [] ∨ k ∈ cuts))
  /-- No instruction is in two blocks, or twice in one. -/
  once : (m.blocks.toList.flatMap fun b => b.insns.map (·.addr)).Nodup
  /-- Every exit leaves the last instruction of the block that owns it. -/
  pending : ∀ x ∈ m.pending, ∃ k b, m.owners[x.source]? = some k ∧ m.blocks[k]? = some b ∧
    b.lastInsn? = some x.source

section

variable {decode : Address → Except Fault Decoded} {policy : ReturnPolicy} {m : CodeMap}
  {ts : List (Stretch decode)} {t u head tail : Stretch decode} {cuts : Set Nat} {a : Address}
  {k : Nat}

/-- The map shows the stretches, and a mere failure has an owner just if it came about by a cut. -/
structure Tracks (m : CodeMap) (policy : ReturnPolicy) (ts : List (Stretch decode))
    (cuts : Set Nat) : Prop extends m.Shows policy ts where
  /-- A mere failure owns its address just if its slot was filled by a cut. -/
  bare : ∀ {k : Nat} {t : Stretch decode}, ts[k]? = some t → t.insns = [] →
    (m.owners[t.entry]? = some k ↔ k ∈ cuts)
  /-- Only slots that there are were filled by cuts. -/
  cuts_lt : ∀ {k : Nat}, k ∈ cuts → k < ts.length

theorem tracks_empty : ({} : CodeMap).Tracks policy ([] : List (Stretch decode)) ∅ :=
  ⟨shows_empty, by simp, by simp⟩

namespace Tracks

theorem commit {m' : CodeMap} (h : m.Tracks policy ts cuts) (hnew : ∀ a ∈ t.held, ¬ Known ts a)
    (hm : m.commit t.block (t.exits policy) = .ok m') : m'.Tracks policy (ts ++ [t]) cuts := by
  have hentry : ¬ Begins ts t.entry := fun hb => hnew _ t.entry_mem_held hb.known
  have howners := h.getElem?_owners_of_commit hentry hm
  obtain ⟨m₁, hm₁, hshows⟩ := h.toShows.commit hnew
  cases hm.symm.trans hm₁
  refine ⟨hshows, ?_, ?_⟩
  · -- bare
    intro k u hu hi
    rw [howners]
    rcases Shows.getElem?_concat hu with hu | ⟨rfl, rfl⟩
    · have hut : u.entry ∉ t.held := fun ht =>
        hnew _ ht ⟨u, List.mem_of_getElem? hu, u.entry_mem_held⟩
      rw [if_neg fun hc => hut hc.2]
      exact h.bare hu hi
    · -- the new slot was not filled by a cut, and owns nothing
      rw [if_neg fun hc => hc.1 hi]
      constructor
      · intro ho
        obtain ⟨v, hv, hmem⟩ := h.owner ho
        exact absurd ⟨v, List.mem_of_getElem? hv, hmem⟩ (hnew _ u.entry_mem_held)
      · intro hc
        exact absurd (h.cuts_lt hc) (Nat.lt_irrefl _)
  · intro k hk
    have := h.cuts_lt hk
    rw [List.length_append]
    omega

/-- Cutting a stretch fills one slot. -/
theorem cut {c : Split} (h : m.Tracks policy ts cuts) (hk : ts[k]? = some t)
    (hc : t.Cut a head tail) (ha : a ∈ t.held) (hs : m.split a = .ok c) :
    c.map.Tracks policy (ts.set k head ++ [tail])
      (cuts ∪ Set.Ico m.blocks.size c.map.blocks.size) := by
  have hshows := h.shows_cut hk hc ha hs
  obtain ⟨c', hc', -, -, -, howners, -⟩ := h.split_eq hk hc ha
  cases hs.symm.trans hc'
  have hlt := (List.getElem?_eq_some_iff.1 hk).1
  have hnew : ∀ j, j ∈ Set.Ico m.blocks.size c.map.blocks.size ↔ j = ts.length := by
    intro j
    rw [Set.mem_Ico, h.size_eq, hshows.size_eq, List.length_append, List.length_set, List.length_singleton]
    omega
  refine ⟨hshows, ?_, ?_⟩
  · -- bare
    intro j u hu hi
    rw [howners, getElem?_own, Set.mem_union, hnew]
    rcases (Shows.getElem?_set_append hlt).1 hu with ⟨rfl, rfl⟩ | ⟨rfl, rfl⟩ | ⟨hjk, hu⟩
    · exact absurd hi hc.head_insns_ne_nil
    · simp [u.entry_mem_held]
    · have hut : u.entry ∉ tail.held := by
        intro htail
        have hmem : u.entry ∈ t.held := by
          rw [hc.held_eq]
          exact List.mem_append_right _ htail
        exact hjk (h.apart.slot_unique hu hk u.entry_mem_held hmem)
      have hj : j ≠ ts.length := Nat.ne_of_lt (List.getElem?_eq_some_iff.1 hu).1
      rw [if_neg hut, h.bare hu hi]
      simp [hj]
  · intro j hj
    rw [List.length_append, List.length_set, List.length_singleton]
    rcases hj with hj | hj
    · have := h.cuts_lt hj
      omega
    · have := (hnew j).1 hj
      omega

/-- Any address can be made a block entry. -/
theorem split (h : m.Tracks policy ts cuts) (a : Address) :
    ∃ c, m.split a = .ok c ∧ ∃ ts' : List (Stretch decode), c.map.Tracks policy ts'
      (cuts ∪ Set.Ico m.blocks.size c.map.blocks.size) := by
  have hsame : cuts ∪ Set.Ico m.blocks.size m.blocks.size = cuts := by
    rw [Set.Ico_self, Set.union_empty]
  rcases slot_cases ts a with ⟨k, t, hk, rfl⟩ | ⟨k, t, hk, ha, hne⟩ | hu
  · refine ⟨{ map := m, slot := some k }, ?_, ts, hsame.symm ▸ h⟩
    rw [CodeMap.split, h.lookup_entry hk]
  · obtain ⟨head, tail, hc⟩ := Stretch.exists_cut ha hne
    obtain ⟨c, hs, -⟩ := h.split_eq hk hc ha
    exact ⟨c, hs, _, h.cut hk hc ha hs⟩
  · refine ⟨{ map := m, slot := none }, ?_, ts, hsame.symm ▸ h⟩
    rw [CodeMap.split, h.lookup_unknown hu]

theorem owners_iff (h : m.Tracks policy ts cuts) :
    m.owners[a]? = some k ↔ ∃ b : Block, m.blocks[k]? = some b ∧
      ((∃ r ∈ b.insns, r.addr = a) ∨
        b.isUnreachable = true ∧ a = b.stop ∧ (b.insns ≠ [] ∨ k ∈ cuts)) := by
  constructor
  · intro ho
    obtain ⟨t, hk, ha⟩ := h.owner ho
    refine ⟨t.block, by rw [h.getElem?_blocks, hk]; rfl, ?_⟩
    rcases Stretch.mem_held.1 ha with hi | ⟨hf, rfl⟩
    · exact .inl (Stretch.exists_record_iff.2 hi)
    · refine .inr ⟨t.block_isUnreachable.trans hf, rfl, ?_⟩
      by_cases hi : t.insns = []
      · rw [← t.entry_eq_stop hi] at ho
        exact .inr ((h.bare hk hi).1 ho)
      · exact .inl (mt Stretch.block_insns_eq_nil.1 hi)
  · rintro ⟨b, hb, hcases⟩
    rw [h.getElem?_blocks] at hb
    obtain ⟨t, hk, rfl⟩ := Option.map_eq_some_iff.1 hb
    rw [Stretch.exists_record_iff, t.block_isUnreachable, t.block_stop, Ne,
      Stretch.block_insns_eq_nil] at hcases
    by_cases hi : t.insns = []
    · rcases hcases with ⟨i, hmem, -⟩ | ⟨-, rfl, hc⟩
      · rw [hi] at hmem
        exact absurd hmem List.not_mem_nil
      · rw [← t.entry_eq_stop hi]
        exact (h.bare hk hi).2 (hc.resolve_left fun hn => hn hi)
    · exact h.owned hk hi (Stretch.mem_held.2 (hcases.imp_right fun hc => ⟨hc.1, hc.2.1⟩))

theorem coherent (h : m.Tracks policy ts cuts) : m.Coherent cuts := by
  refine ⟨fun a k => h.charted.entries, fun a k => h.owners_iff, ?_, ?_⟩
  · -- once
    obtain ⟨hnodup, hdisj⟩ := List.nodup_flatMap.1 h.apart
    rw [h.blocks, List.flatMap_map]
    simp only [Stretch.map_addr_block_insns]
    have hsub : ∀ t : Stretch decode, (t.insns.map (·.addr)).Sublist t.held := fun t =>
      List.sublist_append_left _ _
    refine List.nodup_flatMap.2 ⟨fun t ht => (hnodup t ht).sublist (hsub t), hdisj.imp ?_⟩
    intro t u hd a hat hau
    exact hd ((hsub t).subset hat) ((hsub u).subset hau)
  · -- pending
    intro x hx
    obtain ⟨t, ht, hlast⟩ := h.source (List.mem_reverse.2 hx)
    obtain ⟨k, hk⟩ := List.mem_iff_getElem?.1 ht
    have hi : t.insns ≠ [] := by
      rintro hi
      simp [Stretch.last?, hi] at hlast
    refine ⟨k, t.block, h.owned hk hi (Stretch.last_mem_held hlast), ?_, ?_⟩
    · rw [h.getElem?_blocks, hk]
      rfl
    · rw [t.block_lastInsn?, hlast]

end Tracks

end

section

variable {s : Scanner} {size : Nat} {m : CodeMap} {cuts : Set Nat} {a : Address}

/-- From an unknown address a block can be scanned and recorded. -/
theorem Tracks.exists_commit {ts : List (Stretch s.decode)} (hf : Fits s.decode size)
    (hsize : size < Address.count) (h : m.Tracks s.policy ts cuts) (hu : m.lookup a = .unknown) :
    ∃ r m', s.run m.isBoundary a = .ok r ∧ m.commit (r.block a) (r.exits s.policy) = .ok m' ∧
      ∃ ts' : List (Stretch s.decode), m'.Tracks s.policy ts' cuts := by
  obtain ⟨r, t, hr, hreads, rfl, hnew, -, -⟩ :=
    h.toShows.exists_run hf hsize (h.not_known_of_unknown hu)
  obtain ⟨m', hm', -⟩ := h.toShows.commit hnew
  refine ⟨r, m', hr, ?_, ts ++ [t], h.commit hnew hm'⟩
  rw [hreads.block_eq, hreads.exits_eq]
  exact hm'

theorem Built.exists_tracks (hf : Fits s.decode size) (hsize : size < Address.count)
    (h : Built s m cuts) : ∃ ts : List (Stretch s.decode), m.Tracks s.policy ts cuts := by
  induction h with
  | empty => exact ⟨[], tracks_empty⟩
  | commit _ hu hr hm ih =>
    obtain ⟨ts, ht⟩ := ih
    obtain ⟨r, m', hr', hm', ts', ht'⟩ := ht.exists_commit hf hsize hu
    cases hr.symm.trans hr'
    cases hm.symm.trans hm'
    exact ⟨ts', ht'⟩
  | split _ hc ih =>
    obtain ⟨ts, ht⟩ := ih
    obtain ⟨c, hc', ts', ht'⟩ := ht.split _
    cases hc.symm.trans hc'
    exact ⟨ts', ht'⟩

end

end CodeMap

namespace Sample

/-- One step at the start of the image, and nothing that could be decoded after it. -/
def lone : Scanner where
  decode := (Decoder.scripted
    [(0, .ok { addr := 0, size := 1, ops := [{ opcode := "step" }], bytes := [0] })]).decodeOne image
  policy := .always
  limit := 4

theorem lone_fits : Fits lone.decode image.size :=
  (Decoder.scripted_conforms (by decide)).toFits

/-- How many slots there are once its block is recorded, and once that is cut where decoding
failed. -/
def loneSlots : Except Fault (Nat × Nat) := do
  let r ← lone.run ({} : CodeMap).isBoundary 0
  let m ← ({} : CodeMap).commit (r.block 0) (r.exits lone.policy)
  let c ← m.split 1
  return (m.blocks.size, c.map.blocks.size)

/-- Three steps in a row, and nothing that could be decoded after them. -/
def row : Scanner where
  decode := (Decoder.scripted
    [(0, .ok { addr := 0, size := 1, ops := [{ opcode := "step" }], bytes := [0] }),
      (1, .ok { addr := 1, size := 1, ops := [{ opcode := "step" }], bytes := [1] }),
      (2, .ok { addr := 2, size := 1, ops := [{ opcode := "step" }], bytes := [2] })]).decodeOne
    image
  policy := .always
  limit := 4

theorem row_fits : Fits row.decode image.size :=
  (Decoder.scripted_conforms (by decide)).toFits

/-- What is known of `addr` once the block of all three is recorded and cut at the second one. -/
def rowLookup (addr : Address) : Except Fault Lookup := do
  let r ← row.run ({} : CodeMap).isBoundary 0
  let m ← ({} : CodeMap).commit (r.block 0) (r.exits row.policy)
  let c ← m.split 1
  return c.map.lookup addr

/-- The third step then lies inside the block that the cut has made. -/
theorem exists_row_built : ∃ (m : CodeMap) (cuts : Set Nat), CodeMap.Built row m cuts ∧
    m.lookup 2 = .interior 1 := by
  have hlookup : rowLookup 2 = .ok (.interior 1) := by decide +kernel
  obtain ⟨r, hr, h⟩ := bind_eq_ok.1 hlookup
  obtain ⟨m, hm, h⟩ := bind_eq_ok.1 h
  obtain ⟨c, hc, h⟩ := bind_eq_ok.1 h
  exact ⟨c.map, _, .split (.commit .empty (by decide +kernel) hr hm) hc, Except.ok.inj h⟩

end Sample

namespace CodeMap

/-- Whatever the history of a map, its parts agree, and neither recording a block at an unknown
address nor cutting at any address can fault. -/
theorem built_maps_coherent {s : Scanner} {size : Nat} {m : CodeMap} {cuts : Set Nat}
    (hf : Fits s.decode size) (hsize : size < Address.count) (h : Built s m cuts) :
    m.Coherent cuts ∧
      (∀ a, m.lookup a = .unknown → ∃ r m', s.run m.isBoundary a = .ok r ∧
        m.commit (r.block a) (r.exits s.policy) = .ok m') ∧
      ∀ b, ∃ c, m.split b = .ok c := by
  obtain ⟨ts, ht⟩ := h.exists_tracks hf hsize
  refine ⟨ht.coherent, ?_, ?_⟩
  · intro a hu
    obtain ⟨r, m', hr, hm', -⟩ := ht.exists_commit hf hsize hu
    exact ⟨r, m', hr, hm'⟩
  · intro b
    obtain ⟨c, hc, -⟩ := ht.split b
    exact ⟨c, hc⟩

/-- The cut leaves a block without instructions, which owns its entry all the same. -/
theorem built_maps_coherent_sample :
    Fits Sample.lone.decode Sample.image.size ∧ Sample.image.size < Address.count ∧
      ∃ (m : CodeMap) (cuts : Set Nat), Built Sample.lone m cuts ∧ 1 ∈ cuts ∧ m.Coherent cuts := by
  have hslots : Sample.loneSlots = .ok (1, 2) := by decide +kernel
  obtain ⟨r, hr, h⟩ := bind_eq_ok.1 hslots
  obtain ⟨m, hm, h⟩ := bind_eq_ok.1 h
  obtain ⟨c, hc, h⟩ := bind_eq_ok.1 h
  obtain ⟨hbefore, hafter⟩ := Prod.mk.inj (Except.ok.inj h)
  have hbuilt := Built.split (.commit .empty (by decide +kernel) hr hm) hc
  have hone : 1 ∈ Set.Ico m.blocks.size c.map.blocks.size := by
    rw [Set.mem_Ico, hbefore, hafter]
    decide
  have hfit : Sample.image.size < Address.count := by decide
  exact ⟨Sample.lone_fits, hfit, c.map, _, hbuilt, .inr hone,
    (built_maps_coherent Sample.lone_fits hfit hbuilt).1⟩

end CodeMap

end CodeLift
