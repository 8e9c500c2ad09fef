import CodeLift.Proofs.Layout
import CodeLift.Scan

/-!
# Blocks and code maps of any decoder

A decoder may misplace its instructions, let them overlap or lie about their addresses. Blocks then
do not lie in a row, and addresses change their owners. What stays true is what the indices rest on:
every record points at its own operations, later records point further on, and every owner is a slot
of the map. It is enough for recording and cutting never to fault.
-/

namespace CodeLift

/-! ## Blocks -/

/-- The records point at the starts of their instructions, later records further on. -/
structure Block.Indexed (b : Block) : Prop where
  starts : ∀ r ∈ b.insns, b.ops[r.firstOp]? = some (.insnStart r.addr r.size)
  ascending : b.insns.Pairwise fun r s => r.firstOp < s.firstOp

/-- The records of instructions in a row are indexed, whatever follows their operations. -/
theorem Block.indexed_of_lowered {b : Block} {insns : List Insn} (mark : List Op)
    (hinsns : b.insns = Record.ofInsns [] 0 insns)
    (hops : b.ops = insns.flatMap Insn.lowered ++ mark) : b.Indexed := by
  refine ⟨?_, ?_⟩
  · rw [hinsns, hops]
    exact fun r hr => Record.getElem?_firstOp_append hr mark
  · rw [hinsns]
    exact Record.pairwise_firstOp 0 insns

theorem Run.indexed_block (r : Run) (entry : Address) : (r.block entry).Indexed := by
  unfold block
  split
  · exact Block.indexed_of_lowered [.unreachable r.stop] rfl rfl
  · exact Block.indexed_of_lowered [] rfl (List.append_nil _).symm

namespace Block

variable {b : Block} {addr : Address} {n k : Nat}

/-- The first `n` records and the first `k` operations of a block belong together. -/
structure Divides (b : Block) (n k : Nat) : Prop where
  le : k ≤ b.ops.length
  before : ∀ r ∈ b.insns.take n, r.firstOp < k
  after : ∀ r ∈ b.insns.drop n, k ≤ r.firstOp

namespace Indexed

theorem firstOp_lt (h : b.Indexed) {r : Record} (hr : r ∈ b.insns) : r.firstOp < b.ops.length :=
  (List.getElem?_eq_some_iff.1 (h.starts r hr)).1

/-- A record divides its block right before its own operations. -/
theorem divides_of_record (h : b.Indexed) {r : Record} (hr : b.insns[n]? = some r) :
    b.Divides n r.firstOp := by
  obtain ⟨hn, rfl⟩ := List.getElem?_eq_some_iff.1 hr
  have hpair := List.pairwise_iff_getElem.1 h.ascending
  refine ⟨Nat.le_of_lt (h.firstOp_lt (List.getElem_mem hn)), ?_, ?_⟩
  · intro s hs
    obtain ⟨j, hj, rfl⟩ := List.mem_take_iff_getElem.1 hs
    exact hpair j n _ hn (by omega)
  · intro s hs
    obtain ⟨j, hj, rfl⟩ := List.mem_drop_iff_getElem.1 hs
    rcases Nat.eq_zero_or_pos j with rfl | hpos
    · exact Nat.le_refl _
    · exact Nat.le_of_lt (hpair n (n + j) hn (by omega) (by omega))

/-- The mark of a failure is the operation of no record. -/
theorem divides_of_isUnreachable (h : b.Indexed) (hu : b.isUnreachable = true) :
    b.Divides b.insns.length (b.ops.length - 1) := by
  refine ⟨Nat.sub_le _ _, ?_, ?_⟩
  · intro r hr
    have hmem := List.mem_of_mem_take hr
    have hlt := h.firstOp_lt hmem
    have hne : r.firstOp ≠ b.ops.length - 1 := by
      intro he
      have hstart := h.starts r hmem
      rw [he, ← List.getLast?_eq_getElem?] at hstart
      rw [isUnreachable, hstart] at hu
      cases hu
    omega
  · intro r hr
    rw [List.drop_length] at hr
    exact absurd hr List.not_mem_nil

theorem divides_of_cutPoint? (h : b.Indexed) (hc : b.cutPoint? addr = some (n, k)) :
    b.Divides n k := by
  unfold cutPoint? at hc
  split at hc
  · obtain ⟨r, hr, he⟩ := Option.map_eq_some_iff.1 hc
    cases he
    exact h.divides_of_record hr
  · split at hc
    · next hu =>
      cases hc
      exact h.divides_of_isUnreachable (Bool.and_eq_true_iff.1 hu).2
    · cases hc

theorem head (h : b.Indexed) (hd : b.Divides n k) (addr : Address) : (b.head addr n k).Indexed := by
  refine ⟨?_, h.ascending.sublist (List.take_sublist _ _)⟩
  intro r hr
  show (b.ops.take k)[r.firstOp]? = _
  rw [List.getElem?_take_of_lt (hd.before r hr)]
  exact h.starts r (List.mem_of_mem_take hr)

theorem tail (h : b.Indexed) (hd : b.Divides n k) (addr : Address) : (b.tail addr n k).Indexed := by
  refine ⟨?_, ?_⟩
  · intro r hr
    obtain ⟨s, hs, rfl⟩ := List.mem_map.1 hr
    have hle := hd.after s hs
    show (b.ops.drop k)[s.firstOp - k]? = some (.insnStart s.addr s.size)
    rw [List.getElem?_drop, Nat.add_sub_cancel' hle]
    exact h.starts s (List.mem_of_mem_drop hs)
  · show ((b.insns.drop n).map (·.rebase k)).Pairwise _
    rw [List.pairwise_map]
    refine (h.ascending.sublist (List.drop_sublist _ _)).imp_of_mem ?_
    intro r s hr hs hlt
    have hrk := hd.after r hr
    show r.firstOp - k < s.firstOp - k
    omega

theorem cut?_of_cutPoint? (h : b.Indexed) (hc : b.cutPoint? addr = some (n, k)) :
    b.cut? addr = .ok (some (b.head addr n k, b.tail addr n k)) := by
  have hd := h.divides_of_cutPoint? hc
  have hafter : (b.insns.drop n).all (k ≤ ·.firstOp) = true :=
    List.all_eq_true.2 fun r hr => decide_eq_true (hd.after r hr)
  have hguard : (k ≤ b.ops.length && (b.insns.drop n).all (k ≤ ·.firstOp)) = true := by
    rw [hafter, Bool.and_true, decide_eq_true_eq]
    exact hd.le
  simp only [Block.cut?, hc]
  exact if_pos hguard

/-- Cutting never faults, and both parts are indexed again. -/
theorem cut? (h : b.Indexed) (addr : Address) :
    b.cut? addr = .ok none ∨
      ∃ head tail, b.cut? addr = .ok (some (head, tail)) ∧ head.Indexed ∧ tail.Indexed := by
  cases hc : b.cutPoint? addr with
  | none =>
    left
    simp only [Block.cut?, hc]
  | some point =>
    obtain ⟨n, k⟩ := point
    have hd := h.divides_of_cutPoint? hc
    exact .inr ⟨_, _, h.cut?_of_cutPoint? hc, h.head hd addr, h.tail hd addr⟩

end Indexed

end Block

/-! ## Code maps -/

namespace CodeMap

/-- The blocks are indexed, and owners are slots. -/
structure Intact (m : CodeMap) : Prop where
  blocks : ∀ b ∈ m.blocks, b.Indexed
  owners : ∀ {a : Address} {k : Nat}, m.owners[a]? = some k → k < m.blocks.size

variable {m : CodeMap} {b head tail : Block} {addr : Address}

theorem intact_empty : ({} : CodeMap).Intact := by
  refine ⟨?_, ?_⟩
  · intro b hb
    exact absurd hb (Array.not_mem_empty b)
  · intro a k hk
    simp at hk

namespace Intact

/-- A block can be added in a new slot, and be given any addresses. -/
theorem push (h : m.Intact) (hb : b.Indexed) {blocks : Array Block}
    (hblocks : ∀ b ∈ blocks, b.Indexed) (hsize : blocks.size = m.blocks.size)
    (entries : Std.TreeMap Address Nat) (addrs : List Address) (pending : List Exit) :
    Intact {
      blocks := blocks.push b
      entries
      owners := own m.owners m.blocks.size addrs
      pending } := by
  refine ⟨?_, ?_⟩
  · intro c hc
    rcases Array.mem_push.1 hc with hc | rfl
    · exact hblocks c hc
    · exact hb
  · intro a k hk
    simp only [Array.size_push, hsize]
    rw [getElem?_own] at hk
    split at hk
    · cases hk
      exact Nat.lt_succ_self _
    · exact Nat.lt_succ_of_lt (h.owners hk)

/-- An indexed block can be recorded at an entry that is free. -/
theorem commit (h : m.Intact) (hb : b.Indexed) (hfree : b.entry ∉ m.entries) (exits : List Exit) :
    ∃ m', m.commit b exits = .ok m' ∧ m'.Intact ∧
      ∀ a, a ∈ m'.entries ↔ a = b.entry ∨ a ∈ m.entries := by
  rw [CodeMap.commit, if_neg (by rwa [← Std.TreeMap.mem_iff_contains])]
  refine ⟨_, rfl, h.push hb h.blocks rfl _ _ _, ?_⟩
  intro a
  rw [Std.TreeMap.mem_insert, Std.LawfulEqOrd.compare_eq_iff_eq, eq_comm]

theorem divide (h : m.Intact) (hhead : head.Indexed) (htail : tail.Indexed) (slot : Nat) :
    (m.divide slot head tail).map.Intact ∧
      ∀ a ∈ m.entries, a ∈ (m.divide slot head tail).map.entries := by
  have hblocks : ∀ b ∈ m.blocks.setIfInBounds slot head, b.Indexed := by
    intro b hb
    rcases Array.mem_or_eq_of_mem_setIfInBounds hb with hb | rfl
    · exact h.blocks b hb
    · exact hhead
  have hsize : (m.blocks.setIfInBounds slot head).size = m.blocks.size :=
    Array.size_setIfInBounds
  unfold CodeMap.divide
  split
  · refine ⟨⟨hblocks, ?_⟩, fun a ha => ha⟩
    intro a k hk
    simp only [hsize]
    exact h.owners hk
  · exact ⟨h.push htail hblocks hsize _ _ _, fun a ha => Std.TreeMap.mem_insert.2 (.inr ha)⟩

/-- Making an address an entry never faults, and leaves the entries that there are. -/
theorem split (h : m.Intact) (addr : Address) :
    ∃ r, m.split addr = .ok r ∧ r.map.Intact ∧ ∀ a ∈ m.entries, a ∈ r.map.entries := by
  unfold CodeMap.split
  cases hl : m.lookup addr with
  | entry slot => exact ⟨_, rfl, h, fun a ha => ha⟩
  | unknown => exact ⟨_, rfl, h, fun a ha => ha⟩
  | interior slot =>
    have hslot : slot < m.blocks.size := h.owners (lookup_eq_interior_iff.1 hl).2
    have hblock : m.blockIn slot = .ok m.blocks[slot] := by
      rw [blockIn, Array.getElem?_eq_getElem hslot]
    have hindexed := h.blocks _ (Array.getElem_mem hslot)
    rcases hindexed.cut? addr with hnone | ⟨head, tail, hsome, hhead, htail⟩
    · simp only [hblock, hnone, bind, Except.bind]
      exact ⟨_, rfl, h, fun a ha => ha⟩
    · simp only [hblock, hsome, bind, Except.bind]
      exact ⟨_, rfl, h.divide hhead htail slot⟩

end Intact

theorem not_mem_entries_of_unknown (h : m.lookup addr = .unknown) : addr ∉ m.entries := by
  rw [← Std.TreeMap.isSome_getElem?_iff_mem, (lookup_eq_unknown_iff.1 h).1]
  exact Bool.false_ne_true

end CodeMap

end CodeLift
