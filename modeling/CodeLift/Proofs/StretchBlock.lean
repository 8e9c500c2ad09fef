import CodeLift.Annotation
import CodeLift.Proofs.Stretch

/-!
# The block of a stretch

The records and the operations of a block are divided together: a record knows where its operations
begin, and the part after a cut counts from the cut on. Cutting the block of a stretch therefore
gives the blocks of the two parts, and no record ever points outside the operations.
-/

namespace CodeLift

/-! ## Records of instructions in a row -/

namespace Record

variable {n : Nat} {i : Insn} {l r : List Insn} {rec : Record}

theorem ofInsns_cons (n : Nat) (i : Insn) (l : List Insn) :
    ofInsns [] n (i :: l) = ofInsn i n :: ofInsns [] (n + i.lowered.length) l := by
  rw [ofInsns, ofInsns_eq_append]
  rfl

theorem ofInsns_append (n : Nat) (l r : List Insn) :
    ofInsns [] n (l ++ r) =
      ofInsns [] n l ++ ofInsns [] (n + (l.flatMap Insn.lowered).length) r := by
  induction l generalizing n with
  | nil => simp [ofInsns]
  | cons i is ih =>
    rw [List.cons_append, ofInsns_cons, ofInsns_cons, ih, List.flatMap_cons, List.length_append,
      Nat.add_assoc, List.cons_append]

/-- What does not depend on the place of a record can be read off the instructions. -/
theorem map_ofInsns {α : Type} {f : Record → α} {g : Insn → α} (h : ∀ i n, f (ofInsn i n) = g i)
    (n : Nat) (l : List Insn) : (ofInsns [] n l).map f = l.map g := by
  induction l generalizing n with
  | nil => simp [ofInsns]
  | cons i is ih => rw [ofInsns_cons, List.map_cons, List.map_cons, ih, h]

theorem map_addr_ofInsns (n : Nat) (l : List Insn) :
    (ofInsns [] n l).map (·.addr) = l.map (·.addr) := map_ofInsns (fun _ _ => rfl) n l

theorem length_ofInsns (n : Nat) (l : List Insn) : (ofInsns [] n l).length = l.length := by
  rw [← List.length_map (·.addr), map_addr_ofInsns, List.length_map]

theorem firstOp_of_mem (h : rec ∈ ofInsns [] n l) :
    n ≤ rec.firstOp ∧ rec.firstOp < n + (l.flatMap Insn.lowered).length := by
  induction l generalizing n with
  | nil => simp [ofInsns] at h
  | cons i is ih =>
    have hpos : 0 < i.lowered.length := by simp [Insn.lowered]
    rw [ofInsns_cons, List.mem_cons] at h
    rw [List.flatMap_cons, List.length_append]
    rcases h with rfl | h
    · simp only [ofInsn]
      omega
    · have := ih h
      omega

/-- A record points at the start of its own operations. -/
theorem getElem?_firstOp (h : rec ∈ ofInsns [] n l) :
    (l.flatMap Insn.lowered)[rec.firstOp - n]? = some (.insnStart rec.addr rec.size) := by
  induction l generalizing n with
  | nil => simp [ofInsns] at h
  | cons i is ih =>
    rw [ofInsns_cons, List.mem_cons] at h
    rw [List.flatMap_cons]
    rcases h with rfl | h
    · simp [ofInsn, Insn.lowered]
    · have hle := (firstOp_of_mem h).1
      have hge : i.lowered.length ≤ rec.firstOp - n := by omega
      rw [List.getElem?_append_right hge, Nat.sub_sub]
      exact ih h

theorem getElem?_firstOp_append (h : rec ∈ ofInsns [] 0 l) (mark : List Op) :
    (l.flatMap Insn.lowered ++ mark)[rec.firstOp]? = some (.insnStart rec.addr rec.size) := by
  have hlt := (firstOp_of_mem h).2
  rw [Nat.zero_add] at hlt
  rw [List.getElem?_append_left hlt]
  exact getElem?_firstOp h

theorem pairwise_firstOp (n : Nat) (l : List Insn) :
    (ofInsns [] n l).Pairwise fun r s => r.firstOp < s.firstOp := by
  induction l generalizing n with
  | nil => simp [ofInsns]
  | cons i is ih =>
    have hpos : 0 < i.lowered.length := by simp [Insn.lowered]
    rw [ofInsns_cons, List.pairwise_cons]
    refine ⟨?_, ih _⟩
    intro s hs
    have hle := (firstOp_of_mem hs).1
    show n < s.firstOp
    omega

theorem map_rebase_ofInsns (k n : Nat) (l : List Insn) :
    (ofInsns [] (k + n) l).map (·.rebase k) = ofInsns [] n l := by
  induction l generalizing n with
  | nil => simp [ofInsns]
  | cons i is ih =>
    rw [ofInsns_cons, ofInsns_cons, List.map_cons, Nat.add_assoc, ih]
    simp [ofInsn, rebase]

end Record

theorem Insn.not_isUnreachable_of_mem {i : Insn} {op : Op} (h : op ∈ i.lowered) :
    op.isUnreachable = false := by
  simp only [lowered, List.mem_cons, List.mem_map] at h
  rcases h with rfl | ⟨⟨o, k⟩, -, rfl⟩ <;> rfl

namespace Stretch

variable {decode : Address → Except Fault Decoded} {t head tail : Stretch decode} {a : Address}

/-! ## What can be seen of a stretch in its block -/

@[simp] theorem block_entry (t : Stretch decode) : t.block.entry = t.entry := rfl

@[simp] theorem block_stop (t : Stretch decode) : t.block.stop = t.stop := rfl

@[simp] theorem block_edges (t : Stretch decode) : t.block.edges = [] := rfl

@[simp] theorem map_addr_block_insns (t : Stretch decode) :
    t.block.insns.map (·.addr) = t.insns.map (·.addr) := Record.map_addr_ofInsns 0 t.insns

@[simp] theorem isEmpty_block_insns (t : Stretch decode) :
    t.block.insns.isEmpty = t.insns.isEmpty := by
  rw [← List.isEmpty_map (f := (·.addr)), map_addr_block_insns, List.isEmpty_map]

theorem block_insns_eq_nil : t.block.insns = [] ↔ t.insns = [] := by
  rw [← List.isEmpty_iff, isEmpty_block_insns, List.isEmpty_iff]

theorem exists_record_iff :
    (∃ r ∈ t.block.insns, r.addr = a) ↔ ∃ i ∈ t.insns, i.addr = a := by
  rw [← List.mem_map, map_addr_block_insns, List.mem_map]

@[simp] theorem block_lastInsn? (t : Stretch decode) : t.block.lastInsn? = t.last? := by
  rw [Block.lastInsn?, last?, ← List.getLast?_map, ← List.getLast?_map, map_addr_block_insns]

/-- The only operation that marks unreachable code is the one at the point of failure. -/
theorem unreachable_mem_block_ops {pc : Address} :
    .unreachable pc ∈ t.block.ops ↔ t.failure.isSome ∧ pc = t.stop := by
  have hlow : Op.unreachable pc ∉ t.insns.flatMap Insn.lowered := by
    intro h
    obtain ⟨i, -, hi⟩ := List.mem_flatMap.1 h
    exact Bool.false_ne_true (Insn.not_isUnreachable_of_mem hi).symm
  simp only [block, List.mem_append, hlow, false_or]
  split
  · next hf => simp [hf]
  · next hf => simp [hf]

@[simp] theorem block_isUnreachable (t : Stretch decode) :
    t.block.isUnreachable = t.failure.isSome := by
  unfold Block.isUnreachable block
  split
  · next hf => simp [hf, Op.isUnreachable]
  · next hf =>
    rw [List.append_nil]
    cases ho : (t.insns.flatMap Insn.lowered).getLast? with
    | none => simp [hf]
    | some op =>
      obtain ⟨i, -, hi⟩ := List.mem_flatMap.1 (List.mem_of_getLast? ho)
      simp [Insn.not_isUnreachable_of_mem hi, hf]

/-- Every record points at an operation of the block. -/
theorem firstOp_lt {r : Record} (hr : r ∈ t.block.insns) : r.firstOp < t.block.ops.length := by
  have h := (Record.firstOp_of_mem hr).2
  simp only [block, List.length_append]
  omega

/-! ## Cutting the block -/

/-- The place of the cut among records and operations is where the first part ends. -/
theorem Cut.cutPoint? (h : t.Cut a head tail) :
    t.block.cutPoint? a = some (head.insns.length, (head.insns.flatMap Insn.lowered).length) := by
  have hhead : ∀ r ∈ Record.ofInsns [] 0 head.insns, ¬ (r.addr == a) = true := by
    intro r hr hra
    have hr' := List.mem_map_of_mem (f := (·.addr)) hr
    rw [Record.map_addr_ofInsns, List.mem_map] at hr'
    obtain ⟨i, hi, hir⟩ := hr'
    have hlt := (head.chain.addr_lt hi).2
    rw [h.head_stop, hir, beq_iff_eq.1 hra] at hlt
    exact Nat.lt_irrefl _ hlt
  have hnone : (Record.ofInsns [] 0 head.insns).findIdx? (·.addr == a) = none :=
    List.findIdx?_eq_none_iff.2 fun r hr => Bool.eq_false_iff.2 (hhead r hr)
  have hins : t.block.insns = Record.ofInsns [] 0 head.insns ++
      Record.ofInsns [] (0 + (head.insns.flatMap Insn.lowered).length) tail.insns := by
    rw [← Record.ofInsns_append, ← h.insns]
    rfl
  have hc := tail.chain
  unfold Block.cutPoint?
  cases hr : tail.insns with
  | cons i is =>
    rw [hr] at hc hins
    have hi : (i.addr == a) = true := beq_iff_eq.2 (hc.1.trans h.tail_entry)
    rw [Record.ofInsns_cons] at hins
    have hidx : t.block.insns.findIdx? (·.addr == a) = some head.insns.length := by
      rw [hins, List.findIdx?_append, hnone, List.findIdx?_cons]
      simp [Record.ofInsn, hi, Record.length_ofInsns]
    rw [hidx, hins]
    simp [Record.length_ofInsns, Record.ofInsn]
  | nil =>
    rw [hr] at hins
    have hf : t.failure.isSome := Option.isSome_iff_ne_none.2 (h.tail_failure ▸ tail.filled hr)
    have hstop : t.block.stop = a := by
      rw [hr] at hc
      rw [block_stop, ← h.tail_stop, ← h.tail_entry]
      exact hc.symm
    have hidx : t.block.insns.findIdx? (·.addr == a) = none := by
      rw [hins, List.findIdx?_append, hnone]
      simp [Record.ofInsns]
    have hlen : t.block.insns.length = head.insns.length := by
      rw [hins]
      simp [Record.ofInsns, Record.length_ofInsns]
    have hops : t.block.ops.length - 1 = (head.insns.flatMap Insn.lowered).length := by
      simp [block, hf, h.insns, hr]
    rw [hidx]
    simp only [hstop, block_isUnreachable, hf, hlen, hops, BEq.rfl, Bool.and_self, if_true]

/-- The block of a stretch is cut into the blocks of its parts. -/
theorem Cut.cut?_block (h : t.Cut a head tail) :
    t.block.cut? a = .ok (some (head.block, tail.block)) := by
  have hins : t.block.insns = Record.ofInsns [] 0 head.insns ++
      Record.ofInsns [] ((head.insns.flatMap Insn.lowered).length + 0) tail.insns := by
    rw [Nat.add_comm, ← Record.ofInsns_append, ← h.insns]
    rfl
  have hops : t.block.ops = head.insns.flatMap Insn.lowered ++ tail.block.ops := by
    simp [block, h.insns, h.tail_failure, h.tail_stop]
  have hlen := Record.length_ofInsns 0 head.insns
  have hhead : t.block.head a head.insns.length (head.insns.flatMap Insn.lowered).length
      = head.block := by
    rw [Block.head, hins, hops, ← hlen, List.take_left, List.take_left]
    simp [block, h.head_entry, h.head_stop, h.head_failure]
  have htail : t.block.tail a head.insns.length (head.insns.flatMap Insn.lowered).length
      = tail.block := by
    rw [Block.tail, hins, hops, ← hlen, List.drop_left, List.drop_left, Record.map_rebase_ofInsns]
    simp [block, h.tail_entry, h.tail_stop]
  have hfirst : (t.block.insns.drop head.insns.length).all
      ((head.insns.flatMap Insn.lowered).length ≤ ·.firstOp) = true := by
    rw [hins, ← hlen, List.drop_left, List.all_eq_true]
    intro r hr
    exact decide_eq_true (Record.firstOp_of_mem hr).1
  have hle : (head.insns.flatMap Insn.lowered).length ≤ t.block.ops.length := by
    rw [hops, List.length_append]
    exact Nat.le_add_right _ _
  rw [Block.cut?, h.cutPoint?]
  simp only [hfirst, hle, decide_true, Bool.and_self, if_true, hhead, htail]

end Stretch

end CodeLift
