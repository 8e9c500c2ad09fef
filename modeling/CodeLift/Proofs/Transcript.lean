import CodeLift.Proofs.Lifting
import Mathlib.Data.List.Chain
import Mathlib.Data.List.Forall2

/-!
# Blocks are transcripts of the decoder

A block keeps its instructions twice, as records and as operations, and a record knows where its
operations begin. However often a block was cut, the two still tell what the decoder gives: the
records lie one after the other from the entry to the end, and the operations are those of the
records in their order, with a mark behind them where decoding failed.
-/

namespace CodeLift

variable {decode : Address → Except Fault Decoded}

/-- The operations that stand for a record whose instruction has the given steps. -/
def Record.lowered (r : Record) (steps : List MicroOp) : List Op :=
  .insnStart r.addr r.size ::
    steps.mapIdx fun index step => .micro step.opcode step.args ⟨r.addr, index⟩

/-- The decoder finds the instruction `i` at the address of the record, which copies it. -/
structure Record.Copies (decode : Address → Except Fault Decoded) (r : Record) (i : Insn) :
    Prop where
  decodes : Decodes decode r.addr i
  size : r.size = i.size
  bytes : r.bytes = i.bytes
  text : r.text = i.text

/-- The block is a transcript of the instructions `insns`, which the decoder gives in a row. -/
structure Block.Transcribes (decode : Address → Except Fault Decoded) (b : Block)
    (insns : List Insn) : Prop where
  /-- The records copy the instructions. -/
  records : List.Forall₂ (Record.Copies decode) b.insns insns
  /-- The first record lies at the entry. -/
  first : ∀ {r}, b.insns.head? = some r → r.addr = b.entry
  /-- Each record ends where the next one begins. -/
  contiguous : b.insns.IsChain fun r s => r.addr.toNat + r.size.toNat = s.addr.toNat
  /-- The block ends with its last record. -/
  stop : ∀ {r}, b.insns.getLast? = some r → b.stop.toNat = r.addr.toNat + r.size.toNat
  /-- Without records it ends where it begins. -/
  stop_of_nil : b.insns = [] → b.stop = b.entry
  /-- The operations are those of the records, and then at most a mark that nothing is known from
  the end on. -/
  ops : ∃ mark, (mark = [] ∨ mark = [.unreachable b.stop]) ∧
    b.ops = (List.zipWith (fun r i => r.lowered i.ops) b.insns insns).flatten ++ mark
  /-- The start of a record's instruction stands where the record says, and nowhere else. -/
  firstOp : ∀ r ∈ b.insns, ∀ k size,
    b.ops[k]? = some (.insnStart r.addr size) ↔ k = r.firstOp ∧ size = r.size
  /-- Only the last instruction may transfer control. -/
  straight : ∀ i ∈ insns.dropLast, i.flow = none
  /-- Without records nothing is known. -/
  mark_of_nil : b.insns = [] → b.isUnreachable = true

/-! ## Where instructions start -/

/-- The address of the instruction that begins with the operation, if one does. -/
def Op.start? : Op → Option Address
  | insnStart pc _ => some pc
  | _ => none

theorem Insn.filterMap_start?_lowered (i : Insn) : i.lowered.filterMap Op.start? = [i.addr] := by
  have hstart : Op.start? (.insnStart i.addr i.size) = some i.addr := rfl
  rw [lowered, List.filterMap_cons_some hstart]
  refine congrArg (i.addr :: ·) (List.filterMap_eq_nil_iff.2 ?_)
  -- the steps that follow start nothing
  intro op hop
  obtain ⟨⟨step, index⟩, -, rfl⟩ := List.mem_map.1 hop
  rfl

/-- Of elements that a partial function tells apart, each stands in one place. -/
theorem getElem?_inj_of_nodup {α β : Type} {f : α → Option β} {l : List α} {j k : Nat} {x y : α}
    {b : β} (h : (l.filterMap f).Nodup) (hx : l[j]? = some x) (hy : l[k]? = some y)
    (hfx : f x = some b) (hfy : f y = some b) : j = k := by
  rw [List.Nodup, List.pairwise_filterMap, List.pairwise_iff_getElem] at h
  obtain ⟨hj, rfl⟩ := List.getElem?_eq_some_iff.1 hx
  obtain ⟨hk, rfl⟩ := List.getElem?_eq_some_iff.1 hy
  rcases Nat.lt_trichotomy j k with hlt | heq | hgt
  · exact absurd rfl (h j k hj hk hlt b hfx b hfy)
  · exact heq
  · exact absurd rfl (h k j hk hj hgt b hfy b hfx)

/-! ## Records and operations of instructions in a row -/

namespace Record

variable {n : Nat} {i : Insn} {l : List Insn}

theorem lowered_ofInsn (i : Insn) (n : Nat) : (ofInsn i n).lowered i.ops = i.lowered := by
  rw [lowered, List.mapIdx_eq_zipIdx_map]
  rfl

theorem flatten_lowered_ofInsns (n : Nat) (l : List Insn) :
    (List.zipWith (fun r i => lowered r i.ops) (ofInsns [] n l) l).flatten =
      l.flatMap Insn.lowered := by
  induction l generalizing n with
  | nil => rfl
  | cons i is ih =>
    rw [ofInsns_cons, List.zipWith_cons_cons, List.flatten_cons, lowered_ofInsn, ih,
      List.flatMap_cons]

theorem copies_ofInsns (h : ∀ i ∈ l, Decodes decode i.addr i) (n : Nat) :
    List.Forall₂ (Copies decode) (ofInsns [] n l) l := by
  induction l generalizing n with
  | nil => exact List.Forall₂.nil
  | cons i is ih =>
    have hi : Copies decode (ofInsn i n) i := ⟨h i List.mem_cons_self, rfl, rfl, rfl⟩
    rw [ofInsns_cons]
    exact .cons hi (ih (fun j hj => h j (List.mem_cons_of_mem _ hj)) _)

end Record

namespace Chain

variable {a b : Address} {l : List Insn} {r : Record}

theorem addr_of_head? (h : Chain decode a l b) {n : Nat}
    (hr : (Record.ofInsns [] n l).head? = some r) : r.addr = a := by
  cases l with
  | nil => simp [Record.ofInsns] at hr
  | cons i is =>
    rw [Record.ofInsns_cons, List.head?_cons, Option.some.injEq] at hr
    rw [← hr]
    exact h.1

theorem isChain_ofInsns (h : Chain decode a l b) (n : Nat) :
    (Record.ofInsns [] n l).IsChain fun r s => r.addr.toNat + r.size.toNat = s.addr.toNat := by
  induction l generalizing a n with
  | nil => simp [Record.ofInsns]
  | cons i is ih =>
    obtain ⟨-, hd, c, hn, hr⟩ := h
    rw [Record.ofInsns_cons, List.isChain_cons]
    refine ⟨?_, ih hr _⟩
    intro s hs
    have hs := hr.addr_of_head? hs
    rw [hs, Insn.toNat_of_next hn]
    rfl

theorem toNat_of_getLast? (h : Chain decode a l b) {n : Nat}
    (hr : (Record.ofInsns [] n l).getLast? = some r) :
    b.toNat = r.addr.toNat + r.size.toNat := by
  rcases List.eq_nil_or_concat' l with rfl | ⟨is, i, rfl⟩
  · simp [Record.ofInsns] at hr
  · obtain ⟨-, -, hn⟩ := concat_iff.1 h
    rw [Record.ofInsns_append, Record.ofInsns_cons] at hr
    simp only [Record.ofInsns, List.reverse_nil, List.getLast?_concat, Option.some.injEq] at hr
    rw [← hr, Insn.toNat_of_next hn]
    rfl

end Chain

/-! ## The block of a stretch -/

namespace Stretch

variable {t : Stretch decode} {r : Record}

theorem filterMap_start?_ops (t : Stretch decode) :
    t.block.ops.filterMap Op.start? = t.insns.map (·.addr) := by
  have hmark : (if t.failure.isSome then [Op.unreachable t.stop] else []).filterMap Op.start? =
      [] := by
    split <;> rfl
  show (t.insns.flatMap Insn.lowered ++ _).filterMap Op.start? = _
  rw [List.filterMap_append, hmark, List.append_nil, List.filterMap_flatMap]
  simp only [Insn.filterMap_start?_lowered]
  exact List.map_eq_flatMap.symm

theorem getElem?_block_ops_iff (hr : r ∈ t.block.insns) (k : Nat) (size : UInt8) :
    t.block.ops[k]? = some (.insnStart r.addr size) ↔ k = r.firstOp ∧ size = r.size := by
  have hown : t.block.ops[r.firstOp]? = some (.insnStart r.addr r.size) :=
    Record.getElem?_firstOp_append hr _
  constructor
  · intro hk
    have hnodup : (t.block.ops.filterMap Op.start?).Nodup := by
      rw [filterMap_start?_ops]
      exact t.chain.pairwise.imp fun hlt he => absurd (congrArg UInt64.toNat he) (Nat.ne_of_lt hlt)
    have hplace : k = r.firstOp := getElem?_inj_of_nodup hnodup hk hown rfl rfl
    rw [hplace, hown] at hk
    cases hk
    exact ⟨hplace, rfl⟩
  · rintro ⟨rfl, rfl⟩
    exact hown

theorem transcribes (t : Stretch decode) : t.block.Transcribes decode t.insns := by
  have hnil : t.block.insns = [] → t.insns = [] := by
    intro h
    have hempty := t.isEmpty_block_insns
    rw [h] at hempty
    exact List.isEmpty_iff.1 hempty.symm
  refine ⟨Record.copies_ofInsns (fun i hi => t.decodes hi) 0, t.chain.addr_of_head?,
    t.chain.isChain_ofInsns 0, t.chain.toNat_of_getLast?, ?_, ?_,
    fun r hr => getElem?_block_ops_iff hr, t.straight, ?_⟩
  · -- stop_of_nil
    intro h
    have hc := t.chain
    rw [hnil h] at hc
    exact hc.symm
  · -- ops
    refine ⟨if t.failure.isSome then [.unreachable t.stop] else [], ?_, ?_⟩
    · split
      · exact .inr rfl
      · exact .inl rfl
    · show t.insns.flatMap Insn.lowered ++ _ = _
      rw [← Record.flatten_lowered_ofInsns 0]
      rfl
  · -- mark_of_nil
    intro h
    rw [block_isUnreachable]
    exact Option.isSome_iff_ne_none.2 (t.filled (hnil h))

end Stretch

/-- Every block of a lifted function is a transcript of the decoder's answers, for any limit on the
length of blocks. -/
theorem Lifter.blocks_transcribe {l : Lifter} {image : ByteArray}
    (hfit : image.size < Address.count) (hf : Fits (l.decoder.decodeOne image) image.size)
    (entry : Address) :
    ∃ r, l.lift image entry = .ok r ∧
      ∀ b ∈ r.graph.blocks, ∃ insns, b.Transcribes (l.decoder.decodeOne image) insns := by
  obtain ⟨r, vs, hr, -, -, hdraws, -⟩ := l.lift_blocks hfit hf entry
  refine ⟨r, hr, ?_⟩
  intro b hb
  obtain ⟨t, -, notes, rfl⟩ := hdraws.exists_stretch hb
  -- edges and notes play no part in it
  have h := t.transcribes
  exact ⟨t.insns, h.records, h.first, h.contiguous, h.stop, h.stop_of_nil, h.ops, h.firstOp,
    h.straight, h.mark_of_nil⟩

theorem Lifter.blocks_transcribe_sample :
    ∃ r, Sample.lifter.lift Sample.image 0 = .ok r ∧ ∀ b ∈ r.graph.blocks,
      ∃ insns, b.Transcribes (Sample.lifter.decoder.decodeOne Sample.image) insns :=
  blocks_transcribe (by decide) Sample.conforms.toFits 0

end CodeLift
