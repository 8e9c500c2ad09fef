import CodeLift.Proofs.Annotation
import CodeLift.Proofs.Attempts
import CodeLift.Proofs.Digits
import Mathlib.Data.List.ReduceOption

/-!
# Steps have identities of their own

The identity of a step is written as the address of its instruction and its number there, and both
can be read back from it. Since no instruction of a lifted function occurs twice, no two steps have
the same identity, in the whole function. The text on a block can therefore tell a single step from
several by comparing identities.
-/

namespace CodeLift

/-! ## Reading an identity -/

theorem toList_traceId (pc : Address) (index : Nat) :
    (traceId pc index).toList =
      "ptc:0x".toList ++ Nat.toDigits 16 pc.toNat ++ '#' :: Nat.toDigits 10 index := by
  simp [traceId, Address.text, Text.hex, Text.hexDigits, Text.decimal]

theorem of_mem_traceId {pc : Address} {index : Nat} {c : Char}
    (h : c ∈ (traceId pc index).toList) : c.isAlphanum = true ∨ c = ':' ∨ c = '#' := by
  rw [toList_traceId, List.mem_append, List.mem_append, List.mem_cons] at h
  rcases h with (h | h) | h | h
  · have hall : ("ptc:0x".toList.all fun c => c.isAlphanum || c == ':') = true := by decide
    have hc := List.all_eq_true.1 hall c h
    rw [Bool.or_eq_true, beq_iff_eq] at hc
    exact hc.imp_right .inl
  · exact .inl (Text.isAlphanum_of_mem_toDigits (by decide) (by decide) h)
  · exact .inr (.inr h)
  · exact .inl (Text.isAlphanum_of_mem_toDigits (by decide) (by decide) h)

theorem traceId_inj {o p : Origin} (h : traceId o.pc o.index = traceId p.pc p.index) : o = p := by
  have hhash : ∀ {base n : Nat}, 1 < base → base ≤ 16 → '#' ∉ Nat.toDigits base n := by
    intro base n hbase hle hmem
    exact absurd (Text.isAlphanum_of_mem_toDigits hbase hle hmem) (by decide)
  obtain ⟨pc, i⟩ := o
  obtain ⟨qc, j⟩ := p
  have hlist := congrArg String.toList h
  rw [toList_traceId, toList_traceId, List.append_assoc, List.append_assoc] at hlist
  obtain ⟨hdigits, -, hnumber⟩ := (List.append_cons_inj_of_notMem (hhash (by decide) (by decide))
    (hhash (by decide) (by decide))).1 (List.append_cancel_left hlist)
  have hpc : pc = qc := UInt64.toNat_inj.1 (Text.toDigits_inj (by decide) (by decide) hdigits)
  have hindex : i = j := Text.toDigits_inj (by decide) (by decide) hnumber
  rw [hpc, hindex]

/-! ## Where steps come from -/

/-- Where the operation comes from, if it is a step. -/
def Op.origin? : Op → Option Origin
  | micro _ _ origin => some origin
  | _ => none

/-- Where the steps of a block come from, in their order. -/
def Block.origins (b : Block) : List Origin := b.ops.filterMap Op.origin?

theorem Op.traceId?_eq (op : Op) : op.traceId? = op.origin?.map fun o => traceId o.pc o.index := by
  cases op <;> rfl

/-- Where the steps of an instruction come from. -/
def Insn.origins (i : Insn) : List Origin := (List.range i.ops.length).map fun k => ⟨i.addr, k⟩

theorem Insn.mem_origins {i : Insn} {o : Origin} (h : o ∈ i.origins) : o.pc = i.addr := by
  obtain ⟨k, -, rfl⟩ := List.mem_map.1 h
  rfl

theorem Insn.origins_nodup (i : Insn) : i.origins.Nodup :=
  List.nodup_range.map fun _ _ h => (Origin.mk.inj h).2

theorem Insn.filterMap_origin?_lowered (i : Insn) :
    i.lowered.filterMap Op.origin? = i.origins := by
  have hstart : Op.origin? (.insnStart i.addr i.size) = none := rfl
  have hsteps : (i.ops.zipIdx.map fun p => Op.micro p.1.opcode p.1.args ⟨i.addr, p.2⟩).filterMap
      Op.origin? = (i.ops.zipIdx.map Prod.snd).map fun k => ⟨i.addr, k⟩ := by
    rw [List.filterMap_map, List.map_map, ← List.filterMap_eq_map]
    rfl
  rw [lowered, List.filterMap_cons_none hstart]
  refine hsteps.trans ?_
  rw [List.zipIdx_map_snd, origins, List.range_eq_range']

namespace Stretch

variable {decode : Address → Except Fault Decoded}

theorem origins_block (t : Stretch decode) : t.block.origins = t.insns.flatMap Insn.origins := by
  have hmark : (if t.failure.isSome then [Op.unreachable t.stop] else []).filterMap Op.origin? =
      [] := by
    split <;> rfl
  show (t.insns.flatMap Insn.lowered ++ _).filterMap Op.origin? = _
  rw [List.filterMap_append, hmark, List.append_nil, List.filterMap_flatMap]
  exact List.flatMap_congr fun i _ => i.filterMap_origin?_lowered

theorem pc_mem_held {t : Stretch decode} {o : Origin} (h : o ∈ t.block.origins) :
    o.pc ∈ t.held := by
  rw [origins_block] at h
  obtain ⟨i, hi, ho⟩ := List.mem_flatMap.1 h
  rw [Insn.mem_origins ho]
  exact addr_mem_held hi

theorem origins_block_nodup (t : Stretch decode) : t.block.origins.Nodup := by
  rw [origins_block, List.nodup_flatMap]
  refine ⟨fun i _ => i.origins_nodup, ?_⟩
  have hapart := List.pairwise_map.1 t.chain.pairwise
  refine hapart.imp ?_
  intro i j hlt o hi hj
  rw [← Insn.mem_origins hi, ← Insn.mem_origins hj] at hlt
  exact Nat.lt_irrefl _ hlt

/-- A step of the block is the step of that number which the decoder gives at that address. -/
theorem exists_step {t : Stretch decode} {opcode : String} {args : List String} {o : Origin}
    (h : .micro opcode args o ∈ t.block.ops) :
    ∃ i step, decode o.pc = .ok (.ok i) ∧ i.ops[o.index]? = some step ∧ step.opcode = opcode ∧
      step.args = args := by
  rcases List.mem_append.1 h with h | h
  · obtain ⟨i, hi, hop⟩ := List.mem_flatMap.1 h
    rcases List.mem_cons.1 hop with hop | hop
    · cases hop
    · obtain ⟨⟨step, index⟩, hstep, hop⟩ := List.mem_map.1 hop
      cases hop
      exact ⟨i, step, (t.decodes hi).1, List.mem_zipIdx_iff_getElem?.1 hstep, rfl, rfl⟩
  · split at h
    · cases List.mem_singleton.1 h
    · cases h

end Stretch

/-- The steps of stretches that are apart all come from different places. -/
theorem Apart.origins_nodup {decode : Address → Except Fault Decoded}
    {ts : List (Stretch decode)} (h : Apart ts) :
    (ts.flatMap fun t => t.block.origins).Nodup := by
  rw [List.nodup_flatMap]
  refine ⟨fun t _ => t.origins_block_nodup, ?_⟩
  have hapart := (List.nodup_flatMap.1 h).2
  refine hapart.imp ?_
  intro t u hdisjoint o ht hu
  exact hdisjoint (Stretch.pc_mem_held ht) (Stretch.pc_mem_held hu)

/-! ## The notes on a block -/

namespace Block

variable {b : Block} {o first last : Origin} {mid : List Origin}

theorem filterMap_traceId? (b : Block) :
    b.ops.filterMap Op.traceId? = b.origins.map fun o => traceId o.pc o.index := by
  rw [origins, List.map_filterMap]
  exact List.filterMap_congr fun op _ => op.traceId?_eq

theorem reduceOption_traceNotes (b : Block) :
    b.traceNotes.ops.toList.reduceOption = b.origins.map fun o => traceId o.pc o.index := by
  rw [← b.filterMap_traceId?]
  exact List.filterMap_map

theorem traceText_of_nil (h : b.origins = []) :
    b.traceText = "ptc:" ++ b.entry.text ++ ": <invalid>" := by
  simp only [traceText, filterMap_traceId?, h]
  rfl

theorem traceText_of_singleton (h : b.origins = [o]) : b.traceText = traceId o.pc o.index := by
  simp [traceText, filterMap_traceId?, h]

/-- The first and the last of several steps are told apart, so both are shown. -/
theorem traceText_of_several (hn : b.origins.Nodup) (h : b.origins = first :: (mid ++ [last])) :
    b.traceText = traceId first.pc first.index ++ ".." ++ traceId last.pc last.index := by
  have hne : traceId first.pc first.index ≠ traceId last.pc last.index := by
    intro he
    rw [h, List.nodup_cons] at hn
    exact hn.1 (by simp [traceId_inj he])
  have hlast : (b.origins.map fun o => traceId o.pc o.index).getLast? =
      some (traceId last.pc last.index) := by
    rw [h, ← List.cons_append, List.map_append]
    exact List.getLast?_concat
  have hfirst : (b.origins.map fun o => traceId o.pc o.index).head? =
      some (traceId first.pc first.index) := by
    rw [h]
    rfl
  simp [traceText, filterMap_traceId?, hfirst, hlast, hne]

/-- Only the text on a block of a single step is an identity: the others have characters that no
identity has. -/
theorem traceText_eq_iff (hn : b.origins.Nodup) :
    b.traceText = traceId o.pc o.index ↔ b.origins = [o] := by
  refine ⟨?_, traceText_of_singleton⟩
  intro h
  rcases List.eq_nil_or_concat' b.origins with hnil | ⟨init, last, hlast⟩
  · have hmem : '<' ∈ (traceId o.pc o.index).toList := by
      rw [← h, traceText_of_nil hnil]
      simp
    exact absurd (of_mem_traceId hmem) (by decide)
  · cases init with
    | nil =>
      rw [List.nil_append] at hlast
      rw [hlast, traceId_inj ((traceText_of_singleton hlast).symm.trans h)]
    | cons first mid =>
      have hmem : '.' ∈ (traceId o.pc o.index).toList := by
        rw [← h, traceText_of_several hn hlast]
        simp
      exact absurd (of_mem_traceId hmem) (by decide)

end Block

/-- The notes tell the steps of the block from each other, and where `decode` gives them. -/
structure Notes.IdentifySteps (n : Notes) (decode : Address → Except Fault Decoded) (b : Block) :
    Prop where
  /-- There is a place for a note on every operation. -/
  size : n.ops.size = b.ops.length
  /-- The steps have notes, and nothing else has. -/
  noted_iff : ∀ (k : Nat) text, n.ops[k]? = some (some text) ↔
    ∃ opcode args o, b.ops[k]? = some (.micro opcode args o) ∧ text = traceId o.pc o.index
  /-- The identity leads to the step that the decoder gives. -/
  step : ∀ opcode args o, .micro opcode args o ∈ b.ops →
    ∃ i step, decode o.pc = .ok (.ok i) ∧ i.ops[o.index]? = some step ∧ step.opcode = opcode ∧
      step.args = args
  /-- The text on the block is an identity if it has just that step. -/
  text_iff : ∀ o, n.text = traceId o.pc o.index ↔ b.origins = [o]
  /-- Of several steps it shows the first and the last. -/
  text_several : ∀ first mid last, b.origins = first :: (mid ++ [last]) →
    n.text = traceId first.pc first.index ++ ".." ++ traceId last.pc last.index
  /-- Without steps it says so. -/
  text_none : b.origins = [] → n.text = "ptc:" ++ b.entry.text ++ ": <invalid>" ∧ n.text ≠ ""

/-- The notes on the operations of a function, in their order. -/
def FlowGraph.opNotes (g : FlowGraph) : List String :=
  g.blocks.toList.flatMap fun b => b.notes.toList.flatMap fun n => n.ops.toList.reduceOption

theorem Op.traceId?_eq_some_iff {op : Op} {text : String} :
    op.traceId? = some text ↔
      ∃ opcode args o, op = .micro opcode args o ∧ text = traceId o.pc o.index := by
  constructor
  · intro h
    cases op with
    | insnStart pc size => cases h
    | micro opcode args o => exact ⟨opcode, args, o, rfl, (Option.some.inj h).symm⟩
    | unreachable pc => cases h
  · rintro ⟨opcode, args, o, rfl, rfl⟩
    rfl

theorem Stretch.identifySteps {decode : Address → Except Fault Decoded} (t : Stretch decode)
    {b : Block} {n : Notes} (hops : b.ops = t.block.ops) (hnotes : n = b.traceNotes) :
    n.IdentifySteps decode b := by
  subst hnotes
  have horigins : b.origins = t.block.origins := by rw [Block.origins, hops, Block.origins]
  have hn : b.origins.Nodup := horigins ▸ t.origins_block_nodup
  refine ⟨?_, ?_, ?_, fun o => Block.traceText_eq_iff hn,
    fun first mid last h => Block.traceText_of_several hn h, ?_⟩
  · -- size
    exact List.size_toArray.trans (List.length_map _)
  · -- noted_iff
    intro k text
    show (b.ops.map Op.traceId?).toArray[k]? = _ ↔ _
    rw [List.getElem?_toArray, List.getElem?_map, Option.map_eq_some_iff]
    simp only [Op.traceId?_eq_some_iff]
    grind
  · -- step
    intro opcode args o h
    rw [hops] at h
    exact t.exists_step h
  · -- text_none
    intro h
    refine ⟨Block.traceText_of_nil h, ?_⟩
    show b.traceText ≠ ""
    rw [Block.traceText_of_nil h]
    simp

/-! ## The notes on a function -/

namespace FlowGraph

variable {g k : FlowGraph}

theorem blocks_of_annotate_trace (h : g.annotate .trace = .ok k) :
    k.blocks.toList = g.blocks.toList.map fun b => { b with notes := some b.traceNotes } := by
  have hblocks : g.blocks.toList.mapM (·.annotate .trace) =
      .ok (g.blocks.toList.map fun b => { b with notes := some b.traceNotes }) :=
    mapM_eq_ok fun _ _ => rfl
  rw [annotate, hblocks] at h
  cases h
  rfl

theorem opNotes_of_annotate_trace (h : g.annotate .trace = .ok k) :
    k.opNotes = (g.blocks.toList.flatMap Block.origins).map fun o => traceId o.pc o.index := by
  rw [opNotes, blocks_of_annotate_trace h, List.flatMap_map, List.map_flatMap]
  refine List.flatMap_congr fun b _ => ?_
  rw [← Block.reduceOption_traceNotes]
  exact List.append_nil _

end FlowGraph

namespace Lifter

/-- In a function that is lifted with the identities of its steps, no two operations have the same
note, and the notes on every block identify its steps. -/
theorem steps_identified {l : Lifter} {image : ByteArray} (hfit : image.size < Address.count)
    (hf : Fits (l.decoder.decodeOne image) image.size) (entry : Address) :
    ∃ r, (l.withNotes .trace).lift image entry = .ok r ∧ r.graph.opNotes.Nodup ∧
      ∀ b ∈ r.graph.blocks, ∃ n, b.notes = some n ∧
        n.IdentifySteps (l.decoder.decodeOne image) b := by
  obtain ⟨g, vs, hapart, hblocks, hlift⟩ := l.lift_withNotes hfit hf entry
  obtain ⟨r, hr, hg⟩ := hlift .trace
  refine ⟨r, hr, ?_, ?_⟩
  · have horigins : (g.blocks.toList.flatMap Block.origins).Nodup := by
      rw [hblocks, List.flatMap_map]
      exact hapart.origins_nodup
    rw [FlowGraph.opNotes_of_annotate_trace hg]
    exact horigins.map fun _ _ => traceId_inj
  · intro b hb
    rw [← Array.mem_toList_iff, FlowGraph.blocks_of_annotate_trace hg, hblocks] at hb
    obtain ⟨c, hc, rfl⟩ := List.mem_map.1 hb
    obtain ⟨t, -, rfl⟩ := List.mem_map.1 hc
    exact ⟨_, rfl, t.identifySteps rfl rfl⟩

theorem steps_identified_sample :
    ∃ r, (Sample.lifter.withNotes .trace).lift Sample.image 0 = .ok r ∧ r.graph.opNotes.Nodup ∧
      ∀ b ∈ r.graph.blocks, ∃ n, b.notes = some n ∧
        n.IdentifySteps (Sample.lifter.decoder.decodeOne Sample.image) b :=
  steps_identified (by decide) Sample.conforms.toFits 0

end Lifter

end CodeLift
