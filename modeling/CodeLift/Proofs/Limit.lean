import CodeLift.Proofs.Coverage

/-!
# A limit on the length of blocks refines them

Where a full block is closed depends on the order of discovery, on the boundaries met and on later
cuts. What the limit changes is only where blocks begin: the instructions are the same as without a
limit, and in the region every block that there is without one still begins where it did. A block
that the limit closed goes on to the block behind it. Only at the end of the region there may be
none.

Both functions are compared with the code that can be reached, which knows nothing of a limit.
-/

namespace CodeLift

/-- The record as it would be in a block of its own: its place among the operations is left out. -/
def Record.alone (r : Record) : Record := { r with firstOp := 0 }

namespace FlowGraph

/-- The records of all blocks, wherever they stand. -/
def records (g : FlowGraph) : Set Record := {r | ∃ b ∈ g.blocks, ∃ s ∈ b.insns, s.alone = r}

/-- The graph `g`, made with a limit on the length of blocks, refines the graph `whole` of the same
region of `size` bytes. -/
structure Refines (decode : Address → Except Fault Decoded) (size limit : Nat)
    (g whole : FlowGraph) : Prop where
  /-- No block is longer than the limit. -/
  short : ∀ b ∈ g.blocks, b.insns.length ≤ max limit 1
  /-- The instructions are the same. -/
  records_eq : g.records = whole.records
  /-- Every block in the region still begins where it did. -/
  entries : ∀ b ∈ whole.blocks, b.entry.toNat < size → ∃ c ∈ g.blocks, c.entry = b.entry
  /-- A block without a transfer goes on to the block at its end, and to no other. -/
  onward : ∀ b ∈ g.blocks, b.isUnreachable = false →
    ∀ pc i, b.lastInsn? = some pc → Decodes decode pc i → i.flow = none → b.stop.toNat < size →
      ∃ id c, b.edges = [⟨.fallthrough, some id⟩] ∧ g.blocks[id]? = some c ∧ c.entry = b.stop

end FlowGraph

variable {decode : Address → Except Fault Decoded} {policy : ReturnPolicy}

namespace Stretch

variable {t : Stretch decode}

/-- A stretch without a failure is open if its last instruction has no transfer. -/
theorem open_of_last (hfail : t.failure = none) {pc : Address} {i : Insn}
    (hlast : t.last? = some pc) (hi : Decodes decode pc i) (hflow : i.flow = none) : t.Open := by
  rcases t.end_cases with ⟨f, hf⟩ | ho | ⟨j, hj, flow, hj'⟩
  · exact absurd (hfail.symm.trans hf) (by simp)
  · exact ho
  · have hpc : j.addr = pc := by
      have hj := (exits_of_flow (fun _ _ _ => true) hj hj').1
      exact Option.some.inj (hj.symm.trans hlast)
    have hsame : j = i := (t.decodes hj).unique (hpc ▸ hi)
    rw [hsame, hflow] at hj'
    cases hj'

theorem map_alone_block_insns (t : Stretch decode) :
    t.block.insns.map Record.alone = t.insns.map (Record.ofInsn · 0) :=
  Record.map_ofInsns (fun _ _ => rfl) 0 t.insns

theorem length_block_insns (t : Stretch decode) : t.block.insns.length = t.insns.length :=
  Record.length_ofInsns 0 t.insns

end Stretch

section

variable {s : Scanner} {size : Nat} {entry : Address} {vs : List (Stretch s.decode)} {g : FlowGraph}

/-- The records of the blocks are those of the instructions that can be reached. -/
theorem Complete.records_eq (hf : Fits s.decode size) (h : Complete s size entry vs)
    (hd : g.Draws s.policy vs) :
    g.records = {r | ∃ i, Reach s.decode s.policy size entry i.addr ∧
      Decodes s.decode i.addr i ∧ Record.ofInsn i 0 = r} := by
  ext r
  have hblock : r ∈ g.records ↔ ∃ t ∈ vs, r ∈ t.block.insns.map Record.alone := by
    simp only [FlowGraph.records, Set.mem_ofPred_eq]
    rw [hd.exists_iff fun _ _ => Iff.rfl]
    simp only [List.mem_map]
    rfl
  have hinsn : (∃ t ∈ vs, r ∈ t.block.insns.map Record.alone) ↔
      ∃ i, (∃ t ∈ vs, i ∈ t.insns) ∧ Record.ofInsn i 0 = r := by
    simp only [Stretch.map_alone_block_insns, List.mem_map]
    constructor
    · rintro ⟨t, ht, i, hi, he⟩
      exact ⟨i, ⟨t, ht, hi⟩, he⟩
    · rintro ⟨i, ⟨t, ht, hi⟩, he⟩
      exact ⟨t, ht, i, hi, he⟩
  rw [hblock, hinsn]
  simp only [h.mem_insns_iff hf, and_assoc, Set.mem_ofPred_eq]

/-- A block in which control just goes on has one edge, to the block at its end. -/
theorem Complete.exists_onward (h : Complete s size entry vs) (hd : g.Draws s.policy vs)
    {t : Stretch s.decode} (ht : t ∈ vs) (ho : t.Open) (hlt : t.stop.toNat < size) :
    ∃ id c, (t.drawn s.policy (vs.map Stretch.entry)).edges = [⟨.fallthrough, some id⟩] ∧
      g.blocks[id]? = some c ∧ c.entry = t.stop := by
  obtain ⟨p, -, -, hexits⟩ := ho.exits_eq s.policy
  have hbegins : Begins vs t.stop := h.targets (leadsTo_of_open ht ho) hlt
  obtain ⟨id, c, hid, hc, he⟩ := hd.exists_block_at hbegins
  refine ⟨id, c, ?_, hc, he⟩
  simp only [Stretch.drawn, hexits, List.filterMap_cons, List.filterMap_nil, Exit.edge?, hid,
    Option.map_some]

end

namespace Lifter

/-- The lifter with another limit on the length of blocks. -/
def withLimit (l : Lifter) (limit : Nat) : Lifter :=
  { l with config := { l.config with maxBlockInsns := limit } }

variable {l : Lifter} {image : ByteArray}

/-- A limit on the length of blocks only refines the function that is lifted without one. -/
theorem limit_refines (hfit : image.size < Address.count)
    (hc : Conforms (l.decoder.decodeOne image) image.size) (entry : Address) (limit : Nat)
    {large : Nat} (hlarge : image.size < large) :
    ∃ r whole, (l.withLimit limit).lift image entry = .ok r ∧
      (l.withLimit large).lift image entry = .ok whole ∧
      r.graph.Refines (l.decoder.decodeOne image) image.size limit whole.graph := by
  obtain ⟨r, vs, hr, hvs, -, -, hdraws⟩ := (l.withLimit limit).lift_spec hfit hc entry
  obtain ⟨whole, us, hwhole, hus, -, -, hdraws'⟩ := (l.withLimit large).lift_spec hfit hc entry
  refine ⟨r, whole, hr, hwhole, ?_, ?_, ?_, ?_⟩
  · -- short
    intro b hb
    obtain ⟨t, ht, notes, rfl⟩ := hdraws.blocks.exists_stretch hb
    have hshort : t.insns.length ≤ max limit 1 := hvs.short ht
    show t.block.insns.length ≤ max limit 1
    rwa [t.length_block_insns]
  · -- records_eq
    rw [hvs.records_eq hc.toFits hdraws, hus.records_eq hc.toFits hdraws']
    rfl
  · -- entries
    intro b hb hlt
    obtain ⟨t, ht, notes, rfl⟩ := hdraws'.blocks.exists_stretch hb
    have hlead := (hus.begins_iff hc.toFits hlarge).1 ⟨t, ht, rfl⟩
    have hbegins : Begins vs t.entry := hvs.begins_of_lt hc.toFits hlead hlt
    obtain ⟨id, c, -, hid, he⟩ := hdraws.exists_block_at hbegins
    exact ⟨c, Array.mem_of_getElem? hid, he⟩
  · -- onward
    intro b hb hun pc i hlast hi hflow hlt
    obtain ⟨t, ht, notes, rfl⟩ := hdraws.blocks.exists_stretch hb
    have hfail : t.failure = none := by
      have hsome : t.failure.isSome = false := t.block_isUnreachable.symm.trans hun
      simpa using hsome
    have hpc : t.last? = some pc := t.block_lastInsn?.symm.trans hlast
    exact hvs.exists_onward hdraws ht (Stretch.open_of_last hfail hpc hi hflow) hlt

theorem limit_refines_sample : Sample.image.size < 5 ∧
    ∃ r whole, (Sample.lifter.withLimit 1).lift Sample.image 0 = .ok r ∧
      (Sample.lifter.withLimit 5).lift Sample.image 0 = .ok whole ∧
      r.graph.Refines (Sample.lifter.decoder.decodeOne Sample.image) Sample.image.size 1
        whole.graph :=
  ⟨by decide, limit_refines (by decide) Sample.conforms 0 1 (by decide)⟩

end Lifter

end CodeLift
