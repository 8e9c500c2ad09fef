import CodeLift.Proofs.Annotation
import CodeLift.Proofs.Digits
import CodeLift.Proofs.Transcript

/-!
# Assembly stands where instructions begin

The line of an instruction is noted on the operation that its record points at. Since a record
points at the start of its own operations, however often its block was cut, every start of an
instruction has the line of that instruction, and no other operation has a note. The address can be
read back from a line, and then the text or the bytes. Further notes on the function change its
notes only, and leave what lifting with the last kind would give.
-/

namespace CodeLift

/-! ## Noting lines -/

/-- The notes with the lines of records put where the records point. -/
def Record.noteLines (rs : List Record) (notes : Array (Option String)) : Array (Option String) :=
  rs.foldl (fun notes r => notes.setIfInBounds r.firstOp (some r.line)) notes

namespace Record

variable {r : Record} {rs : List Record}

theorem getElem?_noteLines_of_ne {k : Nat} (h : ∀ r ∈ rs, r.firstOp ≠ k)
    (notes : Array (Option String)) : (noteLines rs notes)[k]? = notes[k]? := by
  induction rs generalizing notes with
  | nil => rfl
  | cons s rs ih =>
    have hs : s.firstOp ≠ k := h s List.mem_cons_self
    rw [noteLines, List.foldl_cons]
    exact (ih (fun r hr => h r (List.mem_cons_of_mem _ hr)) _).trans
      (Array.getElem?_setIfInBounds_ne hs)

/-- Records that point at different operations do not overwrite each other's lines. -/
theorem getElem?_noteLines (hp : rs.Pairwise fun r s => r.firstOp < s.firstOp) (hr : r ∈ rs)
    {notes : Array (Option String)} (hlt : r.firstOp < notes.size) :
    (noteLines rs notes)[r.firstOp]? = some (some r.line) := by
  induction rs generalizing notes with
  | nil => cases hr
  | cons s rs ih =>
    obtain ⟨hs, hrest⟩ := List.pairwise_cons.1 hp
    rw [noteLines, List.foldl_cons]
    rcases List.mem_cons.1 hr with rfl | hr
    · have hlater : ∀ q ∈ rs, q.firstOp ≠ r.firstOp := fun q hq => Nat.ne_of_gt (hs q hq)
      exact (getElem?_noteLines_of_ne hlater _).trans (Array.getElem?_setIfInBounds_self_of_lt hlt)
    · exact ih hrest hr (by rwa [Array.size_setIfInBounds])

theorem line_ne_empty (r : Record) : r.line ≠ "" := by
  intro h
  have hlist := congrArg String.toList h
  simp [line] at hlist

/-- What stands before the first colon of a line is the address. -/
theorem head?_pieces_line (r : Record) :
    (Text.pieces (· == ':') r.line.toList).head? = some r.addr.text.toList := by
  have haddr : ∀ c ∈ r.addr.text.toList, (c == ':') = false :=
    fun c hc => Text.beq_of_isAlphanum (Text.isAlphanum_of_mem_hex hc) (by decide)
  rw [line, String.toList_append, String.toList_append, List.append_assoc]
  exact congrArg List.head? (Text.pieces_append haddr rfl _)

/-- A line tells the address of its instruction, and then the text, or the bytes where there is
none. -/
theorem line_inj {r s : Record} (h : r.line = s.line) :
    r.addr = s.addr ∧ (∀ t u, r.text = some t → s.text = some u → t = u) ∧
      (r.text = none → s.text = none → r.bytes = s.bytes) := by
  have haddr : r.addr = s.addr := by
    have hfirst := r.head?_pieces_line
    rw [h, head?_pieces_line, Option.some_inj] at hfirst
    exact (Address.text_inj (String.toList_inj.1 hfirst)).symm
  refine ⟨haddr, ?_, ?_⟩
  · intro t u ht hu
    rwa [line_of_text_eq_some ht, line_of_text_eq_some hu, haddr, String.append_right_inj] at h
  · intro hr hs
    rw [line_of_text_eq_none hr, line_of_text_eq_none hs, haddr, String.append_right_inj,
      String.append_right_inj] at h
    exact Text.intercalate_hexByte_inj h

end Record

/-! ## The notes on a block -/

/-- The notes show the assembly of the block. -/
structure Notes.ShowAssembly (n : Notes) (b : Block) : Prop where
  /-- There is a place for a note on every operation. -/
  size : n.ops.size = b.ops.length
  /-- The starts of instructions have notes, and nothing else has. -/
  noted_iff : ∀ k : Nat, (∃ text, n.ops[k]? = some (some text)) ↔
    ∃ pc size, b.ops[k]? = some (.insnStart pc size)
  /-- The note is the line of the record that has the address of the instruction. -/
  line : ∀ (k : Nat) pc size, b.ops[k]? = some (.insnStart pc size) →
    ∃ r ∈ b.insns, r.addr = pc ∧ n.ops[k]? = some (some r.line) ∧
      ∀ s ∈ b.insns, s.addr = pc → s = r
  /-- The text on the block has the lines of its records, and then one for code that could not be
  decoded. -/
  text : n.text = "\n".intercalate (b.insns.map Record.line ++
    if b.isUnreachable then [b.stop.text ++ ": <invalid>"] else [])
  /-- It is never empty. -/
  text_ne : n.text ≠ ""

theorem intercalate_ne_empty {separator : String} {lines : List String} (hne : lines ≠ [])
    (h : ∀ line ∈ lines, line ≠ "") : separator.intercalate lines ≠ "" := by
  cases lines with
  | nil => exact absurd rfl hne
  | cons line lines =>
    have hline : line ≠ "" := h line List.mem_cons_self
    cases lines with
    | nil => rwa [String.intercalate_singleton]
    | cons next lines =>
      intro he
      rw [String.intercalate_cons_cons] at he
      have hlist := congrArg String.toList he
      simp [hline] at hlist

namespace Block

variable {b : Block} {n : Notes}

theorem of_assemblyNotes (h : b.assemblyNotes = .ok n) :
    n.text = "\n".intercalate b.assemblyLines ∧
      n.ops = Record.noteLines b.insns (Array.replicate b.ops.length none) := by
  simp only [assemblyNotes] at h
  split at h
  · cases h
    exact ⟨rfl, rfl⟩
  · cases h

theorem assemblyText_ne_empty (h : b.insns = [] → b.isUnreachable = true) :
    "\n".intercalate b.assemblyLines ≠ "" := by
  apply intercalate_ne_empty
  · intro hnil
    obtain ⟨hlines, hmark⟩ := List.append_eq_nil_iff.1 hnil
    simp [h (List.map_eq_nil_iff.1 hlines)] at hmark
  · intro line hline
    rcases List.mem_append.1 hline with hline | hline
    · obtain ⟨r, -, rfl⟩ := List.mem_map.1 hline
      exact r.line_ne_empty
    · split at hline
      · rw [List.mem_singleton.1 hline]
        simp
      · cases hline

end Block

namespace Stretch

variable {decode : Address → Except Fault Decoded} {t : Stretch decode}

/-- Every start of an instruction in the block belongs to one record. -/
theorem exists_record_of_start {k : Nat} {pc : Address} {size : UInt8}
    (h : t.block.ops[k]? = some (.insnStart pc size)) :
    ∃ r ∈ t.block.insns, r.addr = pc ∧ k = r.firstOp ∧ ∀ s ∈ t.block.insns, s.addr = pc → s = r := by
  have hmem : pc ∈ t.block.insns.map (·.addr) := by
    rw [map_addr_block_insns, ← filterMap_start?_ops, List.mem_filterMap]
    exact ⟨_, List.mem_of_getElem? h, rfl⟩
  have hnodup : (t.block.insns.map (·.addr)).Nodup := by
    rw [map_addr_block_insns]
    exact t.chain.pairwise.imp fun hlt he => absurd (congrArg UInt64.toNat he) (Nat.ne_of_lt hlt)
  obtain ⟨r, hr, rfl⟩ := List.mem_map.1 hmem
  refine ⟨r, hr, rfl, ((getElem?_block_ops_iff hr k size).1 h).1, ?_⟩
  intro s hs he
  exact List.inj_on_of_nodup_map hnodup hs hr he

theorem showAssembly {b : Block} {n : Notes} (hinsns : b.insns = t.block.insns)
    (hops : b.ops = t.block.ops) (hnotes : b.assemblyNotes = .ok n) : n.ShowAssembly b := by
  obtain ⟨htext, hnoted⟩ := Block.of_assemblyNotes hnotes
  have hline : ∀ r ∈ b.insns, n.ops[r.firstOp]? = some (some r.line) := by
    intro r hr
    have hlt : r.firstOp < b.ops.length := by
      rw [hinsns] at hr
      rw [hops]
      exact firstOp_lt hr
    have hpairwise : b.insns.Pairwise fun r s => r.firstOp < s.firstOp := by
      rw [hinsns]
      exact Record.pairwise_firstOp 0 t.insns
    rw [hnoted]
    exact Record.getElem?_noteLines hpairwise hr (by rwa [Array.size_replicate])
  have hstart : ∀ {k : Nat} {pc size}, b.ops[k]? = some (.insnStart pc size) →
      ∃ r ∈ b.insns, r.addr = pc ∧ k = r.firstOp ∧ ∀ s ∈ b.insns, s.addr = pc → s = r := by
    rw [hops, hinsns]
    exact exists_record_of_start
  refine ⟨Block.size_of_assemblyNotes hnotes, ?_, ?_, htext, ?_⟩
  · -- noted_iff
    intro k
    constructor
    · rintro ⟨text, hk⟩
      by_cases hrecord : ∃ r ∈ b.insns, r.firstOp = k
      · obtain ⟨r, hr, rfl⟩ := hrecord
        refine ⟨r.addr, r.size, ?_⟩
        rw [hinsns] at hr
        rw [hops]
        exact (getElem?_block_ops_iff hr _ _).2 ⟨rfl, rfl⟩
      · push Not at hrecord
        rw [hnoted, Record.getElem?_noteLines_of_ne hrecord, Array.getElem?_replicate] at hk
        split at hk <;> cases hk
    · rintro ⟨pc, size, hk⟩
      obtain ⟨r, hr, -, rfl, -⟩ := hstart hk
      exact ⟨r.line, hline r hr⟩
  · -- line
    intro k pc size hk
    obtain ⟨r, hr, haddr, rfl, hunique⟩ := hstart hk
    exact ⟨r, hr, haddr, hline r hr, hunique⟩
  · -- text_ne
    rw [htext]
    apply Block.assemblyText_ne_empty
    have hmark := t.transcribes.mark_of_nil
    rwa [Block.isUnreachable, hinsns, hops]

end Stretch

/-! ## The notes on a function -/

namespace Lifter

/-- In a function that is lifted with assembly, the notes on every block show its assembly. Notes of
any further kinds in a row give the function that is lifted with the last of them, whose code is the
same. -/
theorem assembly_noted {l : Lifter} {image : ByteArray} (hfit : image.size < Address.count)
    (hf : Fits (l.decoder.decodeOne image) image.size) (entry : Address) :
    ∃ r, (l.withNotes .assembly).lift image entry = .ok r ∧
      (∀ b ∈ r.graph.blocks, ∃ n, b.notes = some n ∧ n.ShowAssembly b) ∧
      ∀ kinds : List NoteKind, ∃ g u, kinds.foldlM FlowGraph.annotate r.graph = .ok g ∧
        (l.withNotes (kinds.getLast?.getD .assembly)).lift image entry = .ok u ∧ u.graph = g ∧
        g.bare = r.graph.bare := by
  obtain ⟨g, vs, -, hblocks, hlift⟩ := l.lift_withNotes hfit hf entry
  choose r hr hg using hlift
  refine ⟨r .assembly, hr .assembly, ?_, ?_⟩
  · intro b hb
    obtain ⟨c, hc, hb⟩ := FlowGraph.exists_of_mem_annotate (hg .assembly) hb
    obtain ⟨notes, hnotes, rfl⟩ := Block.of_annotate hb
    obtain ⟨n, hn, hsome⟩ := bind_eq_ok.1 hnotes
    cases hsome
    rw [hblocks] at hc
    obtain ⟨t, -, rfl⟩ := List.mem_map.1 hc
    exact ⟨n, rfl, t.showAssembly rfl rfl hn⟩
  · intro kinds
    refine ⟨_, r (kinds.getLast?.getD .assembly), FlowGraph.foldlM_annotate hg kinds .assembly,
      hr _, rfl, ?_⟩
    rw [FlowGraph.bare_of_annotate (hg _), FlowGraph.bare_of_annotate (hg .assembly)]

theorem assembly_noted_sample :
    ∃ r, (Sample.lifter.withNotes .assembly).lift Sample.image 0 = .ok r ∧
      (∀ b ∈ r.graph.blocks, ∃ n, b.notes = some n ∧ n.ShowAssembly b) ∧
      ∀ kinds : List NoteKind, ∃ g u, kinds.foldlM FlowGraph.annotate r.graph = .ok g ∧
        (Sample.lifter.withNotes (kinds.getLast?.getD .assembly)).lift Sample.image 0 = .ok u ∧
        u.graph = g ∧ g.bare = r.graph.bare :=
  assembly_noted (by decide) Sample.conforms.toFits 0

end Lifter

end CodeLift
