import CodeLift.Lift
import CodeLift.Proofs.Completion
import CodeLift.Proofs.Diagnostics

/-!
# What lifting returns

Whatever the order in which addresses are taken, a discovery that is over is turned into the graph
of complete stretches in the order of their entries, `FlowGraph.ofStretches`. Notes can be made on
it without a fault, and change nothing else. The blocks need only a decoder that fits the region;
for the diagnostics, its failures have to name the addresses asked for as well.
-/

namespace CodeLift

variable {decode : Address → Except Fault Decoded} {policy : ReturnPolicy}

/-- The flow graph of stretches, given in the order of their entries. -/
def FlowGraph.ofStretches (policy : ReturnPolicy) (entry : Address) (vs : List (Stretch decode)) :
    FlowGraph where
  entry
  blocks := (vs.map (Stretch.drawn policy (vs.map Stretch.entry))).toArray
  diagnostics := inOrder (vs.flatMap (Stretch.problems policy (vs.map Stretch.entry)))

/-- The blocks of `g` are those of the stretches `vs` with their edges, whatever the notes on them.
-/
def FlowGraph.DrawsBlocks (g : FlowGraph) (policy : ReturnPolicy) (vs : List (Stretch decode)) :
    Prop :=
  ∃ notes : Stretch decode → Option Notes, g.blocks.toList = vs.map fun t =>
    { t.drawn policy (vs.map Stretch.entry) with notes := notes t }

/-- The graph `g` has the blocks of the stretches `vs` and their problems. -/
structure FlowGraph.Draws (g : FlowGraph) (policy : ReturnPolicy) (vs : List (Stretch decode)) :
    Prop where
  /-- The blocks are those of the stretches. -/
  blocks : g.DrawsBlocks policy vs
  /-- The diagnostics are their problems. -/
  diagnostics : g.diagnostics =
    inOrder (vs.flatMap (Stretch.problems policy (vs.map Stretch.entry)))

/-- Notes can be made on a block whose records point at operations. -/
theorem Block.exists_notes {b : Block} (h : ∀ r ∈ b.insns, r.firstOp < b.ops.length)
    (kind : NoteKind) : ∃ notes, b.notesOf kind = .ok notes := by
  cases kind with
  | none => exact ⟨none, rfl⟩
  | trace => exact ⟨_, rfl⟩
  | assembly =>
    have hall : ∀ r ∈ b.insns, decide (r.firstOp < b.ops.length) = true :=
      fun r hr => decide_eq_true (h r hr)
    simp only [Block.notesOf, Block.assemblyNotes, List.all_eq_true.2 hall, if_true]
    exact ⟨_, rfl⟩

namespace FlowGraph

/-- Notes can be made on a function if its records point at operations. They change nothing else. -/
theorem annotate_eq_ok {g : FlowGraph}
    (h : ∀ b ∈ g.blocks, ∀ r ∈ b.insns, r.firstOp < b.ops.length) (kind : NoteKind) :
    ∃ notes : Block → Option Notes, g.annotate kind = .ok { g with
      blocks := (g.blocks.toList.map fun b => { b with notes := notes b }).toArray
      noteKind := kind } := by
  have hex : ∀ b : Block, ∃ notes, b ∈ g.blocks.toList → b.notesOf kind = .ok notes := by
    intro b
    by_cases hb : b ∈ g.blocks.toList
    · obtain ⟨notes, hn⟩ := Block.exists_notes (h b (Array.mem_toList_iff.1 hb)) kind
      exact ⟨notes, fun _ => hn⟩
    · exact ⟨none, fun hm => absurd hm hb⟩
  choose notes hnotes using hex
  have hblocks : g.blocks.toList.mapM (·.annotate kind) =
      .ok (g.blocks.toList.map fun b => { b with notes := notes b }) := by
    refine mapM_eq_ok ?_
    intro b hb
    simp only [Block.annotate, hnotes b hb, bind, Except.bind, pure, Except.pure]
  refine ⟨notes, ?_⟩
  simp only [annotate, hblocks, bind, Except.bind, pure, Except.pure]

/-- Notes on the graph of stretches change nothing but themselves. -/
theorem exists_annotate (policy : ReturnPolicy) (entry : Address) (vs : List (Stretch decode))
    (ds : List Diagnostic) (kind : NoteKind) :
    ∃ g, FlowGraph.annotate { ofStretches policy entry vs with diagnostics := ds } kind = .ok g ∧
      g.DrawsBlocks policy vs ∧ g.diagnostics = ds := by
  have hrecords : ∀ b ∈ (ofStretches policy entry vs).blocks, ∀ r ∈ b.insns,
      r.firstOp < b.ops.length := by
    intro b hb r hr
    rw [← Array.mem_toList_iff] at hb
    obtain ⟨t, -, rfl⟩ := List.mem_map.1 hb
    exact Stretch.firstOp_lt hr
  obtain ⟨notes, hnotes⟩ := annotate_eq_ok
    (g := { ofStretches policy entry vs with diagnostics := ds }) hrecords kind
  refine ⟨_, hnotes, ⟨fun t => notes (t.drawn policy (vs.map Stretch.entry)), ?_⟩, rfl⟩
  simp only [ofStretches, List.map_map]
  rfl

namespace Draws

variable {g : FlowGraph} {vs : List (Stretch decode)}

/-- What does not depend on notes can be looked for among the stretches. -/
theorem exists_iff (h : g.Draws policy vs) {P : Block → Prop}
    (hP : ∀ b notes, P { b with notes } ↔ P b) :
    (∃ b ∈ g.blocks, P b) ↔ ∃ t ∈ vs, P (t.drawn policy (vs.map Stretch.entry)) := by
  obtain ⟨notes, hblocks⟩ := h.blocks
  have hmem : ∀ b, b ∈ g.blocks ↔ b ∈ g.blocks.toList := fun b => Array.mem_toList_iff.symm
  simp only [hmem, hblocks, List.mem_map]
  constructor
  · rintro ⟨_, ⟨t, ht, rfl⟩, hp⟩
    exact ⟨t, ht, (hP _ _).1 hp⟩
  · rintro ⟨t, ht, hp⟩
    exact ⟨_, ⟨t, ht, rfl⟩, (hP _ _).2 hp⟩

theorem map_entry (h : g.Draws policy vs) :
    g.blocks.toList.map (·.entry) = vs.map Stretch.entry := by
  obtain ⟨notes, hblocks⟩ := h.blocks
  rw [hblocks, List.map_map]
  rfl

/-- Where a stretch begins, the number that its block is looked up by leads to a block. -/
theorem exists_block_at (h : g.Draws policy vs) {c : Address} (hc : Begins vs c) :
    ∃ id b, (vs.map Stretch.entry).idxOf? c = some id ∧ g.blocks[id]? = some b ∧ b.entry = c := by
  obtain ⟨id, hid⟩ := Option.isSome_iff_exists.1 (List.isSome_idxOf?.2 (begins_iff_mem.1 hc))
  obtain ⟨hlt, hget, -⟩ := List.idxOf?_eq_some_iff.1 hid
  have hentry : (g.blocks.toList.map (·.entry))[id]? = some c := by
    rw [h.map_entry, List.getElem?_eq_getElem hlt, hget]
  rw [List.getElem?_map, Array.getElem?_toList] at hentry
  obtain ⟨b, hb, he⟩ := Option.map_eq_some_iff.1 hentry
  exact ⟨id, b, hid, hb, he⟩

end Draws

theorem DrawsBlocks.exists_stretch {g : FlowGraph} {vs : List (Stretch decode)}
    (h : g.DrawsBlocks policy vs) {b : Block} (hb : b ∈ g.blocks) :
    ∃ t ∈ vs, ∃ notes, b = { t.drawn policy (vs.map Stretch.entry) with notes } := by
  obtain ⟨notes, hblocks⟩ := h
  rw [← Array.mem_toList_iff, hblocks] at hb
  obtain ⟨t, ht, rfl⟩ := List.mem_map.1 hb
  exact ⟨t, ht, _, rfl⟩

end FlowGraph

/-! ## The end of a discovery -/

/-- The flow graph of a discovery from `entry` that is over, with notes. -/
def Discovery.conclude (d : Discovery) (entry : Address) (kind : NoteKind) :
    Except Fault FlowGraph := do
  let (graph, _) ← d.map.finish entry d.diagnostics.reverse
  graph.annotate kind

section

variable {s : Scanner} {size : Nat} {entry : Address}

/-- Finishing a discovery in which nothing waits any more does not fault, and the graph is that of
complete stretches, for whose addresses the decoder has been asked. If failures are about the
addresses asked for, then the diagnostics, too, do not depend on the order of discovery. -/
theorem Discovery.Inv.finish {d : Discovery} {ts : List (Stretch s.decode)}
    (h : d.Inv s size entry [] ts) (hw : d.waiting = 0) :
    ∃ vs ds events, Complete s size entry vs ∧ Ascending vs ∧
      (attempts d.events).Perm (vs.flatMap Stretch.held) ∧
      d.map.finish entry d.diagnostics.reverse =
        .ok ({ FlowGraph.ofStretches s.policy entry vs with diagnostics := ds }, events) ∧
      (Conforms s.decode size →
        ds = inOrder (vs.flatMap (Stretch.problems s.policy (vs.map Stretch.entry)))) := by
  obtain ⟨m, cuts, us, hm, hshows, hcomplete, hdiag, hasked⟩ := h.complete hw
  obtain ⟨vs, hn⟩ := hshows.exists_numbers
  obtain ⟨events, hg⟩ := hshows.toFlowGraph hn entry d.diagnostics.reverse
  refine ⟨vs, inOrder (d.diagnostics.reverse ++
      m.exits.filterMap (Exit.problem? (vs.map Stretch.entry))), cuts ++ events,
    hcomplete.of_perm hn.perm.symm, hn.ascending, hasked.trans (hn.perm.flatMap_right _).symm,
    ?_, ?_⟩
  · simp only [CodeMap.finish, hm, hg, bind, Except.bind, pure, Except.pure]
    rfl
  · intro hc
    exact hshows.inOrder_problems hc hn ((List.reverse_perm _).trans hdiag) (vs.map Stretch.entry)

theorem Discovery.Inv.conclude (hc : Conforms s.decode size) {d : Discovery}
    {ts : List (Stretch s.decode)} (h : d.Inv s size entry [] ts) (hw : d.waiting = 0)
    (kind : NoteKind) :
    ∃ vs, Complete s size entry vs ∧ Ascending vs ∧
      d.conclude entry kind = (FlowGraph.ofStretches s.policy entry vs).annotate kind := by
  obtain ⟨vs, ds, events, hcomplete, hasc, -, hg, hds⟩ := h.finish hw
  refine ⟨vs, hcomplete, hasc, ?_⟩
  rw [Discovery.conclude, hg, hds hc]
  rfl

end

namespace Lifter

variable {l : Lifter} {image : ByteArray} {entry : Address}

/-- Lifting is discovery in the order of the worklists, and then its conclusion. The decoder is
asked during discovery only. -/
theorem lift_eq_ok {d : Discovery} {graph : FlowGraph}
    (hd : Discovery.discover (l.scanner image) image.size entry = .ok d)
    (hg : d.conclude entry l.config.noteKind = .ok graph) :
    ∃ r, l.lift image entry = .ok r ∧ r.graph = graph ∧
      attempts r.events = (attempts d.events).reverse := by
  obtain ⟨⟨g, closing⟩, hfin, hg⟩ := bind_eq_ok.1 hg
  have hann : g.annotate l.config.noteKind = .ok graph := hg
  have hquiet := attempts_of_quiet (CodeMap.quiet_of_finish hfin)
  rw [lift, hd]
  simp only [hfin, hann, bind, Except.bind, pure, Except.pure]
  refine ⟨_, rfl, rfl, ?_⟩
  simp only [List.cons_append]
  show attempts ((d.events.reverse ++ closing) ++ _) = _
  rw [attempts_append, attempts_append, attempts_reverse, hquiet, List.append_nil]
  exact List.append_nil _

/-- Discovery with a decoder that fits the region ends without a fault. -/
theorem exists_discovery (hfit : image.size < Address.count)
    (hf : Fits (l.decoder.decodeOne image) image.size) (entry : Address) :
    ∃ d ts, Discovery.discover (l.scanner image) image.size entry = .ok d ∧
      d.Inv (l.scanner image) image.size entry [] ts ∧ d.waiting = 0 := by
  have hstart := Discovery.Inv.start (l.scanner image) image.size entry
  obtain ⟨d, hd, hsteps, hw⟩ := hstart.run hf hfit
  obtain ⟨ts, hinv⟩ := hstart.steps hf hfit hsteps
  exact ⟨d, ts, hd, hinv, hw⟩

/-- Lifting never faults with a decoder that fits the region. The blocks are those of complete
stretches, and the decoder is asked for each address that they hold once. -/
theorem lift_blocks (hfit : image.size < Address.count)
    (hf : Fits (l.decoder.decodeOne image) image.size) (entry : Address) :
    ∃ (r : Lifted) (vs : List (Stretch (l.decoder.decodeOne image))), l.lift image entry = .ok r ∧
      Complete (l.scanner image) image.size entry vs ∧ Ascending vs ∧
      r.graph.DrawsBlocks l.policy vs ∧ (attempts r.events).Perm (vs.flatMap Stretch.held) := by
  obtain ⟨d, ts, hd, hinv, hw⟩ := l.exists_discovery hfit hf entry
  obtain ⟨vs, ds, events, hcomplete, hasc, hasked, hg, -⟩ := hinv.finish hw
  obtain ⟨g, hann, hdraws, -⟩ := FlowGraph.exists_annotate l.policy entry vs ds l.config.noteKind
  have hconclude : d.conclude entry l.config.noteKind = .ok g := by
    rw [Discovery.conclude, hg]
    exact hann
  obtain ⟨r, hr, rfl, hevents⟩ := lift_eq_ok hd hconclude
  refine ⟨r, vs, hr, hcomplete, hasc, hdraws, ?_⟩
  rw [hevents]
  exact (List.reverse_perm _).trans hasked

/-- Lifting code of a conforming decoder never faults, and returns the graph of complete stretches.
-/
theorem lift_spec (hfit : image.size < Address.count)
    (hc : Conforms (l.decoder.decodeOne image) image.size) (entry : Address) :
    ∃ (r : Lifted) (vs : List (Stretch (l.decoder.decodeOne image))), l.lift image entry = .ok r ∧
      Complete (l.scanner image) image.size entry vs ∧ Ascending vs ∧
      (FlowGraph.ofStretches l.policy entry vs).annotate l.config.noteKind = .ok r.graph ∧
      r.graph.Draws l.policy vs := by
  obtain ⟨d, ts, hd, hinv, hw⟩ := l.exists_discovery hfit hc.toFits entry
  obtain ⟨vs, hcomplete, hasc, hg⟩ := hinv.conclude hc hw l.config.noteKind
  obtain ⟨g, hann, hdraws, hdiag⟩ := FlowGraph.exists_annotate l.policy entry vs
    (FlowGraph.ofStretches l.policy entry vs).diagnostics l.config.noteKind
  obtain ⟨r, hr, rfl, -⟩ := lift_eq_ok hd (hg.trans hann)
  exact ⟨r, vs, hr, hcomplete, hasc, hann, hdraws, hdiag⟩

end Lifter

/-! ## A small program

Four bytes: a step, a conditional jump to the last byte, which is no code, and a jump out of the
image. -/

namespace Sample

def image : ByteArray := ⟨#[0, 1, 2, 3]⟩

def table : List (Address × Decoded) :=
  [(0, .ok { addr := 0, size := 1, ops := [{ opcode := "step" }], bytes := [0] }),
    (1, .ok { addr := 1, size := 1, ops := [.control "branch" (.condJump 3)], bytes := [1] }),
    (2, .ok { addr := 2, size := 1, ops := [.control "jump" (.jump 9)], bytes := [2] })]

def lifter : Lifter := { decoder := .scripted table }

theorem conforms : Conforms (lifter.decoder.decodeOne image) image.size :=
  Decoder.scripted_conforms (by decide)

theorem reach_branch : Reach (lifter.decoder.decodeOne image) lifter.policy image.size 0 1 :=
  .falls .entry ⟨_, ⟨rfl, by decide, by decide⟩, rfl, rfl⟩

theorem branch_transfers : Transfers (lifter.decoder.decodeOne image) lifter.policy 1 3 :=
  ⟨_, .condJump 3, 2, ⟨1, .conditional, some 3⟩, ⟨rfl, by decide, by decide⟩, rfl, rfl,
    by simp [exitsFor], rfl⟩

end Sample

end CodeLift
