import CodeLift.Listing.Basic
import CodeLift.Proofs.Commands
import CodeLift.Proofs.Transcript

/-!
# Nothing faults between the image and the listing

A fault is an index out of range, a difference below zero, a second block at an entry, a word that
overflows, or a block that a listing does not expect. With a decoder that fits the region none of
them occurs while code is discovered, while the flow graph is drawn, while notes are made on it and
while it is written. Writing does not even depend on the function: its commands create the blocks in
order before anything else.
-/

namespace CodeLift

/-! ## Listings -/

namespace Listing

/-- The block `n` may be created next. -/
def Awaits (n : Nat) : Listing → Prop
  | text t => n = t.paragraphs.size
  | document _ => True
  | records _ => True

theorem awaits_empty (format : OutputFormat) : (empty format).Awaits 0 := by
  cases format with
  | text => rfl
  | json => trivial
  | jsonLines => trivial

theorem exists_apply_create {l : Listing} {n : Nat} (h : l.Awaits n) (entry : Address) :
    ∃ l', l.apply (.createBlock n entry) = .ok l' ∧ l'.Awaits (n + 1) := by
  cases l with
  | text t =>
    have hsize : n = t.paragraphs.size := h
    refine ⟨text ⟨t.paragraphs.push { entry }⟩, ?_, ?_⟩
    · rw [apply, TextListing.apply, if_pos hsize]
      rfl
    · show n + 1 = (t.paragraphs.push { entry }).size
      rw [Array.size_push, hsize]
  | document d => exact ⟨_, rfl, trivial⟩
  | records r => exact ⟨_, rfl, trivial⟩

theorem exists_apply_fill {c : Command} (hc : c.Fills) (l : Listing) :
    ∃ l', l.apply c = .ok l' := by
  cases l with
  | document d => exact ⟨_, rfl⟩
  | records r => exact ⟨_, rfl⟩
  | text t =>
    cases c with
    | createBlock id entry => exact False.elim hc
    | append id op => exact ⟨_, rfl⟩
    | branch id edge => exact ⟨_, rfl⟩
    | note id op text =>
      cases op with
      | none => exact ⟨_, rfl⟩
      | some index => exact ⟨_, rfl⟩

theorem applyAll_append {l m : Listing} {cs : List Command} (h : l.applyAll cs = .ok m)
    (es : List Command) : l.applyAll (cs ++ es) = m.applyAll es := by
  induction cs generalizing l with
  | nil =>
    cases h
    rfl
  | cons c cs ih =>
    obtain ⟨l₁, hc, h⟩ := bind_eq_ok.1 h
    rw [List.cons_append, applyAll, hc]
    exact ih h

theorem exists_applyAll_create (bs : List Block) {l : Listing} {n : Nat} (h : l.Awaits n) :
    ∃ l', l.applyAll (FlowGraph.creates n bs) = .ok l' := by
  induction bs generalizing l n with
  | nil => exact ⟨l, rfl⟩
  | cons b bs ih =>
    obtain ⟨l₁, hl, h₁⟩ := exists_apply_create h b.entry
    rw [FlowGraph.creates_cons, applyAll, hl]
    exact ih h₁

theorem exists_applyAll_fill {cs : List Command} (h : ∀ c ∈ cs, c.Fills) (l : Listing) :
    ∃ l', l.applyAll cs = .ok l' := by
  induction cs generalizing l with
  | nil => exact ⟨l, rfl⟩
  | cons c cs ih =>
    obtain ⟨l₁, hl⟩ := exists_apply_fill (h c List.mem_cons_self) l
    rw [applyAll, hl]
    exact ih (fun e he => h e (List.mem_cons_of_mem _ he)) l₁

/-- Every listing that has no blocks yet takes all commands of a function. -/
theorem exists_write {l : Listing} (h : l.Awaits 0) (g : FlowGraph) : ∃ x, l.write g = .ok x := by
  obtain ⟨l₁, h₁⟩ := exists_applyAll_create g.blocks.toList h
  obtain ⟨l₂, h₂⟩ := exists_applyAll_fill
    (fun c (hc : c ∈ FlowGraph.fills 0 g.blocks.toList) => (FlowGraph.of_mem_fills hc).1) l₁
  have hall : l.applyAll g.commands = .ok l₂ := by
    rw [FlowGraph.commands_eq, applyAll_append h₁, h₂]
  rw [write, hall]
  exact ⟨_, rfl⟩

end Listing

/-- A function can be written in every format. -/
theorem OutputFormat.exists_render (format : OutputFormat) (g : FlowGraph) :
    ∃ text, format.render g = .ok text := by
  obtain ⟨x, hx⟩ := Listing.exists_write (Listing.awaits_empty format) g
  rw [render, hx]
  exact ⟨_, rfl⟩

/-! ## Drawing the edges -/

/-- When the map is finished, every edge is drawn at one of its blocks. -/
def CodeMap.EdgesInRange (m : CodeMap) : Prop :=
  ∃ m' cuts blocks resolutions,
    m.splitInterior (m.exits.filterMap (·.target)) = .ok (m', cuts) ∧
    m'.slots.mapM m'.blockIn = .ok blocks ∧
    m'.exits.mapM (m'.resolve m'.numbering) = .ok resolutions ∧
    ∀ source e, .edge source e ∈ resolutions → source < blocks.length

theorem Discovery.Inv.edgesInRange {s : Scanner} {size : Nat} {entry : Address} {d : Discovery}
    {ts : List (Stretch s.decode)} (h : d.Inv s size entry [] ts) (hw : d.waiting = 0) :
    d.map.EdgesInRange := by
  obtain ⟨m, cuts, us, hm, hshows, -⟩ := h.complete hw
  have hcharted := hshows.charted
  refine ⟨m, cuts, _, _, hm, hcharted.blocks_eq, hcharted.resolve_exits, ?_⟩
  intro source e he
  obtain ⟨x, -, he⟩ := List.mem_map.1 he
  exact hcharted.lt_of_outcome he

/-! ## The whole way -/

theorem FlowGraph.DrawsBlocks.firstOp_lt {decode : Address → Except Fault Decoded} {g : FlowGraph}
    {policy : ReturnPolicy} {vs : List (Stretch decode)} (h : g.DrawsBlocks policy vs) :
    ∀ b ∈ g.blocks, ∀ r ∈ b.insns, r.firstOp < b.ops.length := by
  intro b hb r hr
  obtain ⟨t, -, notes, rfl⟩ := h.exists_stretch hb
  exact Stretch.firstOp_lt hr

namespace Lifter

/-- Lifting with a decoder that fits the region does not fault, nor does drawing the edges go
outside the blocks. The function can be written in every format, as it is and with notes of every
kind. -/
theorem pipeline_never_faults {l : Lifter} {image : ByteArray} (hfit : image.size < Address.count)
    (hf : Fits (l.decoder.decodeOne image) image.size) (entry : Address) :
    ∃ d r, Discovery.discover (l.scanner image) image.size entry = .ok d ∧ d.map.EdgesInRange ∧
      l.lift image entry = .ok r ∧
      (∀ format : OutputFormat, ∃ text, format.render r.graph = .ok text) ∧
      ∀ kind, ∃ g, r.graph.annotate kind = .ok g ∧
        ∀ format : OutputFormat, ∃ text, format.render g = .ok text := by
  obtain ⟨d, ts, hd, hinv, hw⟩ := l.exists_discovery hfit hf entry
  obtain ⟨r, vs, hr, -, -, hdraws, -⟩ := l.lift_blocks hfit hf entry
  refine ⟨d, r, hd, hinv.edgesInRange hw, hr, fun format => format.exists_render r.graph, ?_⟩
  intro kind
  obtain ⟨notes, hnotes⟩ := FlowGraph.annotate_eq_ok hdraws.firstOp_lt kind
  exact ⟨_, hnotes, fun format => format.exists_render _⟩

theorem pipeline_never_faults_sample :
    ∃ d r, Discovery.discover (Sample.lifter.scanner Sample.image) Sample.image.size 0 = .ok d ∧
      d.map.EdgesInRange ∧ Sample.lifter.lift Sample.image 0 = .ok r ∧
      (∀ format : OutputFormat, ∃ text, format.render r.graph = .ok text) ∧
      ∀ kind, ∃ g, r.graph.annotate kind = .ok g ∧
        ∀ format : OutputFormat, ∃ text, format.render g = .ok text :=
  pipeline_never_faults (by decide) Sample.conforms.toFits 0

end Lifter

end CodeLift
