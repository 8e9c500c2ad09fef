import CodeLift.Proofs.Filling
import CodeLift.Proofs.Indentation
import CodeLift.Proofs.Records

/-!
# Documents lose nothing

A document is filled by the commands that write a function: chapters are created in the order of the
blocks, and every later command changes the chapter of its block. In the end a chapter shows its
block as it is, each note beside the operation that it is about. Two functions with the same document
have the same blocks, with the same notes on them, and the same words for their problems.
-/

namespace CodeLift

/-! ## Filling a document -/

/-- The chapter of a block. -/
def Block.chapter (b : Block) (id : BlockId) : Chapter where
  id
  entry := b.entry
  note := b.notes.map (·.text)
  ops := (b.ops.zipIdx.map fun p => ⟨p.1, b.noteOn? p.2⟩).toArray
  edges := b.edges

/-- The chapter that a block is created with. -/
def Block.newChapter (b : Block) (id : BlockId) : Chapter := { id, entry := b.entry }

/-- The chapters of a function. -/
def FlowGraph.chapters (g : FlowGraph) : List Chapter :=
  g.blocks.toList.zipIdx.map fun p => p.1.chapter p.2

namespace Chapter

/-- What a command that fills the block does to its chapter. -/
def fill (c : Chapter) : Command → Chapter
  | .createBlock _ _ => c
  | .append _ op => { c with ops := c.ops.push { op } }
  | .branch _ edge => { c with edges := c.edges ++ [edge] }
  | .note _ op text => c.annotate text op

theorem foldl_fill_branch (c : Chapter) (id : BlockId) (edges : List Edge) :
    (edges.map (.branch id)).foldl fill c = { c with edges := c.edges ++ edges } := by
  induction edges generalizing c with
  | nil => simp
  | cons e es ih =>
    rw [List.map_cons, List.foldl_cons, ih]
    simp [fill]

/-- A note on an operation is put on the one that was added last. -/
theorem foldl_fill_opCommands (c : Chapter) (b : Block) (id : BlockId) (op : Op) :
    (b.opCommands id op c.ops.size).foldl fill c =
      { c with ops := c.ops.push ⟨op, b.noteOn? c.ops.size⟩ } := by
  rw [Block.opCommands, List.foldl_cons, fill]
  cases b.noteOn? c.ops.size with
  | none => rfl
  | some text =>
    have hlast : (c.ops.push { op }).modify c.ops.size (fun o => { o with note := some text }) =
        c.ops.push ⟨op, some text⟩ := by
      apply Array.ext'
      rw [Array.toList_modify, Array.toList_push, ← Array.length_toList, modify_append_cons,
        Array.toList_push]
    simp only [Option.map_some, Option.toList_some, List.foldl_cons, List.foldl_nil, fill, annotate,
      hlast]

theorem foldl_fill_ops (b : Block) (id : BlockId) (ops : List Op) (c : Chapter) :
    ((ops.zipIdx c.ops.size).flatMap fun p => b.opCommands id p.1 p.2).foldl fill c =
      { c with ops := c.ops ++
        ((ops.zipIdx c.ops.size).map fun p => ⟨p.1, b.noteOn? p.2⟩).toArray } := by
  induction ops generalizing c with
  | nil => simp
  | cons op ops ih =>
    have hrest := ih { c with ops := c.ops.push ⟨op, b.noteOn? c.ops.size⟩ }
    rw [Array.size_push] at hrest
    rw [List.zipIdx_cons, List.flatMap_cons, List.foldl_append, foldl_fill_opCommands, hrest]
    simp

/-- The commands of a block make its chapter. -/
theorem foldl_fill_commands (b : Block) (id : BlockId) :
    (b.commands id).foldl fill (b.newChapter id) = b.chapter id := by
  have hnote : ((b.notes.map fun n => Command.note id none n.text).toList).foldl fill
      (b.newChapter id) = { b.newChapter id with note := b.notes.map (·.text) } := by
    cases b.notes with
    | none => rfl
    | some n => rfl
  have hops : (b.ops.zipIdx.flatMap fun p => b.opCommands id p.1 p.2).foldl fill
      { b.newChapter id with note := b.notes.map (·.text) } =
      { b.newChapter id with
        note := b.notes.map (·.text)
        ops := (b.ops.zipIdx.map fun p => ⟨p.1, b.noteOn? p.2⟩).toArray } :=
    (foldl_fill_ops b id b.ops _).trans (by simp [Block.newChapter])
  rw [Block.commands, List.foldl_append, List.foldl_append, hnote, hops, foldl_fill_branch]
  rfl

end Chapter

namespace Document

/-- A document keeps a chapter for every block. -/
theorem apply_eq (d : Document) (c : Command) :
    d.apply c = ⟨c.keep (fun id entry => { id, entry }) Chapter.fill d.chapters⟩ := by
  cases c <;> rfl

theorem foldl_apply (cs : List Command) (d : Document) :
    cs.foldl apply d =
      ⟨cs.foldl (Command.keep (fun id entry => { id, entry }) Chapter.fill) d.chapters⟩ := by
  induction cs generalizing d with
  | nil => rfl
  | cons c cs ih => rw [List.foldl_cons, List.foldl_cons, ih, apply_eq]

/-- The commands of a function make its chapters. -/
theorem foldl_apply_commands (g : FlowGraph) :
    g.commands.foldl apply {} = ⟨g.chapters.toArray⟩ := by
  rw [foldl_apply, FlowGraph.foldl_keep_commands, FlowGraph.chapters]
  simp only [← Chapter.foldl_fill_commands]
  rfl

end Document

theorem Listing.applyAll_document (d : Document) (cs : List Command) :
    (document d).applyAll cs = .ok (document (cs.foldl Document.apply d)) := by
  induction cs generalizing d with
  | nil => rfl
  | cons c cs ih =>
    rw [applyAll, apply]
    exact ih (d.apply c)

/-! ## What a document tells -/

/-- The commands that a chapter was filled with. -/
def Chapter.commands (c : Chapter) : List Command :=
  (c.note.map (.note c.id none)).toList ++
    (c.ops.toList.zipIdx.flatMap fun p =>
      .append c.id p.1.op :: (p.1.note.map (.note c.id (some p.2))).toList) ++
    c.edges.map (.branch c.id)

theorem zipIdx_map_zipIdx {α β : Type} (f : α × Nat → β) (l : List α) (n : Nat) :
    ((l.zipIdx n).map f).zipIdx n = (l.zipIdx n).map fun p => (f p, p.2) := by
  induction l generalizing n with
  | nil => rfl
  | cons a l ih => simp only [List.zipIdx_cons, List.map_cons, ih]

theorem Block.commands_chapter (b : Block) (id : BlockId) :
    (b.chapter id).commands = b.commands id := by
  simp only [Chapter.commands, Block.chapter, Block.commands, Block.opCommands, zipIdx_map_zipIdx,
    List.flatMap_map, Option.map_map]
  rfl

namespace FlowGraph

theorem commands_eq_chapters (g : FlowGraph) :
    g.commands = g.chapters.map (fun c => .createBlock c.id c.entry) ++
      g.chapters.flatMap Chapter.commands := by
  simp only [commands, chapters, List.map_map, List.flatMap_map, Block.commands_chapter]
  rfl

theorem commands_eq_of_chapters_eq {f g : FlowGraph} (h : f.chapters = g.chapters) :
    f.commands = g.commands := by
  rw [commands_eq_chapters, commands_eq_chapters, h]

end FlowGraph

/-- The fields of an operation are those of its record, in another order. -/
theorem Op.json_inj {o p : Op} (h : o.json = p.json) : o = p := by
  apply Op.record_inj
  cases o <;> cases p <;> simp_all [json, record]

theorem noteField_inj {m n : Option String} (h : noteField m = noteField n) : m = n := by
  cases m with
  | none =>
    cases n with
    | none => rfl
    | some n => cases h
  | some m =>
    cases n with
    | none => cases h
    | some n => rw [(Json.str.inj (Prod.mk.inj (List.singleton_inj.1 h)).2)]

theorem NotedOp.json_inj {o p : NotedOp} (h : o.json = p.json) : o = p := by
  obtain ⟨op, note⟩ := o
  obtain ⟨op', note'⟩ := p
  obtain ⟨hfields, hnote⟩ := List.append_inj (Json.obj.inj h) rfl
  obtain ⟨hop, -⟩ : op.json = op'.json ∧ op.text = op'.text := by simpa using hfields
  obtain rfl : note = note' := noteField_inj hnote
  rw [Op.json_inj hop]

theorem Edge.json_inj {e e' : Edge} (h : e.json = e'.json) : e = e' := by
  obtain ⟨kind, target⟩ := e
  obtain ⟨kind', target'⟩ := e'
  obtain ⟨hkind, htarget⟩ : kind.text = kind'.text ∧ Json.ofNat? target = Json.ofNat? target' := by
    simpa [json] using h
  rw [EdgeKind.text_inj hkind, Json.ofNat?_inj htarget]

/-- The field of the note, if there is one, stands between fields that are always there. -/
theorem Chapter.json_inj {c d : Chapter} (h : c.json = d.json) : c = d := by
  obtain ⟨id, entry, note, ops, edges⟩ := c
  obtain ⟨id', entry', note', ops', edges'⟩ := d
  obtain ⟨hfirst, hlast⟩ := List.append_inj' (Json.obj.inj h) rfl
  obtain ⟨hhead, hnote⟩ := List.append_inj hfirst rfl
  obtain ⟨rfl, hentry⟩ : id = id' ∧ entry.text = entry'.text := by simpa using hhead
  obtain ⟨hops, hedges⟩ : ops.toList.map NotedOp.json = ops'.toList.map NotedOp.json ∧
      edges.map Edge.json = edges'.map Edge.json := by
    simpa using hlast
  obtain rfl : note = note' := noteField_inj hnote
  rw [Address.text_inj hentry,
    Array.toList_inj.1 (List.map_injective_iff.2 (fun _ _ => NotedOp.json_inj) hops),
    List.map_injective_iff.2 (fun _ _ => Edge.json_inj) hedges]

theorem NoteKind.ofName?_text (k : NoteKind) : ofName? k.text = some k := by
  cases k <;> rfl

theorem NoteKind.text_inj {k l : NoteKind} (h : k.text = l.text) : k = l := by
  have hname := congrArg ofName? h
  rw [ofName?_text, ofName?_text] at hname
  exact Option.some.inj hname

namespace FlowGraph

/-- The fields of the document of a function. -/
def jsonDocument (g : FlowGraph) : Json := Document.json ⟨g.chapters.toArray⟩ g

theorem jsonDocument_inj {f g : FlowGraph} (h : f.jsonDocument = g.jsonDocument) :
    f.entry = g.entry ∧ f.noteKind = g.noteKind ∧ f.isPartial = g.isPartial ∧
      f.chapters = g.chapters ∧
      f.diagnostics.map Diagnostic.message = g.diagnostics.map Diagnostic.message := by
  obtain ⟨hentry, hkind, hpartial, hchapters, hproblems⟩ : f.entry.text = g.entry.text ∧
      f.noteKind.text = g.noteKind.text ∧ f.isPartial = g.isPartial ∧
      f.chapters.map Chapter.json = g.chapters.map Chapter.json ∧
      f.diagnostics.map (fun p => Json.str p.message) =
        g.diagnostics.map (fun p => Json.str p.message) := by
    simpa [jsonDocument, Document.json] using h
  refine ⟨Address.text_inj hentry, NoteKind.text_inj hkind, hpartial,
    List.map_injective_iff.2 (fun _ _ => Chapter.json_inj) hchapters, ?_⟩
  have hstr : Function.Injective Json.str := fun _ _ => Json.str.inj
  apply List.map_injective_iff.2 hstr
  rwa [List.map_map, List.map_map]

end FlowGraph

/-- The function `Sample.noted` with other ends of its blocks. -/
def Sample.moved : FlowGraph :=
  { noted with blocks := (noted.blocks.toList.map fun b => { b with stop := 0 }).toArray }

namespace OutputFormat

theorem render_json (g : FlowGraph) : json.render g = .ok g.jsonDocument.document := by
  rw [render, Listing.write, Listing.empty, Listing.applyAll_document,
    Document.foldl_apply_commands]
  rfl

/-- A function whose notes fit is written as a document, and functions that are written as the same
document agree in their code, in the kind of their notes, and in the words of their problems. -/
theorem json_lossless {f : FlowGraph} (hf : f.NotesFit) :
    ∃ text, json.render f = .ok text ∧
      ∀ g : FlowGraph, g.NotesFit → json.render g = .ok text →
        f.Agrees g ∧ f.noteKind = g.noteKind ∧
        f.diagnostics.map Diagnostic.message = g.diagnostics.map Diagnostic.message := by
  refine ⟨_, render_json f, ?_⟩
  intro g hg h
  rw [render_json] at h
  obtain ⟨hentry, hkind, hpartial, hchapters, hproblems⟩ :=
    FlowGraph.jsonDocument_inj (Json.document_inj (Except.ok.inj h.symm))
  have hblocks := FlowGraph.forall₂_agrees_of_commands_eq hf hg
    (FlowGraph.commands_eq_of_chapters_eq hchapters)
  exact ⟨⟨hentry, hblocks, hpartial⟩, hkind, hproblems⟩

/-- Where a block ends is not shown in a document. -/
theorem json_lossless_sample :
    ∃ text, json.render Sample.noted = .ok text ∧ json.render Sample.moved = .ok text ∧
      Sample.noted.Agrees Sample.moved := by
  have hchapters : Sample.moved.chapters = Sample.noted.chapters := by
    simp only [FlowGraph.chapters, Sample.moved, List.zipIdx_map, List.map_map]
    rfl
  have halike : Sample.moved.jsonDocument = Sample.noted.jsonDocument := by
    rw [FlowGraph.jsonDocument, hchapters]
    rfl
  obtain ⟨text, htext, hagrees⟩ := json_lossless Sample.noted_notesFit
  have hmoved : json.render Sample.moved = .ok text := by
    rw [← htext, render_json, render_json, halike]
  exact ⟨text, htext, hmoved, (hagrees Sample.moved (by decide) hmoved).1⟩

end OutputFormat

end CodeLift
