import CodeLift.Lift
import CodeLift.Listing.Command
import Mathlib.Data.List.Forall2

/-!
# Commands tell what they write

The commands that write a function come in one stream, with the notes between the operations. What a
listing shows of a function can still be taken from them: how many blocks there are and where they
are entered, and for each block its notes, its operations and its edges. All this needs of the notes
is that they are about operations of their block, as they are on every function that is lifted.
-/

namespace CodeLift

/-- What comes first in two equal sequences, as far as `P` tells it from the rest, is equal. -/
theorem append_inj_of_split {α : Type} {P : α → Prop} {xs xs' ys ys' : List α}
    (h : xs ++ ys = xs' ++ ys') (hx : ∀ a ∈ xs, P a) (hx' : ∀ a ∈ xs', P a) (hy : ∀ a ∈ ys, ¬ P a)
    (hy' : ∀ a ∈ ys', ¬ P a) : xs = xs' ∧ ys = ys' := by
  classical
  have hfilter : ∀ {us vs : List α}, (∀ a ∈ us, P a) → (∀ a ∈ vs, ¬ P a) →
      (us ++ vs).filter (fun a => decide (P a)) = us := by
    intro us vs hus hvs
    rw [List.filter_append, List.filter_eq_self.2 (by simpa using hus),
      List.filter_eq_nil_iff.2 (by simpa using hvs), List.append_nil]
  have hxs : xs = xs' := by rw [← hfilter hx hy, h, hfilter hx' hy']
  rw [hxs] at h
  exact ⟨hxs, List.append_cancel_left h⟩

theorem forall₂_of_mapM_eq_ok {α β : Type} {f : α → Except Fault β} {as : List α} {bs : List β}
    (h : as.mapM f = .ok bs) : List.Forall₂ (fun a b => f a = .ok b) as bs := by
  induction as generalizing bs with
  | nil =>
    cases h
    exact .nil
  | cons a as ih =>
    rw [List.mapM_cons] at h
    obtain ⟨c, hc, h⟩ := bind_eq_ok.1 h
    obtain ⟨cs, hcs, h⟩ := bind_eq_ok.1 h
    cases h
    exact .cons hc (ih hcs)

theorem mem_of_mapM_eq_ok {α β : Type} {f : α → Except Fault β} {as : List α} {bs : List β}
    (h : as.mapM f = .ok bs) {b : β} (hb : b ∈ bs) : ∃ a ∈ as, f a = .ok b := by
  have hall := forall₂_of_mapM_eq_ok h
  clear h
  induction hall with
  | nil => cases hb
  | cons hac _ ih =>
    rcases List.mem_cons.1 hb with rfl | hb
    · exact ⟨_, List.mem_cons_self, hac⟩
    · obtain ⟨d, hd, hb⟩ := ih hb
      exact ⟨d, List.mem_cons_of_mem _ hd, hb⟩

/-! ## Notes -/

/-- The notes that were made, each with the operation that it is about, or none for the block as a
whole. -/
def Notes.entries (n : Notes) : List (Option Nat × String) :=
  (none, n.text) :: n.ops.toList.zipIdx.filterMap fun (note, index) => note.map (some index, ·)

theorem Notes.mem_entries {n : Notes} {index : Nat} {text : String} :
    (some index, text) ∈ n.entries ↔ n.ops[index]? = some (some text) := by
  simp only [entries, List.mem_cons, Prod.mk.injEq, List.mem_filterMap, Prod.exists,
    List.mem_zipIdx_iff_getElem?, Option.map_eq_some_iff, Array.getElem?_toList]
  constructor
  · rintro (⟨h, -⟩ | ⟨note, i, hnote, t, rfl, hi, rfl⟩)
    · cases h
    · cases hi
      exact hnote
  · exact fun h => .inr ⟨some text, index, h, text, rfl, rfl, rfl⟩

theorem Notes.ext_entries {n m : Notes} (hsize : n.ops.size = m.ops.size)
    (h : n.entries = m.entries) : n = m := by
  have htext : n.text = m.text := (Prod.mk.inj (List.cons.inj h).1).2
  have hops : n.ops = m.ops := by
    apply Array.ext hsize
    intro i hi hi'
    apply Option.ext
    intro text
    have hmem : (some i, text) ∈ n.entries ↔ (some i, text) ∈ m.entries := by rw [h]
    rw [mem_entries, mem_entries, Array.getElem?_eq_getElem hi, Array.getElem?_eq_getElem hi',
      Option.some_inj, Option.some_inj] at hmem
    exact hmem
  cases n
  cases m
  cases htext
  cases hops
  rfl

namespace Block

/-- The notes, if there are any, have a place for every operation and for nothing else. -/
def NotesFit (b : Block) : Prop := ∀ n ∈ b.notes, n.ops.size = b.ops.length

instance (b : Block) : Decidable b.NotesFit :=
  inferInstanceAs (Decidable (∀ n ∈ b.notes, n.ops.size = b.ops.length))

/-- The notes on the block and on its operations. -/
def noteEntries (b : Block) : List (Option Nat × String) := b.notes.toList.flatMap Notes.entries

theorem size_of_assemblyNotes {b : Block} {n : Notes} (h : b.assemblyNotes = .ok n) :
    n.ops.size = b.ops.length := by
  have hsize : ∀ (rs : List Record) (notes : Array (Option String)),
      (rs.foldl (fun notes r => notes.setIfInBounds r.firstOp (some r.line)) notes).size =
        notes.size := by
    intro rs
    induction rs with
    | nil => exact fun _ => rfl
    | cons r rs ih =>
      intro notes
      rw [List.foldl_cons, ih, Array.size_setIfInBounds]
  simp only [assemblyNotes] at h
  split at h
  · cases h
    exact (hsize _ _).trans Array.size_replicate
  · cases h

theorem notesFit_of_annotate {b c : Block} {kind : NoteKind} (h : b.annotate kind = .ok c) :
    c.NotesFit := by
  obtain ⟨notes, hnotes, hc⟩ := bind_eq_ok.1 h
  cases hc
  intro n hn
  cases kind with
  | none =>
    cases hnotes
    cases hn
  | trace =>
    cases hnotes
    cases hn
    exact List.size_toArray.trans (List.length_map _)
  | assembly =>
    obtain ⟨m, hm, hnotes⟩ := bind_eq_ok.1 hnotes
    cases hnotes
    cases hn
    exact size_of_assemblyNotes hm

/-- The block agrees with `c` in all that a listing shows of it. -/
structure Agrees (b c : Block) : Prop where
  /-- Both are entered at the same address. -/
  entry : b.entry = c.entry
  /-- The notes on them and on their operations are the same. -/
  notes : b.notes = c.notes
  /-- The operations are the same. -/
  ops : b.ops = c.ops
  /-- The edges are the same. -/
  edges : b.edges = c.edges

theorem notes_eq_of_noteEntries_eq {b c : Block} (hb : b.NotesFit) (hc : c.NotesFit)
    (hops : b.ops = c.ops) (h : b.noteEntries = c.noteEntries) : b.notes = c.notes := by
  have hne : ∀ n : Notes, n.entries ≠ [] := fun n => List.cons_ne_nil _ _
  unfold noteEntries at h
  cases hn : b.notes with
  | none =>
    cases hm : c.notes with
    | none => rfl
    | some m => simp [hn, hm, hne] at h
  | some n =>
    cases hm : c.notes with
    | none => simp [hn, hm, hne] at h
    | some m =>
      have hsize : n.ops.size = m.ops.size := by rw [hb n hn, hc m hm, hops]
      have hentries : n.entries = m.entries := by simpa [hn, hm] using h
      rw [Notes.ext_entries hsize hentries]

theorem noteOn?_of_mem_zipIdx {b : Block} {n : Notes} (hn : b.notes = some n)
    {note : Option String} {index : Nat} (h : (note, index) ∈ n.ops.toList.zipIdx) :
    b.noteOn? index = note := by
  rw [List.mem_zipIdx_iff_getElem?, Array.getElem?_toList] at h
  rw [noteOn?, hn, Option.bind_some, h, Option.join_some]

/-- The notes on the operations, in the order in which these are written. -/
theorem filterMap_noteOn? {b : Block} {n : Notes} (hn : b.notes = some n)
    (hfit : n.ops.size = b.ops.length) :
    (b.ops.zipIdx.filterMap fun p => (b.noteOn? p.2).map (some p.2, ·)) =
      n.ops.toList.zipIdx.filterMap fun p => p.1.map (some p.2, ·) := by
  have hindex : b.ops.zipIdx.map Prod.snd = n.ops.toList.zipIdx.map Prod.snd := by
    rw [List.zipIdx_map_snd, List.zipIdx_map_snd, Array.length_toList, hfit]
  calc (b.ops.zipIdx.filterMap fun p => (b.noteOn? p.2).map (some p.2, ·))
      = (b.ops.zipIdx.map Prod.snd).filterMap fun i => (b.noteOn? i).map (some i, ·) := by
        rw [List.filterMap_map]
        rfl
    _ = n.ops.toList.zipIdx.filterMap fun p => (b.noteOn? p.2).map (some p.2, ·) := by
        rw [hindex, List.filterMap_map]
        rfl
    _ = n.ops.toList.zipIdx.filterMap fun p => p.1.map (some p.2, ·) := by
        apply List.filterMap_congr
        rintro ⟨note, index⟩ h
        rw [noteOn?_of_mem_zipIdx hn h]

end Block

/-! ## The commands of a block -/

namespace Command

/-- The command does not create a block. -/
def Fills : Command → Prop
  | createBlock _ _ => False
  | _ => True

/-- The block that the command is about. -/
def block : Command → BlockId
  | createBlock id _ => id
  | append id _ => id
  | branch id _ => id
  | note id _ _ => id

/-- The operation that the command adds. -/
def op? : Command → Option Op
  | append _ op => some op
  | _ => none

/-- The edge that the command adds. -/
def edge? : Command → Option Edge
  | branch _ edge => some edge
  | _ => none

/-- The note that the command puts, and the operation that it is about. -/
def note? : Command → Option (Option Nat × String)
  | note _ op text => some (op, text)
  | _ => none

theorem length_eq_of_fills {cs : List Command} (h : ∀ c ∈ cs, c.Fills) :
    cs.length =
      (cs.filterMap op?).length + (cs.filterMap edge?).length + (cs.filterMap note?).length := by
  induction cs with
  | nil => rfl
  | cons c cs ih =>
    have ih := ih fun d hd => h d (List.mem_cons_of_mem _ hd)
    cases c with
    | createBlock id entry => exact False.elim (h _ List.mem_cons_self)
    | append id op => simp [List.filterMap_cons, op?, edge?, note?] at ih ⊢; omega
    | branch id edge => simp [List.filterMap_cons, op?, edge?, note?] at ih ⊢; omega
    | note id op text => simp [List.filterMap_cons, op?, edge?, note?] at ih ⊢; omega

end Command

namespace Block

theorem of_mem_commands {b : Block} {id : BlockId} {c : Command} (h : c ∈ b.commands id) :
    c.Fills ∧ c.block = id := by
  simp only [commands, List.mem_append, Option.mem_toList, Option.map_eq_some_iff, List.mem_flatMap,
    List.mem_map] at h
  rcases h with (⟨notes, -, rfl⟩ | ⟨⟨op, index⟩, -, hc⟩) | ⟨e, -, rfl⟩
  · exact ⟨trivial, rfl⟩
  · rcases List.mem_cons.1 hc with rfl | hc
    · exact ⟨trivial, rfl⟩
    · obtain ⟨note, -, rfl⟩ := Option.map_eq_some_iff.1 (Option.mem_toList.1 hc)
      exact ⟨trivial, rfl⟩
  · exact ⟨trivial, rfl⟩

theorem commands_eq (b : Block) (id : BlockId) :
    b.commands id = b.notes.toList.map (fun n => .note id none n.text) ++
      (b.ops.zipIdx.flatMap fun p =>
        .append id p.1 :: (b.noteOn? p.2).toList.map (.note id (some p.2))) ++
      b.edges.map (.branch id) := by
  simp only [commands, opCommands, Option.toList_map]

theorem filterMap_op?_commands (b : Block) (id : BlockId) :
    (b.commands id).filterMap Command.op? = b.ops := by
  simp [commands_eq, List.filterMap_flatMap, Function.comp_def, Command.op?, ← List.map_eq_flatMap]

theorem filterMap_edge?_commands (b : Block) (id : BlockId) :
    (b.commands id).filterMap Command.edge? = b.edges := by
  simp [commands_eq, List.filterMap_flatMap, List.filterMap_cons, Function.comp_def, Command.edge?]

theorem filterMap_note?_commands {b : Block} (h : b.NotesFit) (id : BlockId) :
    (b.commands id).filterMap Command.note? = b.noteEntries := by
  have hcommands : (b.commands id).filterMap Command.note? =
      b.notes.toList.map (fun n => (none, n.text)) ++
        b.ops.zipIdx.flatMap fun p => ((b.noteOn? p.2).map (some p.2, ·)).toList := by
    simp [commands_eq, List.filterMap_flatMap, List.filterMap_cons, Function.comp_def,
      Command.note?, Option.toList_map]
  rw [hcommands, noteEntries, ← List.filterMap_eq_flatMap_toList]
  cases hn : b.notes with
  | none => simp [noteOn?, hn]
  | some n =>
    rw [filterMap_noteOn? hn (h n hn)]
    simp [Notes.entries]

theorem length_commands {b : Block} (h : b.NotesFit) (id : BlockId) :
    (b.commands id).length = b.ops.length + b.edges.length + b.noteEntries.length := by
  rw [Command.length_eq_of_fills fun c hc => (of_mem_commands hc).1, filterMap_op?_commands,
    filterMap_edge?_commands, filterMap_note?_commands h]

theorem agrees_of_commands_eq {b c : Block} (hb : b.NotesFit) (hc : c.NotesFit)
    (hentry : b.entry = c.entry) {id : BlockId} (h : b.commands id = c.commands id) :
    b.Agrees c := by
  have hops : b.ops = c.ops := by
    rw [← filterMap_op?_commands b id, h, filterMap_op?_commands]
  have hedges : b.edges = c.edges := by
    rw [← filterMap_edge?_commands b id, h, filterMap_edge?_commands]
  have hnotes : b.noteEntries = c.noteEntries := by
    rw [← filterMap_note?_commands hb id, h, filterMap_note?_commands hc]
  exact ⟨hentry, notes_eq_of_noteEntries_eq hb hc hops hnotes, hops, hedges⟩

end Block

/-! ## The commands of a function -/

namespace FlowGraph

/-- On every block the notes have a place for each operation. -/
def NotesFit (g : FlowGraph) : Prop := ∀ b ∈ g.blocks, b.NotesFit

instance (g : FlowGraph) : Decidable g.NotesFit :=
  inferInstanceAs (Decidable (∀ b ∈ g.blocks, b.NotesFit))

theorem exists_of_mem_annotate {g k : FlowGraph} {kind : NoteKind} (h : g.annotate kind = .ok k)
    {c : Block} (hc : c ∈ k.blocks) : ∃ b ∈ g.blocks.toList, b.annotate kind = .ok c := by
  obtain ⟨blocks, hblocks, hk⟩ := bind_eq_ok.1 h
  cases hk
  exact mem_of_mapM_eq_ok hblocks (List.mem_toArray.1 hc)

theorem notesFit_of_annotate {g k : FlowGraph} {kind : NoteKind} (h : g.annotate kind = .ok k) :
    k.NotesFit := by
  intro b hb
  obtain ⟨a, -, ha⟩ := exists_of_mem_annotate h hb
  exact Block.notesFit_of_annotate ha

/-- The number of notes on all blocks and operations. -/
def noteCount (g : FlowGraph) : Nat := (g.blocks.toList.flatMap (·.noteEntries)).length

/-- The functions agree in what a listing shows of their code. -/
structure Agrees (f g : FlowGraph) : Prop where
  /-- Both are entered at the same address. -/
  entry : f.entry = g.entry
  /-- They have equally many blocks, and those with the same number agree. -/
  blocks : List.Forall₂ Block.Agrees f.blocks.toList g.blocks.toList
  /-- If code of one could not be decoded, then so for the other. -/
  isPartial : f.isPartial = g.isPartial

/-- The commands that create blocks, from the number `n` on. -/
def creates (n : Nat) (bs : List Block) : List Command :=
  (bs.zipIdx n).map fun (b, id) => .createBlock id b.entry

/-- The commands that fill blocks, from the number `n` on. -/
def fills (n : Nat) (bs : List Block) : List Command :=
  (bs.zipIdx n).flatMap fun (b, id) => b.commands id

theorem commands_eq (g : FlowGraph) :
    g.commands = creates 0 g.blocks.toList ++ fills 0 g.blocks.toList := rfl

theorem creates_cons (n : Nat) (b : Block) (bs : List Block) :
    creates n (b :: bs) = .createBlock n b.entry :: creates (n + 1) bs := rfl

theorem fills_cons (n : Nat) (b : Block) (bs : List Block) :
    fills n (b :: bs) = b.commands n ++ fills (n + 1) bs := rfl

theorem of_mem_creates {c : Command} {n : Nat} {bs : List Block} (h : c ∈ creates n bs) :
    ¬ c.Fills := by
  obtain ⟨⟨b, id⟩, -, rfl⟩ := List.mem_map.1 h
  exact fun hfills => hfills

theorem of_mem_fills {c : Command} {n : Nat} {bs : List Block} (h : c ∈ fills n bs) :
    c.Fills ∧ n ≤ c.block := by
  obtain ⟨⟨b, id⟩, hmem, hc⟩ := List.mem_flatMap.1 h
  obtain ⟨hfills, hblock⟩ := Block.of_mem_commands hc
  exact ⟨hfills, hblock ▸ List.le_snd_of_mem_zipIdx hmem⟩

/-- Blocks that are created and filled alike agree. -/
theorem forall₂_agrees {bs cs : List Block} {n : Nat} (hb : ∀ b ∈ bs, b.NotesFit)
    (hc : ∀ c ∈ cs, c.NotesFit) (hcreates : creates n bs = creates n cs)
    (hfills : fills n bs = fills n cs) : List.Forall₂ Block.Agrees bs cs := by
  induction bs generalizing cs n with
  | nil =>
    cases cs with
    | nil => exact .nil
    | cons c cs => cases hcreates
  | cons b bs ih =>
    cases cs with
    | nil => cases hcreates
    | cons c cs =>
      rw [creates_cons, creates_cons] at hcreates
      obtain ⟨hhead, hcreates⟩ := List.cons.inj hcreates
      obtain ⟨-, hentry⟩ := Command.createBlock.inj hhead
      -- The commands of the first block are those that are about its number.
      have hother : ∀ ds : List Block, ∀ d ∈ fills (n + 1) ds, ¬ d.block = n := by
        intro ds d hd
        exact Nat.ne_of_gt (of_mem_fills hd).2
      rw [fills_cons, fills_cons] at hfills
      obtain ⟨hcommands, hfills⟩ := append_inj_of_split (P := fun d => d.block = n) hfills
        (fun d hd => (Block.of_mem_commands hd).2) (fun d hd => (Block.of_mem_commands hd).2)
        (hother bs) (hother cs)
      have hrest := ih (fun d hd => hb d (List.mem_cons_of_mem _ hd))
        (fun d hd => hc d (List.mem_cons_of_mem _ hd)) hcreates hfills
      exact .cons (Block.agrees_of_commands_eq (hb b List.mem_cons_self) (hc c List.mem_cons_self)
        hentry hcommands) hrest

theorem forall₂_agrees_of_commands_eq {f g : FlowGraph} (hf : f.NotesFit) (hg : g.NotesFit)
    (h : f.commands = g.commands) :
    List.Forall₂ Block.Agrees f.blocks.toList g.blocks.toList := by
  rw [commands_eq, commands_eq] at h
  obtain ⟨hcreates, hfills⟩ := append_inj_of_split (P := fun c => ¬ c.Fills) h
    (fun c hc => of_mem_creates hc) (fun c hc => of_mem_creates hc)
    (fun c hc => not_not_intro (of_mem_fills hc).1) (fun c hc => not_not_intro (of_mem_fills hc).1)
  exact forall₂_agrees (fun b hb => hf b (Array.mem_toList_iff.1 hb))
    (fun b hb => hg b (Array.mem_toList_iff.1 hb)) hcreates hfills

theorem length_fills {bs : List Block} (h : ∀ b ∈ bs, b.NotesFit) (n : Nat) :
    (fills n bs).length = (bs.flatMap (·.ops)).length + (bs.flatMap (·.edges)).length +
      (bs.flatMap (·.noteEntries)).length := by
  induction bs generalizing n with
  | nil => rfl
  | cons b bs ih =>
    have hhead := Block.length_commands (h b List.mem_cons_self) n
    have htail := ih (fun c hc => h c (List.mem_cons_of_mem _ hc)) (n + 1)
    simp only [fills_cons, List.flatMap_cons, List.length_append]
    omega

/-- There is one command for every block, operation, edge and note. -/
theorem length_commands {g : FlowGraph} (h : g.NotesFit) :
    g.commands.length = g.blockCount + g.opCount + g.edgeCount + g.noteCount := by
  have hcreates : (creates 0 g.blocks.toList).length = g.blockCount := by
    simp [creates, blockCount]
  have hfills := length_fills (fun b hb => h b (Array.mem_toList_iff.1 hb)) 0
  rw [commands_eq, List.length_append, hcreates, hfills, opCount, edgeCount, noteCount]
  omega

end FlowGraph

/-- The notes fit on every function that is lifted, with whatever decoder. -/
theorem Lifter.notesFit_of_lift {l : Lifter} {image : ByteArray} {entry : Address} {r : Lifted}
    (h : l.lift image entry = .ok r) : r.graph.NotesFit := by
  obtain ⟨d, -, h⟩ := bind_eq_ok.1 h
  obtain ⟨⟨g, closing⟩, -, h⟩ := bind_eq_ok.1 h
  obtain ⟨k, hk, h⟩ := bind_eq_ok.1 h
  cases h
  exact FlowGraph.notesFit_of_annotate hk

end CodeLift
