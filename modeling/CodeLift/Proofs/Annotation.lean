import CodeLift.Proofs.Commands
import CodeLift.Proofs.Lifting

/-!
# Notes come last

Notes are made on a finished function and read nothing but its code. So the kind of notes plays no
part in what is discovered, and a function that has notes can be annotated again as if it had none:
of several kinds in a row only the last one counts.
-/

namespace CodeLift

/-- The block without notes. -/
def Block.bare (b : Block) : Block := { b with notes := none }

/-- The function without notes. -/
def FlowGraph.bare (g : FlowGraph) : FlowGraph :=
  { g with blocks := (g.blocks.toList.map Block.bare).toArray, noteKind := .none }

/-- The lifter that makes notes of another kind. -/
def Lifter.withNotes (l : Lifter) (kind : NoteKind) : Lifter :=
  { l with config := { l.config with noteKind := kind } }

/-! ## Notes on a block -/

theorem Block.annotate_bare (b : Block) (kind : NoteKind) :
    b.bare.annotate kind = b.annotate kind := by
  cases kind <;> rfl

theorem Block.of_annotate {b c : Block} {kind : NoteKind} (h : b.annotate kind = .ok c) :
    ∃ notes, b.notesOf kind = .ok notes ∧ c = { b with notes } := by
  obtain ⟨notes, hnotes, hc⟩ := bind_eq_ok.1 h
  cases hc
  exact ⟨notes, hnotes, rfl⟩

theorem Block.bare_of_annotate {b c : Block} {kind : NoteKind} (h : b.annotate kind = .ok c) :
    c.bare = b.bare := by
  obtain ⟨notes, -, rfl⟩ := of_annotate h
  rfl

/-! ## Notes on a function -/

namespace FlowGraph

variable {g k : FlowGraph} {kind : NoteKind}

theorem forall₂_of_annotate (h : g.annotate kind = .ok k) :
    List.Forall₂ (fun b c => b.annotate kind = .ok c) g.blocks.toList k.blocks.toList := by
  obtain ⟨blocks, hblocks, hk⟩ := bind_eq_ok.1 h
  cases hk
  exact forall₂_of_mapM_eq_ok hblocks

theorem annotate_bare (g : FlowGraph) (kind : NoteKind) :
    g.bare.annotate kind = g.annotate kind := by
  have hblocks : (g.blocks.toList.map Block.bare).mapM (·.annotate kind) =
      g.blocks.toList.mapM (·.annotate kind) := by
    rw [List.mapM_map]
    exact congrArg (g.blocks.toList.mapM ·) (funext fun b => b.annotate_bare kind)
  simp only [annotate, bare, hblocks]

theorem bare_of_annotate (h : g.annotate kind = .ok k) : k.bare = g.bare := by
  have hbare : k.blocks.toList.map Block.bare = g.blocks.toList.map Block.bare := by
    have hall := forall₂_of_annotate h
    generalize g.blocks.toList = bs at hall ⊢
    generalize k.blocks.toList = cs at hall ⊢
    induction hall with
    | nil => rfl
    | cons hbc _ ih => rw [List.map_cons, List.map_cons, Block.bare_of_annotate hbc, ih]
  obtain ⟨blocks, -, hk⟩ := bind_eq_ok.1 h
  cases hk
  simp only [bare, hbare]

/-- Notes that are there already do not count for new ones. -/
theorem annotate_of_annotate (h : g.annotate kind = .ok k) (next : NoteKind) :
    k.annotate next = g.annotate next := by
  rw [← annotate_bare k, bare_of_annotate h, annotate_bare]

/-- Of kinds of notes that are made one after the other, only the last one counts. -/
theorem foldlM_annotate {f : NoteKind → FlowGraph} (hf : ∀ kind, g.annotate kind = .ok (f kind))
    (kinds : List NoteKind) (kind : NoteKind) :
    kinds.foldlM annotate (f kind) = .ok (f (kinds.getLast?.getD kind)) := by
  induction kinds generalizing kind with
  | nil => rfl
  | cons next kinds ih =>
    rw [List.foldlM_cons, annotate_of_annotate (hf kind), hf next, List.getLast?_cons]
    exact ih next

end FlowGraph

namespace Lifter

variable {l : Lifter} {image : ByteArray}

/-- Whatever the kind of notes, they are made on the same function, whose blocks are those of
complete stretches. -/
theorem lift_withNotes (hfit : image.size < Address.count)
    (hf : Fits (l.decoder.decodeOne image) image.size) (entry : Address) :
    ∃ (g : FlowGraph) (vs : List (Stretch (l.decoder.decodeOne image))), Apart vs ∧
      g.blocks.toList = vs.map (Stretch.drawn l.policy (vs.map Stretch.entry)) ∧
      ∀ kind, ∃ r, (l.withNotes kind).lift image entry = .ok r ∧
        g.annotate kind = .ok r.graph := by
  obtain ⟨d, ts, hd, hinv, hw⟩ := l.exists_discovery hfit hf entry
  obtain ⟨vs, ds, events, hcomplete, -, -, hg, -⟩ := hinv.finish hw
  refine ⟨{ FlowGraph.ofStretches l.policy entry vs with diagnostics := ds }, vs, hcomplete.apart,
    rfl, ?_⟩
  intro kind
  obtain ⟨k, hk, -⟩ := FlowGraph.exists_annotate l.policy entry vs ds kind
  have hconclude : d.conclude entry kind = .ok k := by
    rw [Discovery.conclude, hg]
    exact hk
  obtain ⟨r, hr, rfl, -⟩ := lift_eq_ok (l := l.withNotes kind) hd hconclude
  exact ⟨r, hr, hk⟩

end Lifter

end CodeLift
