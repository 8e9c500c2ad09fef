import CodeLift.Listing.Basic
import CodeLift.Proofs.Commands
import CodeLift.Proofs.Json

/-!
# Records lose nothing

A function that is written as records takes one line for every block, operation, edge, note and
problem, and one more. Its text tells all that the lines are about: two functions with the same text
have the same blocks, with the same notes on them, and the same problems.
-/

namespace CodeLift

theorem EdgeKind.text_inj {k l : EdgeKind} (h : k.text = l.text) : k = l := by
  cases k <;> cases l <;> first | rfl | exact absurd h (by decide)

theorem Json.ofNat?_inj {m n : Option Nat} (h : Json.ofNat? m = Json.ofNat? n) : m = n := by
  cases m with
  | none =>
    cases n with
    | none => rfl
    | some n => cases h
  | some m =>
    cases n with
    | none => cases h
    | some n => rw [Json.num.inj h]

theorem Op.record_inj {o p : Op} (h : o.record = p.record) : o = p := by
  cases o with
  | insnStart pc size =>
    cases p with
    | insnStart pc' size' =>
      obtain ⟨rfl, rfl⟩ : pc = pc' ∧ size = size' := by
        simpa [record, UInt64.toNat_inj, UInt8.toNat_inj] using h
      rfl
    | _ => simp [record] at h
  | micro opcode args origin =>
    cases p with
    | micro opcode' args' origin' =>
      obtain ⟨pc, index⟩ := origin
      obtain ⟨pc', index'⟩ := origin'
      obtain ⟨hargs, rfl, rfl, rfl⟩ : args.map Json.str = args'.map Json.str ∧
          opcode = opcode' ∧ index = index' ∧ pc = pc' := by
        simpa [record, UInt64.toNat_inj] using h
      rw [List.map_injective_iff.2 (fun _ _ => Json.str.inj) hargs]
    | _ => simp [record] at h
  | unreachable pc =>
    cases p with
    | unreachable pc' =>
      obtain rfl : pc = pc' := by simpa [record, UInt64.toNat_inj] using h
      rfl
    | _ => simp [record] at h

namespace Command

theorem record_inj {c d : Command} (h : c.record = d.record) : c = d := by
  cases c with
  | createBlock id entry =>
    cases d with
    | createBlock id' entry' =>
      obtain ⟨rfl, hentry⟩ : id = id' ∧ entry.text = entry'.text := by simpa [record] using h
      rw [Address.text_inj hentry]
    | _ => simp [record] at h
  | append id op =>
    cases d with
    | append id' op' =>
      obtain ⟨rfl, hop, -⟩ : id = id' ∧ op.record = op'.record ∧ op.text = op'.text := by
        simpa [record] using h
      rw [Op.record_inj hop]
    | _ => simp [record] at h
  | branch id edge =>
    cases d with
    | branch id' edge' =>
      obtain ⟨kind, target⟩ := edge
      obtain ⟨kind', target'⟩ := edge'
      obtain ⟨rfl, hkind, htarget⟩ : id = id' ∧ kind.text = kind'.text ∧
          Json.ofNat? target = Json.ofNat? target' := by
        simpa [record] using h
      rw [EdgeKind.text_inj hkind, Json.ofNat?_inj htarget]
    | _ => simp [record] at h
  | note id op text =>
    cases d with
    | note id' op' text' =>
      obtain ⟨rfl, rfl, hop⟩ : id = id' ∧ text = text' ∧ Json.ofNat? op = Json.ofNat? op' := by
        simpa [record] using h
      rw [Json.ofNat?_inj hop]
    | _ => simp [record] at h

theorem record_ne_diagnostic (c : Command) (d : Diagnostic) : c.record ≠ d.record := by
  cases c <;> simp [record, Diagnostic.record]

end Command

theorem Diagnostic.record_inj {d e : Diagnostic} (h : d.record = e.record) :
    (d.address, d.message) = (e.address, e.message) := by
  obtain ⟨haddress, hmessage⟩ : d.address.text = e.address.text ∧ d.message = e.message := by
    simpa [record] using h
  rw [Address.text_inj haddress, hmessage]

namespace FlowGraph

/-- The records of a function, in order. -/
def jsonRecords (g : FlowGraph) : List Json :=
  g.commands.map Command.record ++ g.diagnostics.map Diagnostic.record ++ [g.summary]

theorem length_jsonRecords {g : FlowGraph} (h : g.NotesFit) :
    g.jsonRecords.length = g.blockCount + g.opCount + g.edgeCount + g.noteCount +
      g.diagnostics.length + 1 := by
  simp only [jsonRecords, List.length_append, List.length_map, List.length_singleton,
    length_commands h]

theorem jsonRecords_inj {f g : FlowGraph} (h : f.jsonRecords = g.jsonRecords) :
    f.commands = g.commands ∧
      f.diagnostics.map (fun d => (d.address, d.message)) =
        g.diagnostics.map (fun d => (d.address, d.message)) ∧
      f.summary = g.summary := by
  obtain ⟨hitems, hsummary⟩ := List.append_inj' h rfl
  have hcommand : ∀ cs : List Command, ∀ v ∈ cs.map Command.record,
      ∃ c : Command, c.record = v := by
    intro cs v hv
    obtain ⟨c, -, hc⟩ := List.mem_map.1 hv
    exact ⟨c, hc⟩
  have hproblem : ∀ ds : List Diagnostic, ∀ v ∈ ds.map Diagnostic.record,
      ¬ ∃ c : Command, c.record = v := by
    intro ds v hv
    obtain ⟨d, -, rfl⟩ := List.mem_map.1 hv
    exact fun ⟨c, hc⟩ => c.record_ne_diagnostic d hc
  -- No problem is written as a command is, so it is known where the commands end.
  obtain ⟨hcommands, hproblems⟩ := append_inj_of_split (P := fun v => ∃ c : Command, c.record = v)
    hitems (hcommand _) (hcommand _) (hproblem _) (hproblem _)
  refine ⟨List.map_injective_iff.2 (fun _ _ => Command.record_inj) hcommands, ?_,
    List.singleton_inj.1 hsummary⟩
  rw [← List.forall₂_eq_eq_eq, List.forall₂_map_left_iff, List.forall₂_map_right_iff] at hproblems ⊢
  exact hproblems.imp fun _ _ => Diagnostic.record_inj

end FlowGraph

theorem Listing.applyAll_records (r : Records) (cs : List Command) :
    (records r).applyAll cs = .ok (records ⟨r.items ++ cs.map Command.record⟩) := by
  induction cs generalizing r with
  | nil => simp [applyAll]
  | cons c cs ih =>
    rw [applyAll, apply]
    show (records (r.apply c)).applyAll cs = _
    rw [ih]
    simp [Records.apply]

namespace Sample

/-- A function with notes and with a problem, and with texts that need escapes. -/
def noted : FlowGraph where
  entry := 0x10
  blocks := #[
    { entry := 0x10, stop := 0x12,
      ops := [.insnStart 0x10 2, .micro "print" ["\"a\\b\"", "\n"] ⟨0x10, 0⟩],
      edges := [⟨.fallthrough, some 1⟩],
      notes := some ⟨"0x10: print\n\t\"a\\b\"", #[none, some "ptc:0x10#0"]⟩ },
    { entry := 0x12, stop := 0x12, ops := [.unreachable 0x12] }]
  diagnostics := [.unresolvedTarget 0x10 0x40 .conditional]

theorem noted_notesFit : noted.NotesFit := by decide

end Sample

namespace OutputFormat

/-- The text of a function as records. -/
theorem render_jsonLines (g : FlowGraph) :
    jsonLines.render g = .ok (String.join (g.jsonRecords.map Json.record)) := by
  have hall : (Listing.empty jsonLines).applyAll g.commands =
      .ok (.records ⟨(g.commands.map Command.record).toArray⟩) := by
    rw [Listing.empty, Listing.applyAll_records]
    simp
  rw [render, Listing.write, hall]
  rfl

/-- A function whose notes fit is written as so many lines as it has blocks, operations, edges,
notes and problems, and one more. No line feed stands inside a line. Functions that are written
alike agree in their code and in their problems. -/
theorem jsonLines_lossless {f : FlowGraph} (hf : f.NotesFit) :
    (∃ lines : List String,
      jsonLines.render f = .ok (String.join (lines.map (· ++ "\n"))) ∧
      (∀ line ∈ lines, '\n' ∉ line.toList) ∧
      lines.length = f.blockCount + f.opCount + f.edgeCount + f.noteCount +
        f.diagnostics.length + 1) ∧
    ∀ g : FlowGraph, g.NotesFit → jsonLines.render f = jsonLines.render g →
      f.Agrees g ∧
      f.diagnostics.map (fun d => (d.address, d.message)) =
        g.diagnostics.map (fun d => (d.address, d.message)) := by
  constructor
  · refine ⟨f.jsonRecords.map Json.line, ?_, ?_, ?_⟩
    · have hrecord : Json.record = (· ++ "\n") ∘ Json.line := funext Json.record_eq
      rw [render_jsonLines, hrecord, List.map_map]
    · intro line hline
      obtain ⟨v, -, rfl⟩ := List.mem_map.1 hline
      exact v.newline_notMem_line
    · rw [List.length_map, FlowGraph.length_jsonRecords hf]
  · intro g hg h
    rw [render_jsonLines, render_jsonLines] at h
    obtain ⟨hcommands, hproblems, hsummary⟩ :=
      FlowGraph.jsonRecords_inj (Json.join_record_inj (Except.ok.inj h))
    obtain ⟨-, -, hentry, hpartial⟩ : f.blockCount = g.blockCount ∧ f.edgeCount = g.edgeCount ∧
        f.entry.text = g.entry.text ∧ f.isPartial = g.isPartial := by
      simpa [FlowGraph.summary] using hsummary
    have hblocks := FlowGraph.forall₂_agrees_of_commands_eq hf hg hcommands
    exact ⟨⟨Address.text_inj hentry, hblocks, hpartial⟩, hproblems⟩

theorem jsonLines_lossless_sample :
    (∃ lines : List String,
      jsonLines.render Sample.noted = .ok (String.join (lines.map (· ++ "\n"))) ∧
      (∀ line ∈ lines, '\n' ∉ line.toList) ∧ lines.length = 10) ∧
    Sample.noted.Agrees { Sample.noted with noteKind := .trace } := by
  -- The kind of the notes stands in no record.
  have halike : ∀ g : FlowGraph,
      jsonLines.render g = jsonLines.render { g with noteKind := .trace } := by
    intro g
    rw [render_jsonLines, render_jsonLines]
    rfl
  obtain ⟨hlines, hagrees⟩ := jsonLines_lossless Sample.noted_notesFit
  have hfit : ({ Sample.noted with noteKind := .trace } : FlowGraph).NotesFit :=
    Sample.noted_notesFit
  exact ⟨hlines, (hagrees _ hfit (halike Sample.noted)).1⟩

end OutputFormat

end CodeLift
