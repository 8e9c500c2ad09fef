import CodeLift.FlowGraph

/-!
# Notes on a function

A finished function can be annotated with the assembly of its instructions or with the identities of
its steps. Annotating replaces earlier notes and changes nothing else.
-/

namespace CodeLift

/-- The identity of a step: the address of its instruction and its number there. -/
def traceId (pc : Address) (index : Nat) : String :=
  "ptc:" ++ pc.text ++ "#" ++ Text.decimal index

/-- The identity of an operation that is a step. -/
def Op.traceId? : Op → Option String
  | micro _ _ origin => some (traceId origin.pc origin.index)
  | _ => none

namespace Block

/-- The assembly lines of a block, with one for the point where decoding failed. -/
def assemblyLines (b : Block) : List String :=
  b.insns.map Record.line ++ if b.isUnreachable then [b.stop.text ++ ": <invalid>"] else []

/-- The assembly of a block: each instruction's line is noted where its operations begin. -/
def assemblyNotes (b : Block) : Except Fault Notes :=
  let opCount := b.ops.length
  if b.insns.all (·.firstOp < opCount) then
    .ok {
      text := "\n".intercalate b.assemblyLines
      ops := b.insns.foldl (fun notes r => notes.setIfInBounds r.firstOp (some r.line))
        (Array.replicate opCount none) }
  else .error (.brokenBlock b.entry)

/-- The first and the last of a block's steps, or the one step it has. -/
def traceText (b : Block) : String :=
  let ids := b.ops.filterMap Op.traceId?
  match ids.head?, ids.getLast? with
  | some first, some last => if first == last then first else first ++ ".." ++ last
  | _, _ => "ptc:" ++ b.entry.text ++ ": <invalid>"

/-- The identities of the steps of a block. -/
def traceNotes (b : Block) : Notes :=
  { text := b.traceText, ops := (b.ops.map Op.traceId?).toArray }

/-- The notes of a kind on a block. -/
def notesOf (b : Block) : NoteKind → Except Fault (Option Notes)
  | .none => .ok none
  | .assembly => do return some (← b.assemblyNotes)
  | .trace => .ok (some b.traceNotes)

/-- The block with notes of a kind in place of those that it had. -/
def annotate (b : Block) (kind : NoteKind) : Except Fault Block := do
  return { b with notes := ← b.notesOf kind }

end Block

/-- The function with notes of a kind in place of those that it had. -/
def FlowGraph.annotate (g : FlowGraph) (kind : NoteKind) : Except Fault FlowGraph := do
  return { g with blocks := (← g.blocks.toList.mapM (·.annotate kind)).toArray, noteKind := kind }

end CodeLift
