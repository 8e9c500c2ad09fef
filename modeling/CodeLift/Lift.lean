import CodeLift.Annotation
import CodeLift.Discovery

/-!
# Lifting a region

Discovery from an entry address, the flow graph of what it found, and the notes on that.
-/

namespace CodeLift

/-- The settings of a lifter. -/
structure Config where
  /-- The kind of notes to make. -/
  noteKind : NoteKind := .none
  /-- The most instructions in one block. Zero counts as one. -/
  maxBlockInsns : Nat := 4096
deriving DecidableEq, Repr

/-- All that lifting depends on, the code apart. -/
structure Lifter where
  /-- How to read instructions. -/
  decoder : Decoder
  /-- Which calls return. -/
  policy : ReturnPolicy := .always
  /-- The settings. -/
  config : Config := {}

/-- The result of lifting. -/
structure Lifted where
  /-- The function. -/
  graph : FlowGraph
  /-- What happened on the way. -/
  events : List Event

namespace Lifter

/-- What scanning of `image` depends on. -/
def scanner (l : Lifter) (image : ByteArray) : Scanner where
  decode := l.decoder.decodeOne image
  policy := l.policy
  limit := l.config.maxBlockInsns

/-- Lift everything in `image` that can be reached from `entry`. -/
def lift (l : Lifter) (image : ByteArray) (entry : Address) : Except Fault Lifted := do
  let d ← Discovery.discover (l.scanner image) image.size entry
  let (graph, closing) ← d.map.finish entry d.diagnostics.reverse
  let graph ← graph.annotate l.config.noteKind
  return {
    graph
    events := .started image.size entry :: d.events.reverse ++ closing ++
      [.finished entry graph.blockCount graph.edgeCount graph.diagnostics.length] }

end Lifter

end CodeLift
