import CodeLift.CodeMap.Split

/-!
# From a code map to a flow graph

When every block has been found, the blocks are numbered by their entries and the exits become
edges. An exit whose target begins no block is dropped with a diagnostic.
-/

namespace CodeLift

/-- What becomes of an exit. -/
inductive Resolution where
  /-- An edge of the block `source`. -/
  | edge (source : BlockId) (e : Edge)
  /-- Nothing: no block begins at `target`. -/
  | unresolved (target : Address)
  /-- Nothing: no block holds the instruction. -/
  | orphan
deriving DecidableEq, Repr

namespace CodeMap

/-- Make every address that lies inside a block a block entry. -/
def splitInterior (m : CodeMap) : List Address → Except Fault (CodeMap × List Event)
  | [] => .ok (m, [])
  | addr :: addrs =>
    match m.lookup addr with
    | .interior _ => do
      let s ← m.split addr
      let (m, events) ← s.map.splitInterior addrs
      return (m, s.events ++ events)
    | _ => m.splitInterior addrs

/-- The slots in the order of the entries of their blocks. -/
def slots (m : CodeMap) : List Nat := m.entries.values

/-- The number that each slot's block gets. -/
def numbering (m : CodeMap) : Std.TreeMap Nat BlockId := .ofList m.slots.zipIdx

/-- Look up the number of a slot. -/
def number (numbers : Std.TreeMap Nat BlockId) (slot : Nat) : Except Fault BlockId :=
  match numbers[slot]? with
  | some id => .ok id
  | none => .error (.noSuchSlot slot)

/-- What becomes of an exit, given the numbers of the slots. -/
def resolve (m : CodeMap) (numbers : Std.TreeMap Nat BlockId) (x : Exit) :
    Except Fault Resolution :=
  match m.owners[x.source]? with
  | none => .ok .orphan
  | some owner =>
    match x.target with
    | none => do return .edge (← number numbers owner) ⟨x.kind, none⟩
    | some target =>
      match m.entries[target]? with
      | none => .ok (.unresolved target)
      | some slot => do
        return .edge (← number numbers owner) ⟨x.kind, some (← number numbers slot)⟩

/-- Add the edge of a resolution to its block. -/
def attach (blocks : Array Block) : Resolution → Array Block
  | .edge source e => blocks.modify source fun b => { b with edges := b.edges ++ [e] }
  | .unresolved _ => blocks
  | .orphan => blocks

/-- The exits that were dropped, with their targets. -/
def dropped (exits : List Exit) (resolutions : List Resolution) : List (Exit × Address) :=
  (exits.zip resolutions).filterMap fun (x, resolution) =>
    match resolution with
    | .unresolved target => some (x, target)
    | _ => none

/-- The flow graph of a map whose inner targets are all block entries, and the events of dropping
the exits that lead nowhere. -/
def toFlowGraph (m : CodeMap) (entry : Address) (diagnostics : List Diagnostic) :
    Except Fault (FlowGraph × List Event) := do
  let blocks ← m.slots.mapM m.blockIn
  let resolutions ← m.exits.mapM (m.resolve m.numbering)
  let lost := dropped m.exits resolutions
  let problems := diagnostics ++
    lost.map fun (x, target) => Diagnostic.unresolvedTarget x.source target x.kind
  let graph : FlowGraph := {
    entry
    blocks := resolutions.foldl attach blocks.toArray
    diagnostics := problems.mergeSort fun a b => a.address ≤ b.address }
  return (graph, lost.map fun (x, target) => .dropped x.source target x.kind)

/-- The flow graph of a map. Targets that came to lie inside a block are made block entries
first. -/
def finish (m : CodeMap) (entry : Address) (diagnostics : List Diagnostic) :
    Except Fault (FlowGraph × List Event) := do
  let (m, cuts) ← m.splitInterior (m.exits.filterMap (·.target))
  let (graph, drops) ← m.toFlowGraph entry diagnostics
  return (graph, cuts ++ drops)

end CodeMap

end CodeLift
