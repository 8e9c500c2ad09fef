import CodeLift.FlowGraph

/-!
# Commands to a listing

A function is written by a sequence of commands: first every block is created, so that edges may
lead to blocks that come later, and then each block is filled. A note follows what it is about.
-/

namespace CodeLift

/-- A command to a listing. -/
inductive Command where
  /-- Create the block `id`. -/
  | createBlock (id : BlockId) (entry : Address)
  /-- Add an operation to a block. -/
  | append (block : BlockId) (op : Op)
  /-- Add an edge to a block. -/
  | branch (block : BlockId) (edge : Edge)
  /-- Put a note on one operation of a block, or on the block as a whole. -/
  | note (block : BlockId) (op : Option Nat) (text : String)
deriving DecidableEq, Repr

/-- The note on an operation of a block, if there is one. -/
def Block.noteOn? (b : Block) (index : Nat) : Option String :=
  b.notes.bind fun notes => notes.ops[index]?.join

/-- The commands that write an operation and the note on it. -/
def Block.opCommands (b : Block) (id : BlockId) (op : Op) (index : Nat) : List Command :=
  .append id op :: ((b.noteOn? index).map (.note id (some index))).toList

/-- The commands that fill the block `id`. -/
def Block.commands (b : Block) (id : BlockId) : List Command :=
  (b.notes.map fun notes => .note id none notes.text).toList ++
    (b.ops.zipIdx.flatMap fun (op, index) => b.opCommands id op index) ++
    b.edges.map (.branch id)

/-- The commands that write a function. -/
def FlowGraph.commands (g : FlowGraph) : List Command :=
  let numbered := g.blocks.toList.zipIdx
  (numbered.map fun (b, id) => .createBlock id b.entry) ++
    numbered.flatMap fun (b, id) => b.commands id

end CodeLift
