import CodeLift.Address

/-!
# Operations and edges

What a basic block is made of: a straight run of operations, and the edges to the blocks that may
follow.
-/

namespace CodeLift

/-- Where an operation comes from. -/
structure Origin where
  /-- The address of the native instruction. -/
  pc : Address
  /-- The number of the step within it. -/
  index : Nat
deriving DecidableEq, Repr

/-- One operation of a block. -/
inductive Op where
  /-- A native instruction begins. -/
  | insnStart (pc : Address) (size : UInt8)
  /-- A step of a native instruction, as the decoder gave it. -/
  | micro (opcode : String) (args : List String) (origin : Origin)
  /-- Nothing is known from here on: the instruction at `pc` could not be decoded. -/
  | unreachable (pc : Address)
deriving DecidableEq, Repr

namespace Op

/-- Whether the operation marks code that could not be decoded. -/
def isUnreachable : Op → Bool
  | unreachable _ => true
  | _ => false

/-- The operation as it stands in a listing. -/
def text : Op → String
  | insnStart pc _ => "insn_start $" ++ pc.text
  | micro opcode args _ => if args.isEmpty then opcode else opcode ++ " " ++ ", ".intercalate args
  | unreachable _ => "unreachable"

end Op

/-- How control gets from one block to another. -/
inductive EdgeKind where
  /-- Execution goes on at the next address. -/
  | fallthrough
  /-- A jump that is always taken. -/
  | direct
  /-- A conditional jump that is taken. -/
  | conditional
  /-- A call. -/
  | call
  /-- A transfer to an address that is known only when it happens. -/
  | indirect
deriving DecidableEq, Repr

/-- The name of the kind. -/
def EdgeKind.text : EdgeKind → String
  | fallthrough => "fallthrough"
  | direct => "direct"
  | conditional => "conditional"
  | call => "call"
  | indirect => "indirect"

/-- The number of a block within its function. -/
abbrev BlockId := Nat

/-- The label of a block. -/
def BlockId.label (id : BlockId) : String := "block" ++ Text.decimal id

/-- An edge out of a block. Only an indirect transfer has no target. -/
structure Edge where
  /-- How control takes the edge. -/
  kind : EdgeKind
  /-- The block that it leads to. -/
  target : Option BlockId
deriving DecidableEq, Repr

/-- A transfer out of the instruction at `source`, before it is known which blocks there are. -/
structure Exit where
  /-- The address of the instruction. -/
  source : Address
  /-- How control leaves it. -/
  kind : EdgeKind
  /-- Where to, unless the transfer is indirect. -/
  target : Option Address
deriving DecidableEq, Repr

end CodeLift
