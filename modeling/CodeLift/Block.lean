import CodeLift.Insn
import CodeLift.Op

/-!
# Basic blocks

A block is a straight run of instructions, kept twice: as records of the native instructions and as
the operations that they were lowered to. Every record knows where its operations begin.
-/

namespace CodeLift

/-- A native instruction of a block. -/
structure Record where
  /-- Where the instruction starts. -/
  addr : Address
  /-- Its length in bytes. -/
  size : UInt8
  /-- Its encoding. -/
  bytes : List UInt8
  /-- Its assembly text, where that is known. -/
  text : Option String
  /-- The number of its first operation within the block. -/
  firstOp : Nat
deriving DecidableEq

/-- The operations that an instruction is lowered to. -/
def Insn.lowered (i : Insn) : List Op :=
  .insnStart i.addr i.size ::
    i.ops.zipIdx.map fun (op, index) => .micro op.opcode op.args ⟨i.addr, index⟩

namespace Record

/-- The record of an instruction whose operations begin at `firstOp`. -/
def ofInsn (i : Insn) (firstOp : Nat) : Record :=
  { addr := i.addr, size := i.size, bytes := i.bytes, text := i.text, firstOp }

/-- The records of instructions in a row whose operations begin at `firstOp`, put after the records
`before`, which stand there last first. -/
def ofInsns (before : List Record) (firstOp : Nat) : List Insn → List Record
  | [] => before.reverse
  | i :: is => ofInsns (ofInsn i firstOp :: before) (firstOp + i.lowered.length) is

/-- The records that stand before do not matter to those that follow. -/
theorem ofInsns_eq_append (before : List Record) (firstOp : Nat) (insns : List Insn) :
    ofInsns before firstOp insns = before.reverse ++ ofInsns [] firstOp insns := by
  induction insns generalizing before firstOp with
  | nil => simp [ofInsns]
  | cons i is ih =>
    rw [ofInsns, ofInsns, ih, ih [ofInsn i firstOp]]
    simp

/-- The instruction as a line of assembly, with its bytes in place of a text that is not known. -/
def line (r : Record) : String :=
  r.addr.text ++ ": " ++
    match r.text with
    | some text => text
    | none => ".byte " ++ " ".intercalate (r.bytes.map Text.hexByte)

theorem line_of_text_eq_some {r : Record} {text : String} (h : r.text = some text) :
    r.line = r.addr.text ++ ": " ++ text := by
  rw [line, h]

theorem line_of_text_eq_none {r : Record} (h : r.text = none) :
    r.line = r.addr.text ++ ": " ++ (".byte " ++ " ".intercalate (r.bytes.map Text.hexByte)) := by
  rw [line, h]

end Record

/-- What has been noted on a block and on its operations. -/
structure Notes where
  /-- The note on the block as a whole. -/
  text : String
  /-- For each operation the note on it, if there is one. -/
  ops : Array (Option String)
deriving DecidableEq, Repr

/-- A basic block. -/
structure Block where
  /-- The address of the first instruction. -/
  entry : Address
  /-- The address right after the last byte. -/
  stop : Address
  /-- The native instructions. -/
  insns : List Record := []
  /-- The operations. -/
  ops : List Op := []
  /-- The edges to the blocks that may follow. -/
  edges : List Edge := []
  /-- What has been noted, if anything. -/
  notes : Option Notes := none
deriving DecidableEq

namespace Block

/-- A block that holds nothing yet. -/
def empty (entry : Address) : Block := { entry, stop := entry }

/-- The block with an instruction added, its end left as it is. -/
def append (b : Block) (i : Insn) : Block :=
  { b with insns := b.insns ++ [.ofInsn i b.ops.length], ops := b.ops ++ i.lowered }

/-- The block with instructions added, its end left as it is. -/
def appendAll (b : Block) (insns : List Insn) : Block :=
  { b with
    insns := b.insns ++ Record.ofInsns [] b.ops.length insns
    ops := b.ops ++ insns.flatMap Insn.lowered }

/-- Instructions can be added from the first one on. -/
theorem appendAll_cons (b : Block) (i : Insn) (insns : List Insn) :
    b.appendAll (i :: insns) = (b.append i).appendAll insns := by
  simp [appendAll, append, Record.ofInsns, Record.ofInsns_eq_append [.ofInsn i b.ops.length]]

/-- Adding instructions together is the same as adding them one by one. -/
theorem appendAll_eq_foldl (b : Block) (insns : List Insn) :
    b.appendAll insns = insns.foldl append b := by
  induction insns generalizing b with
  | nil => simp [appendAll, Record.ofInsns]
  | cons i is ih => rw [appendAll_cons, ih, List.foldl_cons]

/-- The block with an instruction added, so that it ends after that. -/
def push (b : Block) (i : Insn) : Except Fault Block := do
  return { b.append i with stop := ← i.next }

/-- The block with instructions added, so that it ends after the last of them. -/
def pushAll (b : Block) (insns : List Insn) : Except Fault Block := do
  let ends ← insns.mapM Insn.next
  return { b.appendAll insns with stop := ends.getLast?.getD b.stop }

/-- Adding instructions together is the same as adding them one by one, at the end of the block
too. -/
theorem pushAll_eq_foldlM (b : Block) (insns : List Insn) :
    b.pushAll insns = insns.foldlM push b := by
  induction insns generalizing b with
  | nil => simp [pushAll, appendAll, Record.ofInsns, bind, Except.bind, pure, Except.pure]
  | cons i is ih =>
    rw [List.foldlM_cons, pushAll, List.mapM_cons, push, appendAll_cons]
    cases i.next with
    | error fault => rfl
    | ok next =>
      simp only [bind, Except.bind, pure, Except.pure, ← ih, pushAll]
      cases is.mapM Insn.next with
      | error fault => rfl
      | ok ends => simp [appendAll, List.getLast?_cons]

/-- The block with a single operation added. -/
def pushOp (b : Block) (op : Op) : Block := { b with ops := b.ops ++ [op] }

/-- The address of the last instruction. -/
def lastInsn? (b : Block) : Option Address := b.insns.getLast?.map (·.addr)

/-- Whether the block ends in code that could not be decoded. -/
def isUnreachable (b : Block) : Bool := b.ops.getLast?.any Op.isUnreachable

end Block

end CodeLift
