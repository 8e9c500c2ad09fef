import CodeLift.Flow

/-!
# Instructions

A native instruction is lowered to a list of micro-operations. Lifting does not look into their
names and arguments; only the control transfer of the last one matters.
-/

namespace CodeLift

/-- One elementary step of a native instruction. -/
structure MicroOp where
  /-- The name of the step. -/
  opcode : String
  /-- The operands of the step, as text. -/
  args : List String := []
  /-- The control transfer that the step performs, if any. -/
  flow : Option ControlFlow := none
  /-- Whether this is the final step of its instruction. -/
  last : Bool := false
deriving DecidableEq, Repr

/-- The step that performs a control transfer; its argument is the known target. -/
def MicroOp.control (opcode : String) (flow : ControlFlow) : MicroOp where
  opcode := opcode
  args := (flow.target.map Address.text).toList
  flow := some flow

/-- The steps of one instruction, the final one marked as such. -/
def MicroOp.sealed : List MicroOp → List MicroOp
  | [] => []
  | [op] => [{ op with last := true }]
  | op :: ops => op :: MicroOp.sealed ops

/-- One native instruction. -/
structure Insn where
  /-- Where the instruction starts. -/
  addr : Address
  /-- Its length in bytes. -/
  size : UInt8
  /-- Its steps. A proper instruction has at least one. -/
  ops : List MicroOp
  /-- Its encoding. -/
  bytes : List UInt8
  /-- Mnemonic and operands, where the decoder knows them. -/
  text : Option String := none
deriving DecidableEq

namespace Insn

/-- The address right after the instruction. -/
def next (i : Insn) : Except Fault Address := i.addr.advance i.size

/-- The control transfer of the final step, if it performs one. -/
def flow (i : Insn) : Option ControlFlow := i.ops.getLast?.bind (·.flow)

/-- An instruction of no bytes or of no steps. It cannot be lifted. -/
def isEmpty (i : Insn) : Bool := i.size == 0 || i.ops.isEmpty

end Insn

end CodeLift
