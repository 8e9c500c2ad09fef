import CodeLift.Address

/-!
# Control flow

Where control goes after an instruction that transfers it.
-/

namespace CodeLift

/-- A control transfer. -/
inductive ControlFlow where
  /-- A jump to a known address. -/
  | jump (target : Address)
  /-- A jump to a known address that may not be taken; then the next instruction follows. -/
  | condJump (target : Address)
  /-- A call of a known address, with the decoder's opinion on whether it returns. -/
  | call (target : Address) (returns : Option Bool)
  /-- A call through a register or through memory. -/
  | indirectCall
  /-- A return to the caller. -/
  | ret
  /-- A jump through a register or through memory. -/
  | indirectJump
  /-- Execution stops. -/
  | halt
deriving DecidableEq, Repr

namespace ControlFlow

/-- The statically known target, if there is one. -/
def target : ControlFlow → Option Address
  | jump t => some t
  | condJump t => some t
  | call t _ => some t
  | _ => none

/-- The name of the operation that performs the transfer. -/
def opcode : ControlFlow → String
  | jump _ => "br"
  | condJump _ => "brcond"
  | call _ _ => "call"
  | indirectCall => "call_ptr"
  | ret => "ret"
  | indirectJump => "goto_ptr"
  | halt => "exit_tb"

/-- A call of `target`, indirect if that is not known. Nothing is said on whether it returns. -/
def callTo : Option Address → ControlFlow
  | some t => call t none
  | none => indirectCall

/-- A jump to `target`, indirect if that is not known. -/
def jumpTo : Option Address → ControlFlow
  | some t => jump t
  | none => indirectJump

end ControlFlow

end CodeLift
