import CodeLift.Address
import CodeLift.Architecture

/-!
# Errors

The causes for which nothing is lifted, the causes for which a single instruction is not decoded,
and the wording of both. A decode failure is local: it ends one block, and the others go on.
-/

namespace CodeLift

/-- Why an instruction could not be decoded. -/
inductive DecodeFailure where
  /-- The address is outside the region. -/
  | outOfRange (addr : Address)
  /-- There is no valid instruction at the address. -/
  | invalid (addr : Address) (reason : String)
deriving DecidableEq, Repr

namespace DecodeFailure

/-- The address that the failure is about. -/
def address : DecodeFailure → Address
  | outOfRange addr => addr
  | invalid addr _ => addr

/-- The failure in words. -/
def message : DecodeFailure → String
  | outOfRange addr => "Offset " ++ addr.text ++ " is outside the translation region"
  | invalid addr reason => "Invalid instruction at " ++ addr.text ++ ": " ++ reason

end DecodeFailure

/-- Why a decoder could not be set up. -/
inductive BackendError where
  /-- The disassembler itself refused. -/
  | engine (reason : String)
  /-- The disassembler does not know the architecture. -/
  | unsupported (arch : Architecture)
deriving DecidableEq, Repr

/-- The error in words. -/
def BackendError.message : BackendError → String
  | engine reason => "Capstone error: " ++ reason
  | unsupported arch => "Unsupported architecture: " ++ arch.label

/-- Why nothing is lifted at all. -/
inductive LiftError where
  /-- No decoder has this name. -/
  | unknownArchitecture (name : String)
  /-- This is not the name of a kind of notes. -/
  | unknownDebugMode (name : String)
  /-- The decoder exists but could not be set up. -/
  | decoderUnavailable (arch reason : String)
  /-- The region does not lie in the input. -/
  | regionOutOfRange (offset len available : Nat)
  /-- The result could not be written in its format. -/
  | output (reason : String)
  /-- Reading or writing failed. -/
  | io (reason : String)
deriving DecidableEq, Repr

/-- The error in words. -/
def LiftError.message : LiftError → String
  | unknownArchitecture name => "Unknown architecture: " ++ name
  | unknownDebugMode name => "Unexpected value for the debug info selector: " ++ name
  | decoderUnavailable arch reason =>
    "Couldn't initialize the decoder for " ++ arch ++ ": " ++ reason
  | regionOutOfRange offset len available =>
    "Region " ++ Text.hex offset ++ "+" ++ Text.decimal len ++ " is outside the " ++
      Text.decimal available ++ "-byte input"
  | output reason => "Output error: " ++ reason
  | io reason => "I/O error: " ++ reason

/-- The architecture with this name or alias. -/
def Architecture.parse (name : String) : Except LiftError Architecture :=
  match ofName? name with
  | some arch => .ok arch
  | none => .error (.unknownArchitecture name)

/-- The `len` bytes of `buffer` from `offset` on. -/
def region (buffer : ByteArray) (offset len : Nat) : Except LiftError ByteArray :=
  if offset + len ≤ buffer.size then .ok (buffer.extract offset (offset + len))
  else .error (.regionOutOfRange offset len buffer.size)

end CodeLift
