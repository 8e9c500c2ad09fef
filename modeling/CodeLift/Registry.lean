import CodeLift.Disassembly.Basic
import Std.Data.TreeMap

/-!
# Decoders by name

A registry maps names to decoders. Names are compared in lower case, and a name that is only an
alias of an architecture finds the decoder registered under the canonical name.
-/

namespace CodeLift

/-- A decoder, or why it cannot be set up. -/
abbrev Backend := Except BackendError Decoder

/-- Decoders under their lower-case names. -/
structure Registry where
  /-- The decoders. -/
  backends : Std.TreeMap String Backend := {}

namespace Registry

/-- Put a decoder under a name, in place of the one that had it. -/
def register (r : Registry) (name : String) (backend : Backend) : Registry :=
  ⟨r.backends.insert (Text.lower name) backend⟩

/-- A decoder for every architecture, each working from the same disassembly. -/
def builtin (readings : Disassembly) : Registry :=
  Architecture.all.foldl (fun r arch => r.register arch.name (.ok (readings.decoder arch))) {}

/-- The names in use, in order. -/
def names (r : Registry) : List String := r.backends.keys

/-- The entry for a name: the one registered under it, or else that of the architecture it is an
alias of. -/
def find? (r : Registry) (name : String) : Option Backend :=
  let key := Text.lower name
  r.backends[key]?.or ((Architecture.ofName? key).bind fun arch => r.backends[arch.name]?)

/-- Set up the decoder for a name. -/
def resolve (r : Registry) (name : String) : Except LiftError Decoder :=
  match r.find? name with
  | none => .error (.unknownArchitecture name)
  | some (.error e) => .error (.decoderUnavailable name e.message)
  | some (.ok decoder) => .ok decoder

end Registry

end CodeLift
