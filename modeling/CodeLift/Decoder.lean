import CodeLift.Error
import CodeLift.Insn
import Std.Data.TreeMap

/-!
# Decoders

A decoder reads one instruction of an image at an address. Nothing else of an architecture is known
where blocks are found and connected.
-/

namespace CodeLift

/-- The instruction at an address, or why there is none. -/
abbrev Decoded := Except DecodeFailure Insn

/-- A way to read single instructions. -/
structure Decoder where
  /-- Read the instruction of `image` at the address. -/
  decodeOne : (image : ByteArray) → Address → Except Fault Decoded

/-- A decoder that answers from a table; of two entries for one address the later one counts. Other
addresses are out of range, or invalid if they lie in the image. -/
def Decoder.scripted (table : List (Address × Decoded)) : Decoder :=
  let answers := Std.TreeMap.ofList table
  { decodeOne := fun image pc => .ok <|
      match answers[pc]? with
      | some decoded => decoded
      | none =>
        if image.size ≤ pc.toNat then .error (.outOfRange pc)
        else .error (.invalid pc "not scripted") }

end CodeLift
