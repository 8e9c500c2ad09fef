/-!
# Digits

Addresses are written in hexadecimal, counts in decimal, raw bytes as two hexadecimal digits each.
Digits are lower case and never padded, except in a byte.
-/

namespace CodeLift.Text

/-- The shortest decimal digits of `n`. -/
def decimal (n : Nat) : String := String.ofList (Nat.toDigits 10 n)

/-- The shortest lower-case hexadecimal digits of `n`. -/
def hexDigits (n : Nat) : String := String.ofList (Nat.toDigits 16 n)

/-- `n` as a hexadecimal literal: `0x` and its shortest digits. -/
def hex (n : Nat) : String := "0x" ++ hexDigits n

/-- A byte as exactly two hexadecimal digits. -/
def hexByte (b : UInt8) : String :=
  String.ofList [Nat.digitChar (b.toNat / 16), Nat.digitChar (b.toNat % 16)]

end CodeLift.Text
