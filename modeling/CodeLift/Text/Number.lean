/-!
# Reading numbers

Integers are written with an optional sign and at least one digit of their base. Reading refuses
everything else, and every value outside the word that is to hold it.
-/

namespace CodeLift.Text

/-- The value of a digit, letters of either case counting from ten. -/
def digitValue? (base : Nat) (c : Char) : Option Nat :=
  let value :=
    if '0' ≤ c && c ≤ '9' then c.toNat - '0'.toNat
    else if 'a' ≤ c && c ≤ 'z' then c.toNat - 'a'.toNat + 10
    else if 'A' ≤ c && c ≤ 'Z' then c.toNat - 'A'.toNat + 10
    else base
  if value < base then some value else none

/-- The value of `cs` read after digits worth `acc`. -/
def readDigits (base acc : Nat) : List Char → Option Nat
  | [] => some acc
  | c :: cs => (digitValue? base c).bind fun d => readDigits base (acc * base + d) cs

/-- The value of a non-empty run of digits. -/
def readNat (base : Nat) (cs : List Char) : Option Nat :=
  if cs.isEmpty then none else readDigits base 0 cs

/-- The value of a run of digits that may have a sign in front. -/
def readInt (base : Nat) : List Char → Option Int
  | '-' :: cs => (readNat base cs).map fun n => -(n : Int)
  | '+' :: cs => (readNat base cs).map fun n => (n : Int)
  | cs => (readNat base cs).map fun n => (n : Int)

/-- The least signed 64-bit number. -/
def minSigned : Int := -0x8000000000000000

/-- The greatest signed 64-bit number. -/
def maxSigned : Int := 0x7fffffffffffffff

/-- The greatest unsigned 64-bit number. -/
def maxUnsigned : Nat := 0xffffffffffffffff

/-- A signed 64-bit number. -/
def readSigned (base : Nat) (cs : List Char) : Option Int :=
  (readInt base cs).filter fun v => minSigned ≤ v && v ≤ maxSigned

/-- An unsigned 64-bit number, which may have a plus sign but no minus sign. -/
def readUnsigned (base : Nat) : List Char → Option Nat
  | '+' :: cs => (readNat base cs).filter (· ≤ maxUnsigned)
  | cs => (readNat base cs).filter (· ≤ maxUnsigned)

/-- An offset: hexadecimal after `0x` or `0X`, decimal otherwise. -/
def readOffset : List Char → Option Nat
  | '0' :: 'x' :: digits => readUnsigned 16 digits
  | '0' :: 'X' :: digits => readUnsigned 16 digits
  | digits => readUnsigned 10 digits

end CodeLift.Text
