import CodeLift.Address
import CodeLift.Text.Blank
import CodeLift.Text.Number
import CodeLift.Text.Piece

/-!
# Operand texts

A disassembler hands over the operands of an instruction as one text. It is cut at the commas that
stand outside all brackets. Registers are words of it, and the target of a direct branch can be its
last operand, a signed number.
-/

namespace CodeLift.Operands

/-- The bracket depth after `c`. A closing bracket too many is ignored, and the three kinds of
brackets are not told apart. -/
def depthAfter (depth : Nat) (c : Char) : Nat :=
  if c == '[' || c == '{' || c == '(' then depth + 1
  else if c == ']' || c == '}' || c == ')' then depth - 1
  else depth

/-- The pieces between the commas at depth zero, of a text that begins at depth `depth`. -/
def cut (depth : Nat) : List Char → List (List Char)
  | [] => [[]]
  | c :: cs =>
    if c == ',' && depth == 0 then [] :: cut 0 cs
    else Text.consHead c (cut (depthAfter depth c) cs)

/-- The list without a last piece that is empty. -/
def dropEmptyLast : List (List Char) → List (List Char)
  | [] => []
  | [w] => if w.isEmpty then [] else [w]
  | w :: ws => w :: dropEmptyLast ws

/-- The operands, each without the blanks around it. A blank after the last comma is no operand. -/
def splitChars (cs : List Char) : List (List Char) := dropEmptyLast ((cut 0 cs).map Text.trim)

/-- The operands of an operand text. -/
def split (operands : String) : List String := (splitChars operands.toList).map String.ofList

/-- Whether `c` stands between two register names. -/
def isSeparator (c : Char) : Bool := c == ',' || c == '{' || c == '}' || Text.isBlank c

/-- A register name without the marks for writing back and for a register. -/
def bareName (cs : List Char) : List Char :=
  (Text.dropEndWhile (· == '!') cs).dropWhile (· == '$')

/-- The words of an operand text, in order, without list braces and marks. -/
def registers (operands : String) : List String :=
  (((Text.pieces isSeparator operands.toList).map bareName).filter (!·.isEmpty)).map String.ofList

/-- A number as a disassembler writes it: hexadecimal after `0x`, decimal otherwise. -/
def readLiteral : List Char → Option Int
  | '0' :: 'x' :: digits => Text.readSigned 16 digits
  | digits => Text.readSigned 10 digits

/-- The value of an immediate operand. A minus sign in front of the literal negates it, which fails
for the least number of the word. -/
def readImmediate : List Char → Except Fault (Option Int)
  | '-' :: digits =>
    match readLiteral digits with
    | none => .ok none
    | some v => if v == Text.minSigned then .error .negationOverflow else .ok (some (-v))
  | digits => .ok (readLiteral digits)

/-- The last operand as a signed number, if it is one. Number signs in front of it do not count. -/
def lastImmediate (operands : String) : Except Fault (Option Int) :=
  match (splitChars operands.toList).getLast? with
  | none => .ok none
  | some last => readImmediate (last.dropWhile (· == '#'))

end CodeLift.Operands
