import CodeLift.Text.CaseTable

/-!
# Lower case

Lower-casing by the Unicode rules. A character has its own lower-case form, with one exception: a
capital sigma becomes `ς` where it ends a word and `σ` elsewhere, so the text around it counts.
-/

namespace CodeLift.Text

/-- The lower-case form of a character taken alone. Only the capital I with a dot has two
characters. -/
def lowerChar (c : Char) : List Char :=
  if c.toNat < 0x80 then [c.toLower]
  else if c == 'İ' then ['i', '\u0307']
  else
    match caseRuns.find? (·.covers c.toNat) with
    | some run => [Char.ofNat (c.toNat + run.shift).toNat]
    | none => [c]

/-- Whether a cased character comes first in `cs` once the case-ignorable ones are skipped. -/
def meetsCased (cs : List Char) : Bool :=
  match cs.dropWhile (inTable caseIgnorable) with
  | [] => false
  | c :: _ => inTable cased c

/-- The lower-case form of a capital sigma, given the characters before it (nearest first) and
after it. -/
def lowerSigma (before after : List Char) : Char :=
  if meetsCased before && !meetsCased after then 'ς' else 'σ'

/-- Lower case of a text whose preceding characters are `before`, nearest first. -/
def lowerAfter (before : List Char) : List Char → List Char
  | [] => []
  | c :: cs =>
    (if c == 'Σ' then [lowerSigma before cs] else lowerChar c) ++ lowerAfter (c :: before) cs

/-- The text in lower case. -/
def lower (s : String) : String := String.ofList (lowerAfter [] s.toList)

end CodeLift.Text
