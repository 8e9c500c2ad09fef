import CodeLift.Text.Hex

/-!
# JSON texts

Values are written either on one line without blanks, or over several lines with two blanks per
level. Fields keep the order in which they are given. In strings only the characters that must be
escaped are escaped. A text is built from its end, as the characters in front of the rest.
-/

namespace CodeLift

/-- A JSON value whose numbers are natural. -/
inductive Json where
  /-- The null value. -/
  | null
  /-- A truth value. -/
  | bool (b : Bool)
  /-- A number. -/
  | num (n : Nat)
  /-- A string. -/
  | str (s : String)
  /-- An array. -/
  | arr (items : List Json)
  /-- An object, as a list of its fields. -/
  | obj (fields : List (String × Json))

namespace Json

/-- A character inside a string. Quotes, backslashes and control characters are escaped, these with
a letter of their own if they have one. -/
def escapeChar (c : Char) : List Char :=
  if c == '"' then ['\\', '"']
  else if c == '\\' then ['\\', '\\']
  else if c == '\x08' then ['\\', 'b']
  else if c == '\x0c' then ['\\', 'f']
  else if c == '\n' then ['\\', 'n']
  else if c == '\r' then ['\\', 'r']
  else if c == '\t' then ['\\', 't']
  else if c.toNat < 0x20 then
    ['\\', 'u', '0', '0', Nat.digitChar (c.toNat / 16), Nat.digitChar (c.toNat % 16)]
  else [c]

/-- A string in quotes, in front of `rest`. -/
def quote (rest : List Char) (s : String) : List Char :=
  '"' :: (s.toList.flatMap escapeChar ++ '"' :: rest)

/-- A value that is neither an array nor an object, in front of `rest`. -/
def scalar (rest : List Char) : Json → List Char
  | null => "null".toList ++ rest
  | bool true => "true".toList ++ rest
  | bool false => "false".toList ++ rest
  | num n => (Text.decimal n).toList ++ rest
  | str s => quote rest s
  | _ => rest

mutual

/-- A value on one line, in front of `rest`. -/
def compact (rest : List Char) : Json → List Char
  | arr items => '[' :: compactItems (']' :: rest) items
  | obj fields => '{' :: compactFields ('}' :: rest) fields
  | v => scalar rest v

/-- The items of an array on one line, in front of `rest`. -/
def compactItems (rest : List Char) : List Json → List Char
  | [] => rest
  | [v] => compact rest v
  | v :: vs => compact (',' :: compactItems rest vs) v

/-- The fields of an object on one line, in front of `rest`. -/
def compactFields (rest : List Char) : List (String × Json) → List Char
  | [] => rest
  | [(k, v)] => quote (':' :: compact rest v) k
  | (k, v) :: fs => quote (':' :: compact (',' :: compactFields rest fs) v) k

end

/-- A line break and the blanks of a level, in front of `rest`. -/
def newline (level : Nat) (rest : List Char) : List Char :=
  '\n' :: (List.replicate (2 * level) ' ' ++ rest)

/-- The line break before a closing bracket, unless there is nothing before it. -/
def closing {α : Type} (level : Nat) (items : List α) (rest : List Char) : List Char :=
  if items.isEmpty then rest else newline level rest

mutual

/-- A value over several lines, at a level and in front of `rest`. Empty arrays and objects stay on
one line. -/
def pretty (level : Nat) (rest : List Char) : Json → List Char
  | arr items => '[' :: prettyItems (level + 1) (closing level items (']' :: rest)) items
  | obj fields => '{' :: prettyFields (level + 1) (closing level fields ('}' :: rest)) fields
  | v => scalar rest v

/-- The items of an array, each on lines of its own, in front of `rest`. -/
def prettyItems (level : Nat) (rest : List Char) : List Json → List Char
  | [] => rest
  | [v] => newline level (pretty level rest v)
  | v :: vs => newline level (pretty level (',' :: prettyItems level rest vs) v)

/-- The fields of an object, each on lines of its own, in front of `rest`. -/
def prettyFields (level : Nat) (rest : List Char) : List (String × Json) → List Char
  | [] => rest
  | [(k, v)] => newline level (quote (':' :: ' ' :: pretty level rest v) k)
  | (k, v) :: fs =>
    newline level (quote (':' :: ' ' :: pretty level (',' :: prettyFields level rest fs) v) k)

end

/-- The value as a document over several lines. -/
def document (v : Json) : String := String.ofList (v.pretty 0 [])

/-- The value as one line, line feed included. -/
def record (v : Json) : String := String.ofList (v.compact ['\n'])

/-- A number, or null if there is none. -/
def ofNat? : Option Nat → Json
  | some n => num n
  | none => null

end Json

end CodeLift
