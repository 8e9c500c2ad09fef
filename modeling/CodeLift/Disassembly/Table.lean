import CodeLift.Disassembly.Basic

/-!
# Disassemblies as tables

A disassembly can be kept in a file, one reading per line. A line has six fields with tabs between
them: offset, length, mnemonic, operands, the numbers of the groups, and the immediates. The last
two are lists with blanks between their items.
-/

namespace CodeLift

/-- The items of a list that is written with blanks between them. -/
def wordsOf (cs : List Char) : List (List Char) :=
  (Text.pieces Text.isBlank cs).filter (!·.isEmpty)

/-- The reading in a line of a table. -/
def Reading.ofLine? (line : String) : Option Reading :=
  match Text.pieces (· == '\t') line.toList with
  | [offset, length, mnemonic, operands, groups, immediates] => do
    let pc ← Text.readOffset offset
    let size ← Text.readUnsigned 10 length
    let numbers ← (wordsOf groups).mapM (Text.readUnsigned 10)
    let immediates ← (wordsOf immediates).mapM (Text.readSigned 10)
    if size < 256 then
      return {
        pc := pc.toUInt64
        size := size.toUInt8
        mnemonic := String.ofList mnemonic
        operands := String.ofList operands
        detail := { groups := numbers.filterMap Group.ofNumber?, immediates } }
    else none
  | _ => none

/-- The disassembly in a table; lines that are no readings do not count. -/
def Disassembly.ofTable (table : String) : Disassembly :=
  (Text.lines table).filterMap Reading.ofLine?

end CodeLift
