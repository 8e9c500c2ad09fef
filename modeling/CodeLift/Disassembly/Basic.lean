import CodeLift.Classify
import CodeLift.Decoder

/-!
# Decoding from a disassembly

The built-in decoder works from what a disassembler says of each offset of the image: the length,
mnemonic, operands, groups and immediates of the instruction there, or nothing if it rejects the
bytes. An instruction becomes one step that carries its operands, followed by a step for its control
transfer if it has one.
-/

namespace CodeLift

/-- What a disassembler says of the bytes at an offset. -/
structure Reading where
  /-- The offset of the instruction. -/
  pc : Address
  /-- Its length in bytes. -/
  size : UInt8
  /-- Its mnemonic. -/
  mnemonic : String
  /-- Its operands, as one text. -/
  operands : String
  /-- Its groups and immediates. -/
  detail : Detail
deriving DecidableEq, Repr

/-- A disassembler's answers; an offset without a reading is one that it rejects. -/
abbrev Disassembly := List Reading

namespace Reading

/-- The instruction as a line of assembly. -/
def text (r : Reading) : String :=
  String.ofList (Text.trim (r.mnemonic ++ " " ++ r.operands).toList)

/-- The steps of the instruction, given its control transfer. -/
def steps (r : Reading) (flow : Option ControlFlow) : List MicroOp :=
  MicroOp.sealed <|
    { opcode := r.mnemonic, args := Operands.split r.operands } ::
      (flow.map fun f => MicroOp.control f.opcode f).toList

/-- The instruction of `image` that a reading describes. -/
def insn (r : Reading) (arch : Architecture) (image : ByteArray) : Except Fault Insn := do
  let flow ← arch.classify r.pc r.mnemonic r.operands r.detail
  return {
    addr := r.pc
    size := r.size
    ops := r.steps flow
    bytes := (image.extract r.pc.toNat (r.pc.toNat + r.size.toNat)).data.toList
    text := some r.text }

end Reading

namespace Disassembly

/-- The decoder that works from a disassembly. -/
def decoder (arch : Architecture) (readings : Disassembly) : Decoder where
  decodeOne image pc :=
    if image.size ≤ pc.toNat then .ok (.error (.outOfRange pc))
    else
      match readings.find? (·.pc == pc) with
      | none => .ok (.error (.invalid pc "unrecognized encoding"))
      | some r =>
        if r.size == 0 then .ok (.error (.invalid pc "decoder returned a misplaced instruction"))
        else do return .ok (← r.insn arch image)

/-- The name of the built-in decoder of an architecture. -/
def decoderLabel (arch : Architecture) : String := "CapstoneDecoder::" ++ arch.label

/-- The built-in decoder of an architecture, spelled out for debugging. -/
def decoderDescription (arch : Architecture) : String :=
  "CapstoneDecoder \x7b arch: " ++ arch.tag ++ " \x7d"

end Disassembly

end CodeLift
