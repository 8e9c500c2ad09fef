import CodeLift.Architecture
import CodeLift.FlowRule

/-!
# Classification of instructions

Whether an instruction transfers control, and where to. The mnemonic decides first, by the rule of
the architecture; the disassembler's instruction groups are the fallback, and on x86, where they are
reliable, the only source.
-/

namespace CodeLift

/-- The architecture-independent groups into which a disassembler sorts instructions. -/
inductive Group where
  /-- Jumps of all kinds. -/
  | jump
  /-- Calls. -/
  | call
  /-- Returns. -/
  | ret
  /-- Software interrupts. -/
  | interrupt
  /-- Returns from interrupts. -/
  | interruptReturn
  /-- Privileged instructions. -/
  | privilege
  /-- Branches relative to the program counter. -/
  | relativeBranch
deriving DecidableEq, Repr

/-- The group with this number. -/
def Group.ofNumber? : Nat → Option Group
  | 1 => some jump
  | 2 => some call
  | 3 => some ret
  | 4 => some interrupt
  | 5 => some interruptReturn
  | 6 => some privilege
  | 7 => some relativeBranch
  | _ => none

/-- What a disassembler knows of an instruction beyond its text. -/
structure Detail where
  /-- The groups that the instruction belongs to. -/
  groups : List Group
  /-- The values of its immediate operands, in order. -/
  immediates : List Int
deriving DecidableEq, Repr

/-- Mnemonics that stop execution, on any architecture. -/
def haltMnemonics : List String := ["hlt", "ud2", "udf", "brk", "break", "ebreak", "trap"]

namespace Architecture

/-- The absolute address that a direct transfer at `pc` goes to. Disassemblers report it as the last
immediate (on 32-bit ARM, of 32 bits), or it has to be read from the operand text, where RISC-V
counts from the instruction itself. -/
def immediateTarget (arch : Architecture) (pc : Address) (operands : String) (detail : Detail) :
    Except Fault (Option Address) :=
  match arch with
  | x86 | x64 | aarch64 => .ok (detail.immediates.getLast?.map Address.ofInt)
  | arm | thumb => .ok (detail.immediates.getLast?.map fun v => Address.ofInt (v % 0x100000000))
  | riscv32 | riscv64 => do
    return (← Operands.lastImmediate operands).map fun offset => pc + Address.ofInt offset
  | mips32 | ppc32 => do return (← Operands.lastImmediate operands).map Address.ofInt

/-- Whether a jump with a known target may fall through. -/
def isConditional (arch : Architecture) (mnemonic : String) : Bool :=
  match arch with
  | x86 | x64 =>
    (Text.startsWith mnemonic "j" && mnemonic != "jmp") || Text.startsWith mnemonic "loop"
  | arm | thumb => Text.startsWith mnemonic "cb" || FlowRule.armConditional mnemonic
  | aarch64 =>
    Text.startsWith mnemonic "b." || Text.startsWith mnemonic "cb" || Text.startsWith mnemonic "tb"
  | mips32 => Text.startsWith mnemonic "b" && !(["b", "bal"].contains mnemonic)
  | riscv32 | riscv64 => Text.startsWith mnemonic "b"
  | ppc32 => Text.startsWith mnemonic "b" && !(["b", "ba", "bl", "bla"].contains mnemonic)

/-- What the mnemonic says, by the rule of the architecture. -/
def flowByMnemonic (arch : Architecture) (mnemonic operands : String) (target : Option Address) :
    Option ControlFlow :=
  match arch with
  | x86 | x64 => none
  | arm | thumb => FlowRule.arm mnemonic operands target
  | aarch64 => FlowRule.aarch64 mnemonic target
  | mips32 => FlowRule.mips mnemonic operands target
  | riscv32 | riscv64 => FlowRule.riscv mnemonic operands target
  | ppc32 => FlowRule.ppc mnemonic target

/-- What the groups say. A return counts before a call, and a call before a jump. -/
def flowByGroup (arch : Architecture) (mnemonic : String) (target : Option Address)
    (groups : List Group) : Option ControlFlow :=
  if groups.contains .ret || groups.contains .interruptReturn then some .ret
  else if groups.contains .call then some (.callTo target)
  else if groups.contains .jump || groups.contains .relativeBranch then
    match target with
    | some t => some (if arch.isConditional mnemonic then .condJump t else .jump t)
    | none => some .indirectJump
  else none

/-- The control transfer of the instruction at `pc`, if it performs one. -/
def classify (arch : Architecture) (pc : Address) (mnemonic operands : String) (detail : Detail) :
    Except Fault (Option ControlFlow) :=
  let mnemonic := Text.lower mnemonic
  let operands := Text.lower operands
  if haltMnemonics.contains mnemonic then .ok (some .halt)
  else do
    let target ← arch.immediateTarget pc operands detail
    return (arch.flowByMnemonic mnemonic operands target).or
      (arch.flowByGroup mnemonic target detail.groups)

end Architecture

end CodeLift
