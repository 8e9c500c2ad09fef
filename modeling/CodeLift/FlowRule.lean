import CodeLift.Flow
import CodeLift.Operands

/-!
# Rules by mnemonic

For every family of architectures, what an instruction's mnemonic and operands say about control
flow. A rule that has no opinion answers `none`, and the instruction's groups are asked instead.
Mnemonics and operands are expected in lower case.
-/

namespace CodeLift.FlowRule

open ControlFlow

/-- The condition codes that a branch mnemonic of ARM can end in. -/
def armConditions : List String :=
  ["eq", "ne", "cs", "hs", "cc", "lo", "mi", "pl", "vs", "vc", "hi", "ls", "ge", "lt", "gt", "le"]

/-- The mnemonic without a qualifier after a dot, such as the width in `b.w`. -/
def stem (mnemonic : String) : String := String.ofList (mnemonic.toList.takeWhile (· != '.'))

/-- Whether the mnemonic is a branch with a condition code. -/
def armConditional (mnemonic : String) : Bool :=
  ["b", "bx"].any fun start =>
    match Text.dropStart? (stem mnemonic) start with
    | some condition => armConditions.contains condition
    | none => false

/-- ARM and Thumb. A write to the program counter is a jump, and a return if the value comes from
the stack or from the link register. -/
def arm (mnemonic operands : String) (target : Option Address) : Option ControlFlow :=
  let base := stem mnemonic
  let registers := Operands.registers operands
  let writesPc := registers.head? == some "pc"
  if base == "bl" || base == "blx" then some (callTo target)
  else if base == "bx" then some (if operands == "lr" then ret else indirectJump)
  else if base == "b" then some (jumpTo target)
  else if base == "cbz" || base == "cbnz" then target.map condJump
  else if base == "pop" && registers.contains "pc" then some ret
  else if Text.startsWith base "ldm" && registers.contains "pc" then
    some (if registers.head? == some "sp" then ret else indirectJump)
  else if base == "mov" && writesPc && registers.getLast? == some "lr" then some ret
  else if (base == "mov" || base == "ldr") && writesPc then some indirectJump
  else if armConditional base then target.map condJump
  else none

/-- 64-bit ARM. -/
def aarch64 (mnemonic : String) (target : Option Address) : Option ControlFlow :=
  if mnemonic == "ret" || mnemonic == "retaa" || mnemonic == "retab" then some ret
  else if Text.startsWith mnemonic "blr" then some indirectCall
  else if Text.startsWith mnemonic "br" then some indirectJump
  else if mnemonic == "bl" then some (callTo target)
  else if mnemonic == "b" then some (jumpTo target)
  else if ["cbz", "cbnz", "tbz", "tbnz"].contains mnemonic then target.map condJump
  else if Text.startsWith mnemonic "b." then target.map condJump
  else none

/-- MIPS. -/
def mips (mnemonic operands : String) (target : Option Address) : Option ControlFlow :=
  let base := stem mnemonic
  if base == "jr" then
    some (if (Operands.registers operands).head? == some "ra" then ret else indirectJump)
  else if base == "jalr" then some indirectCall
  else if ["jal", "bal", "bgezal", "bltzal"].contains base then some (callTo target)
  else if base == "j" || base == "b" then some (jumpTo target)
  else if Text.startsWith base "b" then target.map condJump
  else none

/-- RISC-V, compressed instructions included. Which register takes the return address tells a call
from a jump: it is the first one named, and `zero` keeps nothing. -/
def riscv (mnemonic operands : String) (target : Option Address) : Option ControlFlow :=
  let base := (Text.dropStart? mnemonic "c.").getD mnemonic
  let registers := Operands.registers operands
  let first := registers.head?
  if base == "ret" then some ret
  else if base == "j" then some (jumpTo target)
  else if base == "jal" then some (if first == some "zero" then jumpTo target else callTo target)
  else if base == "jr" then some (if first == some "ra" then ret else indirectJump)
  else if base == "jalr" then
    if first == some "zero" then
      some (if Text.occursIn "(ra)".toList operands.toList || registers.getLast? == some "ra"
        then ret else indirectJump)
    else some indirectCall
  else if Text.startsWith base "b" then target.map condJump
  else none

/-- PowerPC. Conditional returns and jumps through the count register are left to the groups. -/
def ppc (mnemonic : String) (target : Option Address) : Option ControlFlow :=
  if mnemonic == "blr" then some ret
  else if mnemonic == "blrl" || mnemonic == "bctrl" then some indirectCall
  else if mnemonic == "bctr" then some indirectJump
  else if mnemonic == "bl" || mnemonic == "bla" then some (callTo target)
  else if mnemonic == "b" || mnemonic == "ba" then some (jumpTo target)
  else if Text.startsWith mnemonic "b" then target.map condJump
  else none

end CodeLift.FlowRule
