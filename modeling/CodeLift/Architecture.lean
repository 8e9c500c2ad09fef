import CodeLift.Text.Lowercase

/-!
# Architectures

The instruction sets with a built-in decoder, their canonical names, and the aliases under which
they are known.
-/

namespace CodeLift

/-- A supported instruction set. -/
inductive Architecture where
  /-- 32-bit x86 -/
  | x86
  /-- 64-bit x86 -/
  | x64
  /-- 32-bit ARM -/
  | arm
  /-- ARM in Thumb mode -/
  | thumb
  /-- 64-bit ARM -/
  | aarch64
  /-- 32-bit MIPS -/
  | mips32
  /-- 32-bit RISC-V -/
  | riscv32
  /-- 64-bit RISC-V -/
  | riscv64
  /-- 32-bit PowerPC -/
  | ppc32
deriving DecidableEq, Repr

namespace Architecture

/-- Every architecture, in the order in which they are listed. -/
def all : List Architecture := [x86, x64, arm, thumb, aarch64, mips32, riscv32, riscv64, ppc32]

/-- The canonical name, under which the built-in decoder is registered. -/
def name : Architecture → String
  | x86 => "x86"
  | x64 => "x86_64"
  | arm => "arm"
  | thumb => "thumb"
  | aarch64 => "aarch64"
  | mips32 => "mips32"
  | riscv32 => "riscv32"
  | riscv64 => "riscv64"
  | ppc32 => "ppc32"

/-- The name for people to read. -/
def label : Architecture → String
  | x86 => "x86-32"
  | x64 => "x86-64"
  | arm => "ARM"
  | thumb => "Thumb"
  | aarch64 => "AArch64"
  | mips32 => "MIPS32"
  | riscv32 => "RISC-V 32"
  | riscv64 => "RISC-V 64"
  | ppc32 => "PowerPC 32"

/-- The name as one word, for debugging. -/
def tag : Architecture → String
  | x86 => "X86_32"
  | x64 => "X86_64"
  | arm => "Arm"
  | thumb => "Thumb"
  | aarch64 => "AArch64"
  | mips32 => "Mips32"
  | riscv32 => "RiscV32"
  | riscv64 => "RiscV64"
  | ppc32 => "Ppc32"

/-- Every name and alias, in lower case. -/
def aliases : Architecture → List String
  | x86 => ["x86", "i386", "x86_32", "x86-32"]
  | x64 => ["x86_64", "x86-64", "amd64"]
  | arm => ["arm"]
  | thumb => ["thumb"]
  | aarch64 => ["aarch64", "arm64"]
  | mips32 => ["mips", "mips32"]
  | riscv32 => ["riscv32"]
  | riscv64 => ["riscv", "riscv64"]
  | ppc32 => ["ppc", "ppc32", "powerpc"]

/-- The architecture with this name or alias, in any letter case. -/
def ofName? (name : String) : Option Architecture :=
  all.find? fun a => a.aliases.contains (Text.lower name)

end Architecture

end CodeLift
