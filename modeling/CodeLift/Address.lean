import CodeLift.Text.Hex

/-!
# Addresses and faults

Code lives at 64-bit addresses, counted from the start of the region that is lifted. Arithmetic on
addresses is exact: where a result does not fit the word, the computation stops with a `Fault`.

A fault is a broken promise between parts of the program. Every operation of the library that can
go wrong (an index, a difference, a word that overflows) reports it as a fault, so that `Except.ok`
says that none of them did.
-/

namespace CodeLift

/-- An address in the region that is lifted. -/
abbrev Address := UInt64

/-- A computation that cannot go on. -/
inductive Fault where
  /-- The address after an instruction does not fit the word. -/
  | addressOverflow
  /-- The negation of a signed number does not fit the word. -/
  | negationOverflow
  /-- A second block was recorded at an entry that has one. -/
  | duplicateEntry (entry : Address)
  /-- A block number that the function does not have. -/
  | noSuchBlock (id : Nat)
  /-- A slot that the code map does not have. -/
  | noSuchSlot (slot : Nat)
  /-- An instruction of the block at `entry` points at an operation that is not there. -/
  | brokenBlock (entry : Address)
  /-- A listing was given the block `id` where the block `expected` is next. -/
  | blockOutOfOrder (id expected : Nat)
deriving DecidableEq, Repr

/-- A sequence of two computations succeeds when both do. -/
theorem bind_eq_ok {α β : Type} {x : Except Fault α} {f : α → Except Fault β} {b : β} :
    x >>= f = .ok b ↔ ∃ a, x = .ok a ∧ f a = .ok b := by
  constructor
  · intro h
    cases x with
    | error e => simp [bind, Except.bind] at h
    | ok a => exact ⟨a, rfl, h⟩
  · rintro ⟨a, rfl, h⟩
    exact h

namespace Address

/-- The number of addresses: two to the power of 64. -/
def count : Nat := 0x10000000000000000

/-- Distinct addresses below `n` are at most `n` many. -/
theorem length_le_of_nodup {n : Nat} {l : List Address} (hd : l.Nodup)
    (hl : ∀ a ∈ l, a.toNat < n) : l.length ≤ n := by
  have hdistinct : (l.map UInt64.toNat).Nodup := by
    rw [List.Nodup, List.pairwise_map]
    exact hd.imp fun hne heq => hne (UInt64.toNat_inj.1 heq)
  have hbelow : l.map UInt64.toNat ⊆ List.range n := by
    intro x hx
    obtain ⟨a, ha, rfl⟩ := List.mem_map.1 hx
    exact List.mem_range.2 (hl a ha)
  have hle := hdistinct.length_le_of_subset hbelow
  rwa [List.length_map, List.length_range] at hle

/-- The address as it is written everywhere: `0x` and the shortest hexadecimal digits. -/
def text (a : Address) : String := Text.hex a.toNat

/-- The address that a signed number stands for, modulo the word. -/
def ofInt (v : Int) : Address := UInt64.ofInt v

/-- The address `size` bytes further on. -/
def advance (a : Address) (size : UInt8) : Except Fault Address :=
  if a.toNat + size.toNat < count then .ok (a + size.toUInt64) else .error .addressOverflow

end Address

end CodeLift
