import CodeLift.CodeMap.Basic

/-!
# Cutting blocks

An address inside a block becomes the entry of a block of its own: the instructions from it on move
to a new block, and control falls through from the old one into the new one.
-/

namespace CodeLift

/-- A record whose operations begin `ops` places earlier. -/
def Record.rebase (r : Record) (ops : Nat) : Record := { r with firstOp := r.firstOp - ops }

namespace Block

/-- How many records and how many operations of a block come before `addr`: up to the record with
that address, or all but the last operation if that marks a failure at `addr`. -/
def cutPoint? (b : Block) (addr : Address) : Option (Nat × Nat) :=
  match b.insns.findIdx? (·.addr == addr) with
  | some i => b.insns[i]?.map fun r => (i, r.firstOp)
  | none =>
    if b.stop == addr && b.isUnreachable then some (b.insns.length, b.ops.length - 1) else none

/-- The part of a block before the cut. -/
def head (b : Block) (addr : Address) (insns ops : Nat) : Block :=
  { b with stop := addr, insns := b.insns.take insns, ops := b.ops.take ops }

/-- The part of a block after the cut. -/
def tail (b : Block) (addr : Address) (insns ops : Nat) : Block :=
  { entry := addr
    stop := b.stop
    insns := (b.insns.drop insns).map (·.rebase ops)
    ops := b.ops.drop ops }

/-- Cut a block in two at `addr`, if it can be cut there. The records after the cut must lie at or
after the cut among the operations too. -/
def cut? (b : Block) (addr : Address) : Except Fault (Option (Block × Block)) :=
  match b.cutPoint? addr with
  | none => .ok none
  | some (insns, ops) =>
    if ops ≤ b.ops.length && (b.insns.drop insns).all (ops ≤ ·.firstOp) then
      .ok (some (b.head addr insns ops, b.tail addr insns ops))
    else .error (.brokenBlock b.entry)

end Block

/-- What came of making an address a block entry. -/
structure Split where
  /-- The map afterwards. -/
  map : CodeMap
  /-- The slot of the block that begins at the address, if there is one. -/
  slot : Option Nat
  /-- The cut, if a block was cut. -/
  events : List Event := []

namespace CodeMap

/-- Put the two parts of the block in `slot` in its place and in the next slot. If nothing is left
before the cut there is no instruction to fall through from: then only the part before the cut is
kept. -/
def divide (m : CodeMap) (slot : Nat) (head tail : Block) : Split :=
  let blocks := m.blocks.setIfInBounds slot head
  match head.lastInsn? with
  | none => { map := { m with blocks }, slot := none }
  | some source =>
    let fresh := m.blocks.size
    let failurePoint := if tail.isUnreachable then [tail.stop] else []
    { map := {
        blocks := blocks.push tail
        entries := m.entries.insert tail.entry fresh
        owners := own m.owners fresh (tail.insns.map (·.addr) ++ failurePoint)
        pending := ⟨source, .fallthrough, some tail.entry⟩ :: m.pending }
      slot := some fresh
      events := [.split head.entry tail.entry] }

/-- Make an address the entry of a block, by cutting the block that holds it if need be. -/
def split (m : CodeMap) (addr : Address) : Except Fault Split :=
  match m.lookup addr with
  | .entry slot => .ok { map := m, slot := some slot }
  | .unknown => .ok { map := m, slot := none }
  | .interior slot => do
    match ← (← m.blockIn slot).cut? addr with
    | none => return { map := m, slot := none }
    | some (head, tail) => return m.divide slot head tail

/-- Putting two parts in the place of a block takes no entry away. -/
theorem entries_size_le_divide (m : CodeMap) (slot : Nat) (head tail : Block) :
    m.entries.size ≤ (m.divide slot head tail).map.entries.size := by
  unfold divide
  split
  · exact Nat.le_refl _
  · exact Std.TreeMap.size_le_size_insert

/-- Making an address a block entry takes no other entry away. -/
theorem entries_size_le_of_split {m : CodeMap} {addr : Address} {s : Split}
    (h : m.split addr = .ok s) : m.entries.size ≤ s.map.entries.size := by
  unfold split at h
  split at h
  · cases h; exact Nat.le_refl _
  · cases h; exact Nat.le_refl _
  · obtain ⟨b, -, h⟩ := bind_eq_ok.1 h
    obtain ⟨parts, -, h⟩ := bind_eq_ok.1 h
    rcases parts with _ | ⟨head, tail⟩
    · cases h; exact Nat.le_refl _
    · cases h
      exact entries_size_le_divide m _ head tail

end CodeMap

end CodeLift
