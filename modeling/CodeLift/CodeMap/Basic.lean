import CodeLift.Event
import Std.Data.TreeMap

/-!
# Code maps

A code map holds the blocks found so far in numbered slots, and knows for every address whether a
block begins there, or an instruction inside a block. Exits are kept by the address of the
instruction that they leave, never by block: when a block is cut, they go with their instruction.

The point where decoding failed counts as an instruction of its block. A branch that comes to it
later then cuts the block there, and the address is not decoded a second time.
-/

namespace CodeLift

/-- The blocks found so far, with all that is known of addresses and exits. -/
structure CodeMap where
  /-- The blocks, by slot. -/
  blocks : Array Block := #[]
  /-- The slot of the block that begins at an address. -/
  entries : Std.TreeMap Address Nat := {}
  /-- The slot of the block that holds the instruction at an address. -/
  owners : Std.TreeMap Address Nat := {}
  /-- The exits of all blocks, newest first. -/
  pending : List Exit := []

/-- Where an address lies relative to the blocks of a map. -/
inductive Lookup where
  /-- The block in the slot begins there. -/
  | entry (slot : Nat)
  /-- An instruction inside the block in the slot begins there. -/
  | interior (slot : Nat)
  /-- Nothing known begins there. -/
  | unknown
deriving DecidableEq, Repr

namespace CodeMap

/-- Where an address lies. -/
def lookup (m : CodeMap) (addr : Address) : Lookup :=
  match m.entries[addr]? with
  | some slot => .entry slot
  | none =>
    match m.owners[addr]? with
    | some slot => .interior slot
    | none => .unknown

/-- Whether a block or a known instruction begins at an address. -/
def isBoundary (m : CodeMap) (addr : Address) : Bool :=
  m.entries.contains addr || m.owners.contains addr

/-- The block in a slot. -/
def blockIn (m : CodeMap) (slot : Nat) : Except Fault Block :=
  match m.blocks[slot]? with
  | some b => .ok b
  | none => .error (.noSuchSlot slot)

/-- The exits of all blocks, in the order in which they were found. -/
def exits (m : CodeMap) : List Exit := m.pending.reverse

/-- Give all the addresses to a slot. -/
def own (owners : Std.TreeMap Address Nat) (slot : Nat) (addrs : List Address) :
    Std.TreeMap Address Nat :=
  addrs.foldl (fun owners addr => owners.insert addr slot) owners

/-- Record a block with its exits in the next slot. -/
def commit (m : CodeMap) (b : Block) (exits : List Exit) : Except Fault CodeMap :=
  let slot := m.blocks.size
  if m.entries.contains b.entry then .error (.duplicateEntry b.entry)
  else
    let failurePoint := if b.isUnreachable && !b.insns.isEmpty then [b.stop] else []
    .ok {
      blocks := m.blocks.push b
      entries := m.entries.insert b.entry slot
      owners := own m.owners slot (b.insns.map (·.addr) ++ failurePoint)
      pending := exits.reverse ++ m.pending }

/-- Recording a block puts its exits after those found before. -/
theorem exits_of_commit {m m' : CodeMap} {b : Block} {exits : List Exit}
    (h : m.commit b exits = .ok m') : m'.exits = m.exits ++ exits := by
  unfold commit at h
  split at h
  · cases h
  · cases h
    simp [CodeMap.exits]

/-- Recording a block adds one entry. -/
theorem entries_size_of_commit {m m' : CodeMap} {b : Block} {exits : List Exit}
    (h : m.commit b exits = .ok m') : m'.entries.size = m.entries.size + 1 := by
  unfold commit at h
  split at h
  · cases h
  · next hb =>
    cases h
    simp [Std.TreeMap.size_insert, hb]

/-- There are no more entries than addresses. -/
theorem entries_size_le (m : CodeMap) : m.entries.size ≤ Address.count := by
  rw [← Std.TreeMap.length_keys]
  refine Address.length_le_of_nodup ?_ fun a _ => a.toNat_lt
  exact Std.TreeMap.distinct_keys.imp fun hne heq => hne (Std.LawfulEqOrd.compare_eq_iff_eq.2 heq)

end CodeMap

end CodeLift
