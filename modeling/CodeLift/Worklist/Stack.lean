import Std.Data.TreeSet

/-!
# Stacks without duplicates

Last in, first out; an element that is waiting is not taken a second time. Once it has been popped
it may come back. A stack can be turned over.
-/

namespace CodeLift

/-- A stack whose elements are distinct. -/
structure UniqueStack (α : Type) [Ord α] where
  /-- The waiting elements, newest first. -/
  items : List α := []
  /-- The same elements, as a set. -/
  members : Std.TreeSet α := {}

namespace UniqueStack

variable {α : Type} [Ord α]

/-- The waiting elements, oldest first. -/
def toList (s : UniqueStack α) : List α := s.items.reverse

/-- Whether an element is waiting. -/
def contains (s : UniqueStack α) (a : α) : Bool := s.members.contains a

/-- Add an element on top unless it is waiting already; the flag says whether it was added. -/
def insert (s : UniqueStack α) (a : α) : Bool × UniqueStack α :=
  if s.contains a then (false, s)
  else (true, { items := a :: s.items, members := s.members.insert a })

/-- Take out the newest element. -/
def pop? (s : UniqueStack α) : Option (α × UniqueStack α) :=
  match s.items with
  | a :: items => some (a, { items, members := s.members.erase a })
  | [] => none

/-- Turn the stack over, so that the oldest element is the next one. -/
def reverse (s : UniqueStack α) : UniqueStack α := { s with items := s.items.reverse }

/-- The number of waiting elements. -/
def size (s : UniqueStack α) : Nat := s.items.length

/-- Whether nothing is waiting. -/
def isEmpty (s : UniqueStack α) : Bool := s.items.isEmpty

/-! ## The stack as a list -/

/-- The size is the length of the list. -/
theorem size_eq_length (s : UniqueStack α) : s.size = s.toList.length := by
  simp [size, toList]

/-- Inserting puts an element that is not waiting at the end of the list. -/
theorem toList_insert (s : UniqueStack α) (a : α) :
    (s.insert a).2.toList = if s.contains a then s.toList else s.toList ++ [a] := by
  unfold insert
  split <;> simp [toList]

/-- Inserting puts an element that is not waiting into the set. -/
theorem members_insert (s : UniqueStack α) (a : α) :
    (s.insert a).2.members = if s.contains a then s.members else s.members.insert a := by
  unfold insert
  split <;> rfl

/-- The element that is taken out is the last of the list. -/
theorem toList_of_pop? {s rest : UniqueStack α} {a : α} (h : s.pop? = some (a, rest)) :
    s.toList = rest.toList ++ [a] := by
  unfold pop? at h
  split at h
  · next items hi =>
    cases h
    simp [toList, hi]
  · cases h

/-- Turning the stack over turns the list over. -/
theorem toList_reverse (s : UniqueStack α) : s.reverse.toList = s.toList.reverse := rfl

/-- Adding an element makes at most one more. -/
theorem size_insert_le (s : UniqueStack α) (a : α) : (s.insert a).2.size ≤ s.size + 1 := by
  rw [size_eq_length, size_eq_length, toList_insert]
  split <;> simp

/-- Taking out an element leaves one less. -/
theorem size_of_pop? {s rest : UniqueStack α} {a : α} (h : s.pop? = some (a, rest)) :
    s.size = rest.size + 1 := by
  rw [size_eq_length, size_eq_length, toList_of_pop? h, List.length_append, List.length_singleton]

end UniqueStack

end CodeLift
