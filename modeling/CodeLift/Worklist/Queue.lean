import Std.Data.TreeSet

/-!
# Queues without duplicates

First in, first out; an element that is waiting is not taken a second time. Once it has been popped
it may come back.
-/

namespace CodeLift

/-- A queue whose elements are distinct. -/
structure UniqueQueue (α : Type) [Ord α] where
  /-- The oldest elements, oldest first. -/
  front : List α := []
  /-- The newest elements, newest first. -/
  back : List α := []
  /-- The elements that are waiting. -/
  members : Std.TreeSet α := {}

namespace UniqueQueue

variable {α : Type} [Ord α]

/-- The waiting elements, oldest first. -/
def toList (q : UniqueQueue α) : List α := q.front ++ q.back.reverse

/-- Whether an element is waiting. -/
def contains (q : UniqueQueue α) (a : α) : Bool := q.members.contains a

/-- Add an element at the end unless it is waiting already; the flag says whether it was added. -/
def insert (q : UniqueQueue α) (a : α) : Bool × UniqueQueue α :=
  if q.contains a then (false, q)
  else (true, { q with back := a :: q.back, members := q.members.insert a })

/-- Take out the oldest element. -/
def pop? (q : UniqueQueue α) : Option (α × UniqueQueue α) :=
  match q.front with
  | a :: front => some (a, { q with front, members := q.members.erase a })
  | [] =>
    match q.back.reverse with
    | a :: front => some (a, { front, back := [], members := q.members.erase a })
    | [] => none

/-- The number of waiting elements. -/
def size (q : UniqueQueue α) : Nat := q.front.length + q.back.length

/-- Whether nothing is waiting. -/
def isEmpty (q : UniqueQueue α) : Bool := q.front.isEmpty && q.back.isEmpty

/-! ## The queue as a list -/

/-- The size is the length of the list. -/
theorem size_eq_length (q : UniqueQueue α) : q.size = q.toList.length := by
  simp [size, toList]

/-- Inserting puts an element that is not waiting at the end of the list. -/
theorem toList_insert (q : UniqueQueue α) (a : α) :
    (q.insert a).2.toList = if q.contains a then q.toList else q.toList ++ [a] := by
  unfold insert
  split <;> simp [toList]

/-- Inserting puts an element that is not waiting into the set. -/
theorem members_insert (q : UniqueQueue α) (a : α) :
    (q.insert a).2.members = if q.contains a then q.members else q.members.insert a := by
  unfold insert
  split <;> rfl

/-- The element that is taken out is the first of the list. -/
theorem toList_of_pop? {q rest : UniqueQueue α} {a : α} (h : q.pop? = some (a, rest)) :
    q.toList = a :: rest.toList := by
  unfold pop? at h
  split at h
  · next front hf =>
    cases h
    simp [toList, hf]
  · next hf =>
    split at h
    · next front hb =>
      cases h
      simp [toList, hf, hb]
    · cases h

/-- Adding an element makes at most one more. -/
theorem size_insert_le (q : UniqueQueue α) (a : α) : (q.insert a).2.size ≤ q.size + 1 := by
  rw [size_eq_length, size_eq_length, toList_insert]
  split <;> simp

/-- Taking out an element leaves one less. -/
theorem size_of_pop? {q rest : UniqueQueue α} {a : α} (h : q.pop? = some (a, rest)) :
    q.size = rest.size + 1 := by
  rw [size_eq_length, size_eq_length, toList_of_pop? h, List.length_cons]

end UniqueQueue

end CodeLift
