import CodeLift.Worklist.Queue
import CodeLift.Worklist.Stack
import Mathlib.Data.List.Nodup

/-!
# Worklists as lists without duplicates

Both worklists keep their elements twice: in a list, which decides the order, and in a set, which is
asked before an element is added. `Agree` says that the two tell the same. It holds of the empty
worklists, and inserting and taking out keep it.

An element can be taken out of a worklist wherever it stands. `pop?` is one way to do that.
-/

namespace CodeLift

variable {α : Type}

/-- `rest` is `items` without the element `a`, which stood somewhere in it. -/
def Removed (a : α) (items rest : List α) : Prop :=
  ∃ before after, items = before ++ a :: after ∧ rest = before ++ after

theorem Removed.mem_iff {a b : α} {items rest : List α} (h : Removed a items rest) :
    b ∈ items ↔ b = a ∨ b ∈ rest := by
  obtain ⟨before, after, rfl, rfl⟩ := h
  simp only [List.mem_append, List.mem_cons]
  tauto

theorem Removed.length {a : α} {items rest : List α} (h : Removed a items rest) :
    items.length = rest.length + 1 := by
  obtain ⟨before, after, rfl, rfl⟩ := h
  simp only [List.length_append, List.length_cons]
  omega

variable [Ord α]

/-- The list `items` has no duplicates, and the set `members` has exactly its elements. -/
structure Agree (items : List α) (members : Std.TreeSet α) : Prop where
  /-- No element stands in the list twice. -/
  nodup : items.Nodup
  /-- The set has the elements of the list. -/
  mem_iff : ∀ a, a ∈ members ↔ a ∈ items

variable {items rest : List α} {members : Std.TreeSet α} {a b : α}

/-- An element is offered to a list: it goes to the end, unless the set has it. Nothing but that
element can come in. -/
theorem mem_of_mem_offer (h : b ∈ if members.contains a then items else items ++ [a]) :
    b = a ∨ b ∈ items := by
  split at h
  · exact .inr h
  · simp only [List.mem_append, List.mem_singleton] at h
    exact h.symm

namespace Agree

theorem reverse (h : Agree items members) : Agree items.reverse members where
  nodup := List.nodup_reverse.2 h.nodup
  mem_iff b := (h.mem_iff b).trans List.mem_reverse.symm

theorem contains_eq [DecidableEq α] (h : Agree items members) (a : α) :
    members.contains a = decide (a ∈ items) := by
  rw [Bool.eq_iff_iff, decide_eq_true_iff, ← h.mem_iff, Std.TreeSet.mem_iff_contains]

/-- Asking the set is asking the list, also for the answer to an offer. -/
theorem answer_eq [DecidableEq α] (h : Agree items members) (a : α) :
    (!members.contains a, if members.contains a then items else items ++ [a]) =
      if a ∈ items then (false, items) else (true, items ++ [a]) := by
  rw [h.contains_eq]
  by_cases ha : a ∈ items
  · simp [ha]
  · simp [ha]

/-- An element that was offered is there, with those that were there. -/
theorem mem_offer (h : Agree items members) :
    (b ∈ if members.contains a then items else items ++ [a]) ↔ b = a ∨ b ∈ items := by
  refine ⟨mem_of_mem_offer, ?_⟩
  intro hb
  split
  · next hc =>
    have ha : a ∈ items := (h.mem_iff a).1 (by rwa [Std.TreeSet.mem_iff_contains])
    exact hb.elim (fun he => he ▸ ha) id
  · simp only [List.mem_append, List.mem_singleton]
    exact hb.symm

variable [Std.TransOrd α] [Std.LawfulEqOrd α]

/-- An element that is not in the list can be put at its end. -/
theorem insert (h : Agree items members) (ha : a ∉ members) :
    Agree (items ++ [a]) (members.insert a) := by
  refine ⟨?_, ?_⟩
  · rw [List.nodup_append_comm, List.singleton_append, List.nodup_cons]
    exact ⟨fun hm => ha ((h.mem_iff a).2 hm), h.nodup⟩
  · intro b
    rw [Std.TreeSet.mem_insert, h.mem_iff, Std.LawfulEqOrd.compare_eq_iff_eq]
    simp only [List.mem_append, List.mem_singleton]
    tauto

/-- An element can be offered to the list and to the set. -/
theorem offer (h : Agree items members) (a : α) :
    Agree (if members.contains a then items else items ++ [a])
      (if members.contains a then members else members.insert a) := by
  by_cases hc : members.contains a
  · rw [if_pos hc, if_pos hc]
    exact h
  · rw [if_neg hc, if_neg hc]
    exact h.insert (by rwa [Std.TreeSet.mem_iff_contains])

/-- An element can be taken out of the list and of the set. -/
theorem remove (h : Agree items members) (hr : Removed a items rest) :
    Agree rest (members.erase a) := by
  obtain ⟨before, after, rfl, rfl⟩ := hr
  obtain ⟨hn, hm⟩ := h
  rw [List.nodup_middle, List.nodup_cons] at hn
  refine ⟨hn.2, ?_⟩
  intro b
  rw [Std.TreeSet.mem_erase, hm, Ne, Std.LawfulEqOrd.compare_eq_iff_eq]
  constructor
  · rintro ⟨hne, hb⟩
    simp only [List.mem_append, List.mem_cons] at hb ⊢
    rcases hb with hb | hb | hb
    · exact .inl hb
    · exact absurd hb.symm hne
    · exact .inr hb
  · intro hb
    refine ⟨fun he => hn.1 (he ▸ hb), ?_⟩
    simp only [List.mem_append, List.mem_cons] at hb ⊢
    tauto

end Agree

/-! ## Queues -/

namespace UniqueQueue

/-- The list and the set of a queue tell the same. -/
def Coherent (q : UniqueQueue α) : Prop := Agree q.toList q.members

/-- `rest` is the queue `q` after `a` has been taken out of it. -/
structure Removes (q : UniqueQueue α) (a : α) (rest : UniqueQueue α) : Prop where
  /-- It has left the list. -/
  toList : Removed a q.toList rest.toList
  /-- It has left the set. -/
  members : rest.members = q.members.erase a

theorem removes_of_pop? {q rest : UniqueQueue α} {a : α} (h : q.pop? = some (a, rest)) :
    q.Removes a rest := by
  refine ⟨⟨[], rest.toList, toList_of_pop? h, rfl⟩, ?_⟩
  unfold pop? at h
  split at h
  · cases h; rfl
  · split at h <;> cases h
    rfl

theorem size_of_pop?_eq_none {q : UniqueQueue α} (h : q.pop? = none) : q.size = 0 := by
  unfold pop? at h
  split at h
  · cases h
  · next hf =>
    split at h
    · cases h
    · next hb => simp [size, hf, List.reverse_eq_nil_iff.1 hb]

theorem coherent_empty : Coherent ({} : UniqueQueue α) :=
  ⟨List.nodup_nil, fun a => by simp [toList]⟩

theorem of_mem_insert {q : UniqueQueue α} {a b : α} (h : b ∈ (q.insert a).2.toList) :
    b = a ∨ b ∈ q.toList := by
  rw [toList_insert] at h
  exact mem_of_mem_offer h

/-- After an insertion the element is in the queue, with those that were there. -/
theorem Coherent.mem_insert {q : UniqueQueue α} (h : q.Coherent) {a b : α} :
    b ∈ (q.insert a).2.toList ↔ b = a ∨ b ∈ q.toList := by
  rw [toList_insert]
  exact Agree.mem_offer h

variable [Std.TransOrd α] [Std.LawfulEqOrd α]

theorem Coherent.insert {q : UniqueQueue α} (h : q.Coherent) (a : α) : (q.insert a).2.Coherent := by
  rw [Coherent, toList_insert, members_insert]
  exact Agree.offer h a

end UniqueQueue

/-! ## Stacks -/

namespace UniqueStack

/-- The list and the set of a stack tell the same. -/
def Coherent (s : UniqueStack α) : Prop := Agree s.toList s.members

/-- `rest` is the stack `s` after `a` has been taken out of it. -/
structure Removes (s : UniqueStack α) (a : α) (rest : UniqueStack α) : Prop where
  /-- It has left the list. -/
  toList : Removed a s.toList rest.toList
  /-- It has left the set. -/
  members : rest.members = s.members.erase a

theorem removes_of_pop? {s rest : UniqueStack α} {a : α} (h : s.pop? = some (a, rest)) :
    s.Removes a rest := by
  refine ⟨⟨rest.toList, [], toList_of_pop? h, (List.append_nil _).symm⟩, ?_⟩
  unfold pop? at h
  split at h <;> cases h
  rfl

theorem size_of_pop?_eq_none {s : UniqueStack α} (h : s.pop? = none) : s.size = 0 := by
  unfold pop? at h
  split at h
  · cases h
  · next hi => simp [size, hi]

theorem coherent_empty : Coherent ({} : UniqueStack α) :=
  ⟨List.nodup_nil, fun a => by simp [toList]⟩

theorem of_mem_insert {s : UniqueStack α} {a b : α} (h : b ∈ (s.insert a).2.toList) :
    b = a ∨ b ∈ s.toList := by
  rw [toList_insert] at h
  exact mem_of_mem_offer h

/-- After an insertion the element is on the stack, with those that were there. -/
theorem Coherent.mem_insert {s : UniqueStack α} (h : s.Coherent) {a b : α} :
    b ∈ (s.insert a).2.toList ↔ b = a ∨ b ∈ s.toList := by
  rw [toList_insert]
  exact Agree.mem_offer h

variable [Std.TransOrd α] [Std.LawfulEqOrd α]

theorem Coherent.insert {s : UniqueStack α} (h : s.Coherent) (a : α) : (s.insert a).2.Coherent := by
  rw [Coherent, toList_insert, members_insert]
  exact Agree.offer h a

end UniqueStack

end CodeLift
