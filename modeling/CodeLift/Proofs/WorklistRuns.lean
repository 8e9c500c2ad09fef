import CodeLift.Address
import CodeLift.Proofs.Worklist
import Mathlib.Data.List.Induction

/-!
# Runs of worklists

The queue and the stack answer like a plain list without duplicates. All three offer the same
operations (`Worklist.Operations`), so one definition says what a sequence of requests does to each
of them. An operation of the list is the shadow of the operation of the queue or the stack
(`Worklist.Refines`), and by induction so is a whole run.

From the answers of a run one can tell what is waiting: an element that was taken in and has not
been given out since. Only such an element is refused.
-/

namespace CodeLift

namespace Worklist

/-! ## Requests and answers -/

/-- Which element a worklist gives out first. -/
inductive Order where
  | oldest
  | newest

variable {σ α : Type} {order : Order}

/-- What can be asked of a worklist. It can be turned over only if it gives out the newest
element. -/
inductive Request (α : Type) (order : Order) where
  | insert (a : α)
  | pop
  | contains (a : α)
  | size
  | isEmpty
  | reverse (h : order = .newest)

/-- What a worklist answers. -/
inductive Answer (α : Type) where
  | flag (b : Bool)
  | element (a : Option α)
  | number (n : Nat)
  | done

/-- A request with its answer. -/
abbrev Event (α : Type) (order : Order) := Request α order × Answer α

/-- The operations of a worklist with the states `σ`. -/
structure Operations (σ α : Type) (order : Order) where
  insert : σ → α → Bool × σ
  pop? : σ → Option (α × σ)
  contains : σ → α → Bool
  size : σ → Nat
  isEmpty : σ → Bool
  reverse : order = .newest → σ → σ

namespace Operations

/-- The answer to a request and the state after it. -/
def perform (ops : Operations σ α order) (s : σ) : Request α order → Answer α × σ
  | .insert a => (.flag (ops.insert s a).1, (ops.insert s a).2)
  | .pop =>
    match ops.pop? s with
    | some (a, rest) => (.element (some a), rest)
    | none => (.element none, s)
  | .contains a => (.flag (ops.contains s a), s)
  | .size => (.number (ops.size s), s)
  | .isEmpty => (.flag (ops.isEmpty s), s)
  | .reverse h => (.done, ops.reverse h s)

theorem perform_pop_of_some {ops : Operations σ α order} {s rest : σ} {a : α}
    (h : ops.pop? s = some (a, rest)) : ops.perform s .pop = (.element (some a), rest) := by
  simp only [perform, h]

theorem perform_pop_of_none {ops : Operations σ α order} {s : σ} (h : ops.pop? s = none) :
    ops.perform s .pop = (.element none, s) := by
  simp only [perform, h]

/-- What happens when requests are made one after the other, and the state at the end. -/
def run (ops : Operations σ α order) (s : σ) (requests : List (Request α order)) :
    List (Event α order) × σ :=
  requests.foldl
    (fun t r => (t.1 ++ [(r, (ops.perform t.2 r).1)], (ops.perform t.2 r).2)) ([], s)

theorem run_nil (ops : Operations σ α order) (s : σ) : ops.run s [] = ([], s) := rfl

theorem run_concat (ops : Operations σ α order) (s : σ) (requests : List (Request α order))
    (r : Request α order) :
    ops.run s (requests ++ [r]) =
      ((ops.run s requests).1 ++ [(r, (ops.perform (ops.run s requests).2 r).1)],
        (ops.perform (ops.run s requests).2 r).2) := by
  unfold run
  rw [List.foldl_append]
  rfl

end Operations

/-! ## The list -/

/-- The element of a list, oldest first, that is given out, and those that stay. -/
def takeFrom : Order → List α → Option (α × List α)
  | .oldest, items => items.head?.map (·, items.tail)
  | .newest, items => items.getLast?.map (·, items.dropLast)

/-- A list, oldest element first, as a worklist. -/
def lists [DecidableEq α] (order : Order) : Operations (List α) α order where
  insert items a := if a ∈ items then (false, items) else (true, items ++ [a])
  pop? := takeFrom order
  contains items a := decide (a ∈ items)
  size := List.length
  isEmpty := List.isEmpty
  reverse _ := List.reverse

theorem takeFrom_eq_some {items rest : List α} {a : α} (h : takeFrom order items = some (a, rest)) :
    Removed a items rest := by
  cases order with
  | oldest =>
    cases items with
    | nil => cases h
    | cons b items =>
      obtain ⟨rfl, rfl⟩ := Prod.mk.inj (Option.some.inj h)
      exact ⟨[], items, rfl, rfl⟩
  | newest =>
    obtain rfl | ⟨items, b, rfl⟩ := items.eq_nil_or_concat'
    · cases h
    · rw [takeFrom, List.getLast?_concat, List.dropLast_concat] at h
      obtain ⟨rfl, rfl⟩ := Prod.mk.inj (Option.some.inj h)
      exact ⟨items, [], rfl, (List.append_nil items).symm⟩

/-! ## What is waiting -/

/-- The element was taken in. -/
def taken (a : α) : Event α order := (.insert a, .flag true)

/-- The element was given out. -/
def given (a : α) : Event α order := (.pop, .element (some a))

/-- Whenever the element was taken in, it was given out later. -/
def Settled (a : α) (events : List (Event α order)) : Prop :=
  ∀ before after, events = before ++ taken a :: after → given a ∈ after

theorem settled_nil (a : α) : Settled a ([] : List (Event α order)) := by
  intro before after h
  simp at h

theorem settled_concat {a : α} {events : List (Event α order)} {e : Event α order} :
    Settled a (events ++ [e]) ↔ e ≠ taken a ∧ (Settled a events ∨ e = given a) := by
  constructor
  · intro h
    refine ⟨?_, ?_⟩
    · rintro rfl
      have hmem := h events [] rfl
      cases hmem
    · by_cases he : e = given a
      · exact .inr he
      · refine .inl ?_
        rintro before after rfl
        have hmem := h before (after ++ [e]) (by simp)
        rcases List.mem_append.1 hmem with hmem | hmem
        · exact hmem
        · exact absurd (List.mem_singleton.1 hmem).symm he
  · rintro ⟨hne, hor⟩ before after heq
    obtain rfl | ⟨after, f, rfl⟩ := after.eq_nil_or_concat'
    · obtain ⟨-, hlast⟩ := List.append_inj' heq rfl
      exact absurd (List.singleton_inj.1 hlast) hne
    · have hsplit : events ++ [e] = (before ++ taken a :: after) ++ [f] := by
        rw [heq, List.append_assoc, List.cons_append]
      obtain ⟨rfl, hlast⟩ := List.append_inj' hsplit rfl
      obtain rfl := List.singleton_inj.1 hlast
      rcases hor with hor | rfl
      · exact List.mem_append_left _ (hor before after rfl)
      · simp

variable [DecidableEq α]

/-- After a request an element is on the list if it was taken in just now, or was there and has not
just been given out. -/
theorem mem_perform_iff {items : List α} (h : items.Nodup) (r : Request α order) (a : α) :
    a ∈ ((lists order).perform items r).2 ↔
      (r, ((lists order).perform items r).1) = taken a ∨
        a ∈ items ∧ (r, ((lists order).perform items r).1) ≠ given a := by
  cases r with
  | insert b =>
    by_cases hb : b ∈ items
    · simp [Operations.perform, lists, hb, taken, given]
    · simp [Operations.perform, lists, hb, taken, given, eq_comm, or_comm]
  | pop =>
    cases hpop : (lists order).pop? items with
    | none =>
      rw [Operations.perform_pop_of_none hpop]
      simp [taken, given]
    | some pair =>
      obtain ⟨b, rest⟩ := pair
      have hremoved : Removed b items rest := takeFrom_eq_some hpop
      have hrest : b ∉ rest := by
        obtain ⟨before, after, rfl, rfl⟩ := hremoved
        rw [List.nodup_middle, List.nodup_cons] at h
        exact h.1
      rw [Operations.perform_pop_of_some hpop, hremoved.mem_iff]
      simp only [taken, given, ne_eq, Prod.mk.injEq, reduceCtorEq, false_and, false_or, true_and,
        Answer.element.injEq, Option.some.injEq]
      constructor
      · intro ha
        refine ⟨.inr ha, ?_⟩
        rintro rfl
        exact hrest ha
      · rintro ⟨ha | ha, hne⟩
        · exact absurd ha.symm hne
        · exact ha
  | contains b => simp [Operations.perform, taken, given]
  | size => simp [Operations.perform, taken, given]
  | isEmpty => simp [Operations.perform, taken, given]
  | reverse hr => simp [Operations.perform, lists, taken, given]

/-! ## Worklists that answer like the list -/

variable [Ord α]

/-- The operations act on the list and the set of a state as those of the list do. -/
structure Refines (ops : Operations σ α order) (items : σ → List α)
    (members : σ → Std.TreeSet α) : Prop where
  insert {s : σ} (h : Agree (items s) (members s)) (a : α) :
    Prod.map id items (ops.insert s a) = (lists order).insert (items s) a
  agree_insert {s : σ} (h : Agree (items s) (members s)) (a : α) :
    Agree (items (ops.insert s a).2) (members (ops.insert s a).2)
  pop? (s : σ) : (ops.pop? s).map (Prod.map id items) = takeFrom order (items s)
  members_pop? {s rest : σ} {a : α} (h : ops.pop? s = some (a, rest)) :
    members rest = (members s).erase a
  contains {s : σ} (h : Agree (items s) (members s)) (a : α) :
    ops.contains s a = decide (a ∈ items s)
  size (s : σ) : ops.size s = (items s).length
  isEmpty (s : σ) : ops.isEmpty s = (items s).isEmpty
  reverse (h : order = .newest) (s : σ) : items (ops.reverse h s) = (items s).reverse
  members_reverse (h : order = .newest) (s : σ) : members (ops.reverse h s) = members s

namespace Refines

variable {ops : Operations σ α order} {items : σ → List α} {members : σ → Std.TreeSet α} {s : σ}

theorem perform_eq (h : Refines ops items members) (hs : Agree (items s) (members s))
    (r : Request α order) :
    Prod.map id items (ops.perform s r) = (lists order).perform (items s) r := by
  cases r with
  | insert a =>
    show Prod.map Answer.flag id (Prod.map id items (ops.insert s a)) =
      Prod.map Answer.flag id ((lists order).insert (items s) a)
    rw [h.insert hs]
  | pop =>
    have hshadow := h.pop? s
    cases hpop : ops.pop? s with
    | none =>
      rw [hpop] at hshadow
      rw [Operations.perform_pop_of_none hpop, Operations.perform_pop_of_none hshadow.symm]
      rfl
    | some pair =>
      obtain ⟨a, rest⟩ := pair
      rw [hpop] at hshadow
      rw [Operations.perform_pop_of_some hpop, Operations.perform_pop_of_some hshadow.symm]
      rfl
  | contains a =>
    show (Answer.flag (ops.contains s a), items s) = (Answer.flag (decide (a ∈ items s)), items s)
    rw [h.contains hs]
  | size =>
    show (Answer.number (ops.size s), items s) = (Answer.number (items s).length, items s)
    rw [h.size]
  | isEmpty =>
    show (Answer.flag (ops.isEmpty s), items s) = (Answer.flag (items s).isEmpty, items s)
    rw [h.isEmpty]
  | reverse hr =>
    show (Answer.done, items (ops.reverse hr s)) = (Answer.done, (items s).reverse)
    rw [h.reverse]

theorem insert_iff (h : Refines ops items members) (hs : Agree (items s) (members s)) (a : α) :
    (ops.insert s a).1 = true ↔ a ∉ items s := by
  have hflag := congrArg Prod.fst (h.insert hs a)
  rw [Prod.map_fst, id_eq] at hflag
  rw [hflag]
  by_cases ha : a ∈ items s
  · simp [lists, ha]
  · simp [lists, ha]

variable [Std.TransOrd α] [Std.LawfulEqOrd α]

theorem agree_perform (h : Refines ops items members) (hs : Agree (items s) (members s))
    (r : Request α order) :
    Agree (items (ops.perform s r).2) (members (ops.perform s r).2) := by
  cases r with
  | insert a => exact h.agree_insert hs a
  | pop =>
    cases hpop : ops.pop? s with
    | none =>
      rw [Operations.perform_pop_of_none hpop]
      exact hs
    | some pair =>
      obtain ⟨a, rest⟩ := pair
      have hshadow := h.pop? s
      rw [hpop] at hshadow
      rw [Operations.perform_pop_of_some hpop, h.members_pop? hpop]
      exact hs.remove (takeFrom_eq_some hshadow.symm)
  | contains a => exact hs
  | size => exact hs
  | isEmpty => exact hs
  | reverse hr =>
    show Agree (items (ops.reverse hr s)) (members (ops.reverse hr s))
    rw [h.reverse, h.members_reverse]
    exact hs.reverse

/-- A run is a run of the list, with the same answers, and keeps list and set together. -/
theorem run_eq (h : Refines ops items members) (hs : Agree (items s) (members s))
    (requests : List (Request α order)) :
    Prod.map id items (ops.run s requests) = (lists order).run (items s) requests ∧
      Agree (items (ops.run s requests).2) (members (ops.run s requests).2) := by
  -- the last request meets the state at the end of the run before it
  induction requests using List.reverseRecOn with
  | nil => exact ⟨rfl, hs⟩
  | append_singleton requests r ih =>
    obtain ⟨hrun, hagree⟩ := ih
    rw [Operations.run_concat, Operations.run_concat, ← hrun, Prod.map_fst, Prod.map_snd,
      ← h.perform_eq hagree r]
    exact ⟨rfl, h.agree_perform hagree r⟩

/-- What is waiting after a run can be told from the answers. -/
theorem mem_run_iff (h : Refines ops items members) (hs : Agree (items s) (members s))
    (hempty : items s = []) (requests : List (Request α order)) (a : α) :
    a ∈ items (ops.run s requests).2 ↔ ¬ Settled a (ops.run s requests).1 := by
  induction requests using List.reverseRecOn with
  | nil =>
    rw [Operations.run_nil, hempty]
    exact iff_of_false List.not_mem_nil (not_not.2 (settled_nil a))
  | append_singleton requests r ih =>
    have hagree := (h.run_eq hs requests).2
    have hstep := h.perform_eq hagree r
    have hanswer := congrArg Prod.fst hstep
    have hitems := congrArg Prod.snd hstep
    rw [Prod.map_fst, id_eq] at hanswer
    rw [Prod.map_snd] at hitems
    rw [Operations.run_concat, hitems, mem_perform_iff hagree.nodup, ← hanswer, settled_concat, ih]
    tauto

end Refines

/-- A run from an empty worklist. At its end the elements are distinct and are those of the set.
Answers and elements are those of the same run on a list. An element is taken in next if and only if
it was given out whenever it had been taken in before. -/
structure RunsAsList (ops : Operations σ α order) (items : σ → List α)
    (members : σ → Std.TreeSet α) (s : σ) (requests : List (Request α order)) : Prop where
  agree : Agree (items (ops.run s requests).2) (members (ops.run s requests).2)
  events : (ops.run s requests).1 = ((lists order).run [] requests).1
  items_eq : items (ops.run s requests).2 = ((lists order).run [] requests).2
  accepts_iff : ∀ a,
    (ops.insert (ops.run s requests).2 a).1 = true ↔ Settled a (ops.run s requests).1

theorem Refines.runsAsList [Std.TransOrd α] [Std.LawfulEqOrd α] {ops : Operations σ α order}
    {items : σ → List α} {members : σ → Std.TreeSet α} {s : σ} (h : Refines ops items members)
    (hs : Agree (items s) (members s)) (hempty : items s = [])
    (requests : List (Request α order)) : RunsAsList ops items members s requests := by
  obtain ⟨hrun, hagree⟩ := h.run_eq hs requests
  rw [hempty] at hrun
  refine ⟨hagree, congrArg Prod.fst hrun, congrArg Prod.snd hrun, ?_⟩
  intro a
  rw [h.insert_iff hagree, h.mem_run_iff hs hempty, not_not]

end Worklist

/-! ## The queue and the stack -/

variable {α : Type} [Ord α]

open Worklist (Operations Refines RunsAsList lists takeFrom)

/-- The operations of a queue. -/
def UniqueQueue.operations : Operations (UniqueQueue α) α .oldest where
  insert := UniqueQueue.insert
  pop? := UniqueQueue.pop?
  contains := UniqueQueue.contains
  size := UniqueQueue.size
  isEmpty := UniqueQueue.isEmpty
  reverse h := nomatch h

/-- The operations of a stack. -/
def UniqueStack.operations : Operations (UniqueStack α) α .newest where
  insert := UniqueStack.insert
  pop? := UniqueStack.pop?
  contains := UniqueStack.contains
  size := UniqueStack.size
  isEmpty := UniqueStack.isEmpty
  reverse _ := UniqueStack.reverse

theorem UniqueQueue.fst_insert (q : UniqueQueue α) (a : α) : (q.insert a).1 = !q.contains a := by
  unfold insert
  split
  · next h => simp [h]
  · next h => simp [h]

theorem UniqueStack.fst_insert (t : UniqueStack α) (a : α) : (t.insert a).1 = !t.contains a := by
  unfold insert
  split
  · next h => simp [h]
  · next h => simp [h]

variable [Std.TransOrd α] [Std.LawfulEqOrd α] [DecidableEq α]

theorem UniqueQueue.refines :
    Refines (operations (α := α)) UniqueQueue.toList UniqueQueue.members where
  insert {q} h a := by
    show ((q.insert a).1, (q.insert a).2.toList) =
      if a ∈ q.toList then (false, q.toList) else (true, q.toList ++ [a])
    rw [fst_insert, toList_insert]
    exact h.answer_eq a
  agree_insert {q} h a := Coherent.insert h a
  pop? q := by
    show q.pop?.map (Prod.map id UniqueQueue.toList) = takeFrom .oldest q.toList
    cases hpop : q.pop? with
    | none =>
      have hnil : q.toList = [] := by
        rw [← List.length_eq_zero_iff, ← size_eq_length]
        exact size_of_pop?_eq_none hpop
      rw [hnil]
      rfl
    | some pair =>
      obtain ⟨a, rest⟩ := pair
      rw [toList_of_pop? hpop]
      rfl
  members_pop? h := (removes_of_pop? h).members
  contains h a := h.contains_eq a
  size := size_eq_length
  isEmpty q := by
    show (q.front.isEmpty && q.back.isEmpty) = (q.front ++ q.back.reverse).isEmpty
    rw [Bool.eq_iff_iff]
    simp
  reverse h := nomatch h
  members_reverse h := nomatch h

theorem UniqueStack.refines :
    Refines (operations (α := α)) UniqueStack.toList UniqueStack.members where
  insert {t} h a := by
    show ((t.insert a).1, (t.insert a).2.toList) =
      if a ∈ t.toList then (false, t.toList) else (true, t.toList ++ [a])
    rw [fst_insert, toList_insert]
    exact h.answer_eq a
  agree_insert {t} h a := Coherent.insert h a
  pop? t := by
    show t.pop?.map (Prod.map id UniqueStack.toList) = takeFrom .newest t.toList
    cases hpop : t.pop? with
    | none =>
      have hnil : t.toList = [] := by
        rw [← List.length_eq_zero_iff, ← size_eq_length]
        exact size_of_pop?_eq_none hpop
      rw [hnil]
      rfl
    | some pair =>
      obtain ⟨a, rest⟩ := pair
      rw [toList_of_pop? hpop, takeFrom, List.getLast?_concat, List.dropLast_concat]
      rfl
  members_pop? h := (removes_of_pop? h).members
  contains h a := h.contains_eq a
  size := size_eq_length
  isEmpty t := by
    show t.items.isEmpty = t.items.reverse.isEmpty
    rw [List.isEmpty_reverse]
  reverse _ := toList_reverse
  members_reverse _ _ := rfl

namespace Worklist

/-- Whatever is asked of an empty queue or stack, it answers as a list does that takes in an element
only if it is not there and gives out the first or the last one. Every beginning of a run is a run,
so after each request the elements are distinct and are those of the set, and an element is taken in
again exactly if it has been given out since. -/
theorem worklists_run_as_lists {α : Type} [Ord α] [Std.TransOrd α] [Std.LawfulEqOrd α]
    [DecidableEq α] :
    (∀ requests, RunsAsList UniqueQueue.operations UniqueQueue.toList UniqueQueue.members
      ({} : UniqueQueue α) requests) ∧
      ∀ requests, RunsAsList UniqueStack.operations UniqueStack.toList UniqueStack.members
        ({} : UniqueStack α) requests := by
  constructor
  · intro requests
    exact UniqueQueue.refines.runsAsList UniqueQueue.coherent_empty rfl requests
  · intro requests
    exact UniqueStack.refines.runsAsList UniqueStack.coherent_empty rfl requests

/-- An address that waits is refused and comes back after it was popped; a stack that is turned over
gives out the oldest address. -/
theorem worklists_run_as_lists_again :
    (UniqueQueue.operations.run ({} : UniqueQueue Address)
        [.insert 7, .insert 3, .insert 7, .pop, .insert 7, .size]).1.map Prod.snd =
      [.flag true, .flag true, .flag false, .element (some 7), .flag true, .number 2] ∧
      (UniqueStack.operations.run ({} : UniqueStack Address)
          [.insert 7, .insert 3, .reverse rfl, .contains 7, .pop, .insert 7, .isEmpty]).1.map
          Prod.snd =
        [.flag true, .flag true, .done, .flag true, .element (some 7), .flag true,
          .flag false] := by
  obtain ⟨hqueue, hstack⟩ := worklists_run_as_lists (α := Address)
  rw [(hqueue _).events, (hstack _).events]
  exact ⟨rfl, rfl⟩

end Worklist

end CodeLift
