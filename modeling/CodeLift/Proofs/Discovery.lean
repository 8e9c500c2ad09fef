import CodeLift.Discovery
import CodeLift.Proofs.MapInvariant
import CodeLift.Proofs.Trace
import CodeLift.Proofs.Worklist
import Mathlib.Logic.Relation

/-!
# Discovery with the waiting addresses taken in any order

`Discovery.Step` is one round of discovery that takes any waiting address, out of either worklist.
The round that `Discovery.run` makes is one of these. In every order discovery never faults and
comes to an end, and it keeps `Discovery.Inv`: every address at which a block has to begin has one
or waits.
-/

namespace CodeLift

namespace Discovery

/-! ## Rounds -/

/-- The address `a` waits in one of the worklists. -/
def Waits (d : Discovery) (a : Address) : Prop := a ∈ d.functions.toList ∨ a ∈ d.successors.toList

/-- The state `rest` is `d` after `addr` has been taken out of one of the worklists, wherever it
stood there. -/
inductive Takes (d : Discovery) (addr : Address) : Discovery → Prop where
  /-- A call target is taken. -/
  | function {functions : UniqueQueue Address} (h : d.functions.Removes addr functions) :
      Takes d addr { d with functions }
  /-- Another successor is taken. -/
  | successor {successors : UniqueStack Address} (h : d.successors.Removes addr successors) :
      Takes d addr { d with successors }

/-- One round: some waiting address is taken and dealt with. -/
def Step (s : Scanner) (size : Nat) (d d' : Discovery) : Prop :=
  ∃ addr rest, d.Takes addr rest ∧ rest.visit s size addr = .ok d'

variable {s : Scanner} {size : Nat} {entry addr a c : Address} {d d' rest : Discovery}

theorem takes_of_pop? (h : d.pop? = some (addr, rest)) : d.Takes addr rest := by
  unfold pop? at h
  split at h
  · next successors hs =>
    cases h
    exact .successor (UniqueStack.removes_of_pop? hs)
  · obtain ⟨⟨a, functions⟩, hf, he⟩ := Option.map_eq_some_iff.1 h
    cases he
    exact .function (UniqueQueue.removes_of_pop? hf)

theorem Takes.events_eq (h : d.Takes addr rest) : rest.events = d.events := by
  cases h with
  | function _ => rfl
  | successor _ => rfl

theorem waiting_of_pop?_eq_none (h : d.pop? = none) : d.waiting = 0 := by
  unfold pop? at h
  split at h
  · cases h
  · next hs =>
    have hf := Option.map_eq_none_iff.1 h
    rw [waiting, UniqueQueue.size_of_pop?_eq_none hf, UniqueStack.size_of_pop?_eq_none hs]

theorem run_of_pop?_eq_none (h : d.pop? = none) : d.run s size = .ok d := by
  rw [Discovery.run]
  split
  · rfl
  · next hp => cases hp.symm.trans h

theorem run_of_visit_eq_ok (hp : d.pop? = some (addr, rest))
    (hv : rest.visit s size addr = .ok d') : d.run s size = d'.run s size := by
  rw [Discovery.run]
  split
  · next hp' => cases hp'.symm.trans hp
  · next hp' =>
    cases hp'.symm.trans hp
    split
    · next hv' => cases hv'.symm.trans hv
    · next hv' =>
      cases hv'.symm.trans hv
      rfl

theorem run_of_visit_eq_error {fault : Fault} (hp : d.pop? = some (addr, rest))
    (hv : rest.visit s size addr = .error fault) : d.run s size = .error fault := by
  rw [Discovery.run]
  split
  · next hp' => cases hp'.symm.trans hp
  · next hp' =>
    cases hp'.symm.trans hp
    split
    · next hv' =>
      cases hv'.symm.trans hv
      rfl
    · next hv' => cases hv'.symm.trans hv

theorem waiting_eq_zero_iff : d.waiting = 0 ↔ ∀ a, ¬ d.Waits a := by
  rw [waiting, UniqueQueue.size_eq_length, UniqueStack.size_eq_length, Nat.add_eq_zero_iff,
    List.length_eq_zero_iff, List.length_eq_zero_iff, List.eq_nil_iff_forall_not_mem,
    List.eq_nil_iff_forall_not_mem]
  simp only [Waits, not_or, forall_and]

/-- A round lowers the potential, whichever address is taken. -/
theorem potential_lt_of_takes (ht : d.Takes addr rest) (hv : rest.visit s size addr = .ok d') :
    d'.potential < d.potential := by
  have hw : d.waiting = rest.waiting + 1 ∧ rest.map = d.map := by
    cases ht with
    | function h =>
      have hl := h.toList.length
      simp only [waiting, UniqueQueue.size_eq_length, and_true]
      omega
    | successor h =>
      have hl := h.toList.length
      simp only [waiting, UniqueStack.size_eq_length, and_true]
      omega
  have hb := d'.map.entries_size_le
  have hp := progress_of_visit hv
  rw [hw.2] at hp
  simp only [potential]
  omega

/-- No order of rounds goes on for ever. -/
theorem acc_step (s : Scanner) (size : Nat) (d : Discovery) : Acc (flip (Step s size)) d := by
  refine Subrelation.accessible ?_ (InvImage.accessible potential (Nat.lt_wfRel.wf.apply _))
  rintro d' d ⟨addr, rest, ht, hv⟩
  exact potential_lt_of_takes ht hv

/-! ## The invariant -/

/-- A block has to begin at `a`, given the stretches found so far: it is the entry, or a target in
the region. -/
def Wanted (s : Scanner) (size : Nat) (entry : Address) (ts : List (Stretch s.decode))
    (a : Address) : Prop :=
  a = entry ∨ (a.toNat < size ∧ LeadsTo s.policy ts a)

/-- What holds while the addresses `due` have been taken in hand, but not dealt with. -/
structure Inv (s : Scanner) (size : Nat) (entry : Address) (due : List Address) (d : Discovery)
    (ts : List (Stretch s.decode)) : Prop where
  /-- The map is right. -/
  map : d.map.Inv s size entry ts
  /-- The queue is coherent. -/
  functions : d.functions.Coherent
  /-- The stack is coherent. -/
  successors : d.successors.Coherent
  /-- No address waits without need. -/
  waiting : ∀ {a}, d.Waits a → Wanted s size entry ts a
  /-- None is in hand without need. -/
  needed : ∀ {a}, a ∈ due → Wanted s size entry ts a
  /-- Where a block has to begin, one does, or it will. -/
  wanted : ∀ {a}, Wanted s size entry ts a → Begins ts a ∨ d.Waits a ∨ a ∈ due
  /-- The failures of the stretches have been reported. -/
  failures : d.diagnostics.Perm ((ts.filterMap Stretch.failure).map .decode)
  /-- The decoder has been asked for the addresses that are held, once for each. -/
  asked : (attempts d.events).Perm (ts.flatMap Stretch.held)

theorem Takes.waits_iff (h : d.Takes addr rest) : d.Waits a ↔ a = addr ∨ rest.Waits a := by
  cases h with
  | function h =>
    simp only [Waits, h.toList.mem_iff]
    tauto
  | successor h =>
    simp only [Waits, h.toList.mem_iff]
    tauto

namespace Inv

variable {due : List Address} {ts : List (Stretch s.decode)} {t : Stretch s.decode} {k : Nat}

theorem start (s : Scanner) (size : Nat) (entry : Address) :
    (start entry).Inv s size entry [] [] := by
  have hw : ∀ a, (Discovery.start entry).Waits a ↔ a = entry := by
    intro a
    simp only [Waits, Discovery.start, UniqueQueue.coherent_empty.mem_insert]
    simp [UniqueQueue.toList, UniqueStack.toList]
  have hl : ∀ a, ¬ LeadsTo s.policy ([] : List (Stretch s.decode)) a := by
    rintro a ⟨x, ⟨t, ht, -⟩, -⟩
    exact List.not_mem_nil ht
  refine ⟨⟨CodeMap.shows_empty, ?_, ?_, ?_, ?_⟩, UniqueQueue.coherent_empty.insert entry,
    UniqueStack.coherent_empty, ?_, ?_, ?_, List.Perm.refl _, List.Perm.refl _⟩
  · rintro a ⟨t, ht, -⟩
    exact absurd ht List.not_mem_nil
  · rintro - a ⟨t, ht, -⟩
    exact absurd ht List.not_mem_nil
  · intro _ t ht
    exact absurd ht List.not_mem_nil
  · intro t ht
    exact absurd ht List.not_mem_nil
  · intro a ha
    exact .inl ((hw a).1 ha)
  · intro a ha
    exact absurd ha List.not_mem_nil
  · rintro a (rfl | ⟨-, ha⟩)
    · exact .inr (.inl ((hw a).2 rfl))
    · exact absurd ha (hl a)

theorem take (h : d.Inv s size entry due ts) (ht : d.Takes addr rest) :
    rest.Inv s size entry (addr :: due) ts := by
  have hw : ∀ a, d.Waits a ↔ a = addr ∨ rest.Waits a := fun _ => ht.waits_iff
  have hrest : rest.map = d.map ∧ rest.diagnostics = d.diagnostics ∧ rest.events = d.events ∧
      rest.functions.Coherent ∧ rest.successors.Coherent := by
    cases ht with
    | function hr =>
      refine ⟨rfl, rfl, rfl, ?_, h.successors⟩
      rw [UniqueQueue.Coherent, hr.members]
      exact h.functions.remove hr.toList
    | successor hr =>
      refine ⟨rfl, rfl, rfl, h.functions, ?_⟩
      rw [UniqueStack.Coherent, hr.members]
      exact h.successors.remove hr.toList
  obtain ⟨hmap, hdiag, hev, hf, hs⟩ := hrest
  refine ⟨hmap ▸ h.map, hf, hs, ?_, ?_, ?_, hdiag ▸ h.failures, hev ▸ h.asked⟩
  · intro a ha
    exact h.waiting ((hw a).2 (.inr ha))
  · intro a ha
    rcases List.mem_cons.1 ha with rfl | ha
    · exact h.waiting ((hw a).2 (.inl rfl))
    · exact h.needed ha
  · intro a ha
    rcases h.wanted ha with hb | hd | hm
    · exact .inl hb
    · rcases (hw a).1 hd with rfl | hd
      · exact .inr (.inr List.mem_cons_self)
      · exact .inr (.inl hd)
    · exact .inr (.inr (List.mem_cons_of_mem _ hm))

/-- An address that begins a stretch, or waits, has been dealt with. -/
theorem settle (h : d.Inv s size entry (addr :: due) ts) (ha : Begins ts addr ∨ d.Waits addr) :
    d.Inv s size entry due ts := by
  refine ⟨h.map, h.functions, h.successors, h.waiting,
    fun hm => h.needed (List.mem_cons_of_mem _ hm), ?_, h.failures, h.asked⟩
  intro a hw
  rcases h.wanted hw with hb | hd | hm
  · exact .inl hb
  · exact .inr (.inl hd)
  · rcases List.mem_cons.1 hm with rfl | hm
    · exact ha.imp_right .inl
    · exact .inr (.inr hm)

/-- An address inside a stretch is dealt with by a cut. -/
theorem cut (h : d.Inv s size entry (addr :: due) ts) (hk : ts[k]? = some t) (hm : addr ∈ t.held)
    (hne : addr ≠ t.entry) : ∃ d' ts', d.cut addr = .ok d' ∧ d'.Inv s size entry due ts' := by
  obtain ⟨r, ts', hr, hmap, hcut⟩ :=
    h.map.split ((h.needed List.mem_cons_self).imp_right And.right) hk hm hne
  have hwanted : ∀ {a}, Wanted s size entry ts a → Wanted s size entry ts' a := fun hw =>
    hw.imp_right fun hc => ⟨hc.1, hcut.leadsTo_iff.2 (.inr hc.2)⟩
  refine ⟨{ d with map := r.map, events := r.events.reverse ++ d.events }, ts', ?_, hmap,
    h.functions, h.successors, fun ha => hwanted (h.waiting ha),
    fun ha => hwanted (h.needed (List.mem_cons_of_mem _ ha)), ?_,
    h.failures.trans (hcut.failures_perm.symm.map _), ?_⟩
  · rw [Discovery.cut, hr]
    rfl
  · -- wanted
    intro a ha
    by_cases hc : a = addr
    · exact .inl (hcut.begins_iff.2 (.inl hc))
    · have hold : Wanted s size entry ts a :=
        ha.imp_right fun hl => ⟨hl.1, (hcut.leadsTo_iff.1 hl.2).resolve_left hc⟩
      rcases h.wanted hold with hb | hd | hm
      · exact .inl (hcut.begins_iff.2 (.inr hb))
      · exact .inr (.inl hd)
      · exact .inr (.inr ((List.mem_cons.1 hm).resolve_left hc))
  · -- asked
    rw [attempts_append, attempts_reverse, attempts_of_quiet (CodeMap.quiet_of_split hr)]
    exact h.asked.trans hcut.held_perm.symm

theorem wait (h : d.Inv s size entry (addr :: due) ts) (kind : EdgeKind) :
    Inv s size entry due
      (if kind = .call then { d with functions := (d.functions.insert addr).2 }
        else { d with successors := (d.successors.insert addr).2 }) ts := by
  have hadd : ∀ d' : Discovery, d'.map = d.map → d'.diagnostics = d.diagnostics →
      d'.events = d.events → d'.functions.Coherent → d'.successors.Coherent →
      (∀ a, d'.Waits a ↔ a = addr ∨ d.Waits a) → d'.Inv s size entry due ts := by
    intro d' hmap hdiag hev hf hs hw
    have haddr : d'.Waits addr := (hw addr).2 (.inl rfl)
    refine settle ⟨hmap ▸ h.map, hf, hs, ?_, h.needed, ?_, hdiag ▸ h.failures, hev ▸ h.asked⟩
      (.inr haddr)
    · intro a ha
      rcases (hw a).1 ha with rfl | ha
      · exact h.needed List.mem_cons_self
      · exact h.waiting ha
    · intro a ha
      rcases h.wanted ha with hb | hd | hm
      · exact .inl hb
      · exact .inr (.inl ((hw a).2 (.inr hd)))
      · exact .inr (.inr hm)
  split
  · refine hadd _ rfl rfl rfl (h.functions.insert addr) h.successors ?_
    intro a
    simp only [Waits, h.functions.mem_insert, or_assoc]
  · refine hadd _ rfl rfl rfl h.functions (h.successors.insert addr) ?_
    intro a
    simp only [Waits, h.successors.mem_insert]
    tauto

end Inv

/-- The targets of exits that lie in a region of `size` bytes. -/
def goals (size : Nat) (xs : List Exit) : List Address :=
  (xs.filterMap (·.target)).filter (·.toNat < size)

theorem goals_of_none {x : Exit} {xs : List Exit} (h : x.target = none) :
    goals size (x :: xs) = goals size xs := by
  simp [goals, h]

theorem goals_of_outside {x : Exit} {xs : List Exit} (h : x.target = some a) (ha : size ≤ a.toNat) :
    goals size (x :: xs) = goals size xs := by
  simp [goals, h, ha]

theorem goals_of_inside {x : Exit} {xs : List Exit} (h : x.target = some a) (ha : a.toNat < size) :
    goals size (x :: xs) = a :: goals size xs := by
  simp [goals, h, ha]

theorem mem_goals {xs : List Exit} :
    a ∈ goals size xs ↔ (∃ x ∈ xs, x.target = some a) ∧ a.toNat < size := by
  simp [goals]

namespace Inv

variable {due : List Address} {ts : List (Stretch s.decode)} {t : Stretch s.decode} {k : Nat}

theorem reach (h : d.Inv s size entry (addr :: due) ts) (hlt : addr.toNat < size)
    (kind : EdgeKind) :
    ∃ d' ts', d.reach size kind addr = .ok d' ∧ d'.Inv s size entry due ts' := by
  rw [Discovery.reach, if_neg (Nat.not_le.2 hlt)]
  rcases slot_cases ts addr with ⟨k, t, hk, rfl⟩ | ⟨k, t, hk, ha, hne⟩ | hu
  · rw [h.map.shows.lookup_entry hk]
    exact ⟨d, ts, rfl, h.settle (.inl ⟨t, List.mem_of_getElem? hk, rfl⟩)⟩
  · rw [h.map.shows.lookup_interior hk ha hne]
    exact h.cut hk ha hne
  · rw [h.map.shows.lookup_unknown hu]
    exact ⟨_, ts, rfl, h.wait kind⟩

theorem reachAll {xs : List Exit} (h : d.Inv s size entry (goals size xs ++ due) ts) :
    ∃ d' ts', d.reachAll size xs = .ok d' ∧ d'.Inv s size entry due ts' := by
  induction xs generalizing d ts with
  | nil => exact ⟨d, ts, rfl, h⟩
  | cons x xs ih =>
    cases ht : x.target with
    | none =>
      rw [goals_of_none ht] at h
      simp only [Discovery.reachAll, ht]
      exact ih h
    | some target =>
      simp only [Discovery.reachAll, ht]
      by_cases hlt : target.toNat < size
      · rw [goals_of_inside ht hlt, List.cons_append] at h
        obtain ⟨d₁, ts₁, hd₁, h₁⟩ := h.reach hlt x.kind
        rw [hd₁]
        exact ih h₁
      · have hle := Nat.le_of_not_lt hlt
        rw [goals_of_outside ht hle] at h
        rw [Discovery.reach, if_pos hle]
        exact ih ⟨h.map, h.functions, h.successors, h.waiting, h.needed, h.wanted, h.failures,
          h.asked⟩

/-- Scanning from an unknown address yields a stretch through unknown addresses, within the limit.
If its length is not limited, then control does not fall out of it to an unknown address. -/
theorem exists_run (hf : Fits s.decode size) (hsize : size < Address.count)
    (h : d.Inv s size entry due ts) (hu : ¬ Known ts addr) :
    ∃ (r : Run) (t : Stretch s.decode), s.run d.map.isBoundary addr = .ok r ∧ r.Reads t ∧
      t.entry = addr ∧ (∀ a ∈ t.held, ¬ Known ts a) ∧ t.insns.length ≤ max s.limit 1 ∧
      (size < s.limit → t.Open → Known ts t.stop) := by
  obtain ⟨r, t, hr, hreads, he, hnew, hshort, hend⟩ := h.map.shows.exists_run hf hsize hu
  refine ⟨r, t, hr, hreads, he, hnew, hshort, ?_⟩
  intro hlim ho
  rcases hend ho with hk | hfull
  · exact hk
  · -- the region has too few bytes for that many instructions
    have hle := t.chain.add_length_le
    have hstop := t.chain.stop_le hf fun hl => t.filled hl ho.1
    omega

/-- An unknown address is dealt with by a new block, which takes its targets in hand. -/
theorem record (hf : Fits s.decode size) (hsize : size < Address.count)
    (h : d.Inv s size entry (addr :: due) ts) (hu : ¬ Known ts addr) :
    ∃ r d' ts', s.run d.map.isBoundary addr = .ok r ∧ d.record s addr r = .ok d' ∧
      d'.Inv s size entry (goals size (r.exits s.policy) ++ due) ts' := by
  obtain ⟨r, t, hr, hreads, rfl, hnew, hshort, hend⟩ := h.exists_run hf hsize hu
  have hw := h.needed List.mem_cons_self
  have hreach : Reach s.decode s.policy size entry t.entry := by
    rcases hw with he | ⟨hlt, hl⟩
    · rw [he]
      exact .entry
    · exact h.map.reach_of_leadsTo hl hlt
  have hlead : size < s.limit → t.entry ∈ leaders s.decode s.policy size entry := by
    intro hlim
    rcases hw with he | ⟨hlt, hl⟩
    · exact mem_leaders.2 (.inl he)
    · exact h.map.mem_leaders_of_unknown hlim hl hlt hu
  obtain ⟨m, hm, hmap⟩ := h.map.commit hnew hreach hlead hend hshort
  have hwanted : ∀ {a}, Wanted s size entry ts a → Wanted s size entry (ts ++ [t]) a := fun hw =>
    hw.imp_right fun hc => ⟨hc.1, leadsTo_append.2 (.inl hc.2)⟩
  have hrec : d.record s t.entry r = .ok { d with
      map := m
      diagnostics := (t.failure.map .decode).toList ++ d.diagnostics
      events := (s.events t.entry r).reverse ++ d.events } := by
    rw [Discovery.record, hreads.block_eq, hreads.exits_eq, hreads.failure?_eq, hm]
    rfl
  refine ⟨r, _, ts ++ [t], hr, hrec, hmap, h.functions, h.successors,
    fun ha => hwanted (h.waiting ha), ?_, ?_, ?_, ?_⟩
  · intro a ha
    rw [hreads.exits_eq, List.mem_append, mem_goals] at ha
    rcases ha with ⟨hx, hlt⟩ | ha
    · exact .inr ⟨hlt, leadsTo_append.2 (.inr hx)⟩
    · exact hwanted (h.needed (List.mem_cons_of_mem _ ha))
  · intro a ha
    rw [hreads.exits_eq, List.mem_append, mem_goals, begins_append]
    have hold : Wanted s size entry ts a ∨
        ((∃ x ∈ t.exits s.policy, x.target = some a) ∧ a.toNat < size) := by
      rcases ha with he | ⟨hlt, hl⟩
      · exact .inl (.inl he)
      · exact (leadsTo_append.1 hl).imp (fun hl => .inr ⟨hlt, hl⟩) (fun hx => ⟨hx, hlt⟩)
    rcases hold with hold | hx
    · rcases h.wanted hold with hb | hd | hm
      · exact .inl (.inl hb)
      · exact .inr (.inl hd)
      · rcases List.mem_cons.1 hm with rfl | hm
        · exact .inl (.inr rfl)
        · exact .inr (.inr (.inr hm))
    · exact .inr (.inr (.inl hx))
  · rw [List.filterMap_append, List.map_append]
    refine (h.failures.append_left _).trans (List.perm_append_comm.trans ?_)
    cases hfail : t.failure <;> simp [hfail]
  · rw [attempts_append, attempts_reverse, s.attempts_events, hreads.attempts,
      List.flatMap_append, List.flatMap_singleton]
    exact ((List.reverse_perm _).append h.asked).trans List.perm_append_comm

/-- Dealing with an address never faults. -/
theorem visit (hf : Fits s.decode size) (hsize : size < Address.count)
    (h : d.Inv s size entry (addr :: due) ts) :
    ∃ d' ts', d.visit s size addr = .ok d' ∧ d'.Inv s size entry due ts' := by
  rw [Discovery.visit]
  rcases slot_cases ts addr with ⟨k, t, hk, rfl⟩ | ⟨k, t, hk, ha, hne⟩ | hu
  · rw [h.map.shows.lookup_entry hk]
    exact ⟨d, ts, rfl, h.settle (.inl ⟨t, List.mem_of_getElem? hk, rfl⟩)⟩
  · rw [h.map.shows.lookup_interior hk ha hne]
    exact h.cut hk ha hne
  · rw [h.map.shows.lookup_unknown hu]
    obtain ⟨r, d₁, ts₁, hr, hd₁, h₁⟩ := h.record hf hsize hu
    obtain ⟨d₂, ts₂, hd₂, h₂⟩ := h₁.reachAll
    refine ⟨d₂, ts₂, ?_, h₂⟩
    simp only [hr, hd₁, hd₂, bind, Except.bind]

/-- A round keeps the invariant. -/
theorem step (hf : Fits s.decode size) (hsize : size < Address.count)
    (h : d.Inv s size entry [] ts) (hs : Step s size d d') : ∃ ts', d'.Inv s size entry [] ts' := by
  obtain ⟨addr, rest, ht, hv⟩ := hs
  obtain ⟨d₁, ts₁, hd₁, h₁⟩ := (h.take ht).visit hf hsize
  cases hv.symm.trans hd₁
  exact ⟨ts₁, h₁⟩

/-- Rounds in any order keep the invariant. -/
theorem steps (hf : Fits s.decode size) (hsize : size < Address.count)
    (h : d.Inv s size entry [] ts) (hs : Relation.ReflTransGen (Step s size) d d') :
    ∃ ts', d'.Inv s size entry [] ts' := by
  induction hs with
  | refl => exact ⟨ts, h⟩
  | tail _ hs ih =>
    obtain ⟨ts₁, h₁⟩ := ih
    exact h₁.step hf hsize hs

/-- The run that takes the addresses in the given order comes to its end without a fault. -/
theorem run (hf : Fits s.decode size) (hsize : size < Address.count)
    (h : d.Inv s size entry [] ts) :
    ∃ d', d.run s size = .ok d' ∧ Relation.ReflTransGen (Step s size) d d' ∧ d'.waiting = 0 := by
  induction hn : d.potential using Nat.strong_induction_on generalizing d ts with
  | _ n ih =>
    cases hp : d.pop? with
    | none => exact ⟨d, run_of_pop?_eq_none hp, .refl, waiting_of_pop?_eq_none hp⟩
    | some taken =>
      obtain ⟨addr, rest⟩ := taken
      have ht := takes_of_pop? hp
      obtain ⟨d₁, ts₁, hd₁, h₁⟩ := (h.take ht).visit hf hsize
      obtain ⟨d', hd', hs, hw⟩ := ih _ (hn ▸ potential_lt_of_takes ht hd₁) h₁ rfl
      exact ⟨d', (run_of_visit_eq_ok hp hd₁).trans hd', .head ⟨addr, rest, ht, hd₁⟩ hs, hw⟩

end Inv

end Discovery

end CodeLift
