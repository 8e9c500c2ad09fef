import CodeLift.Proofs.AnyDecoder
import CodeLift.Proofs.Discovery

/-!
# Discovery ends with every decoder

Nothing is asked of the decoder here: its instructions may lie anywhere and lead anywhere. A scan
takes no more instructions than a block may have. A round of discovery either scans at an address
where it never did before, which is the entry or lies in the region, and makes at most two addresses
wait; or it leaves one address less on the worklists. So the rounds are at most `2 * size + 3` in a
region of `size` bytes. Only a fault that comes from the decoder ends discovery sooner: the map and
its blocks stay intact whatever is recorded in them.
-/

namespace CodeLift

/-! ## Scanning -/

namespace Scanner

/-- The faults that come from the decoder: its own, and that of an instruction behind which there is
no address. -/
inductive Faults (s : Scanner) : Fault → Prop where
  /-- The decoder gives no answer. -/
  | decoder {pc : Address} {fault : Fault} (h : s.decode pc = .error fault) : s.Faults fault
  /-- The address after an instruction does not fit the word. -/
  | overflow {pc : Address} {i : Insn} (h : s.decode pc = .ok (.ok i))
      (ho : Address.count ≤ i.addr.toNat + i.size.toNat) : s.Faults .addressOverflow

variable {s : Scanner} {pc : Address} {i : Insn}

theorem next_cases (h : s.decode pc = .ok (.ok i)) :
    (i.next = .error .addressOverflow ∧ s.Faults .addressOverflow) ∨ ∃ next, i.next = .ok next := by
  unfold Insn.next Address.advance
  split
  · exact .inr ⟨_, rfl⟩
  · next hlt => exact .inl ⟨rfl, .overflow h (Nat.le_of_not_lt hlt)⟩

/-- Scanning on after the steps `before` takes at most `room + 1` instructions more. The induction
is on the room: nothing is known of where the next address lies. -/
theorem follow_cases (s : Scanner) (known : Address → Bool) (room : Nat) (before : List Step)
    (pc : Address) :
    (∃ fault, s.follow known before room pc = .error fault ∧ s.Faults fault) ∨
      ∃ r, s.follow known before room pc = .ok r ∧ r.insns.length ≤ r.attempts.length ∧
        r.attempts.length ≤ before.length + (room + 1) := by
  induction room using Nat.strong_induction_on generalizing before pc with
  | _ room ih =>
    cases hd : s.decode pc with
    | error fault =>
      refine .inl ⟨fault, ?_, .decoder hd⟩
      rw [follow, decodeProper, hd]
      rfl
    | ok d =>
      rcases decodes_or_fails hd with ⟨i, hi⟩ | ⟨f, hf⟩
      · rcases next_cases hi.1 with ⟨hn, hfault⟩ | ⟨next, hn⟩
        · refine .inl ⟨.addressOverflow, ?_, hfault⟩
          rw [follow, decodeProper_of_decodes hi]
          simp only [bind, Except.bind, hn]
        · -- a run that ends here has the steps taken so far
          have hends : ∀ reason, ∃ r,
              (.ok (.ofSteps (⟨pc, i⟩ :: before) next reason) : Except Fault Run) = .ok r ∧
                r.insns.length ≤ r.attempts.length ∧
                r.attempts.length ≤ before.length + (room + 1) := by
            intro reason
            refine ⟨_, rfl, ?_⟩
            simp [Run.ofSteps]
          rw [follow_of_decodes hi hn]
          split
          · exact .inr (hends _)
          · split
            · exact .inr (hends _)
            · cases room with
              | zero => exact .inr (hends _)
              | succ room =>
                have h := ih room (Nat.lt_succ_self _) (⟨pc, i⟩ :: before) next
                rw [List.length_cons] at h
                rcases h with h | ⟨r, hr, hle, hlen⟩
                · exact .inl h
                · exact .inr ⟨r, hr, hle, by omega⟩
      · rw [follow_of_fails hf]
        refine .inr ⟨_, rfl, ?_⟩
        simp [Run.failed, Run.ofSteps]

/-- A scan takes at most as many instructions as a block may have, unless the decoder faults. -/
theorem run_cases (s : Scanner) (known : Address → Bool) (entry : Address) :
    (∃ fault, s.run known entry = .error fault ∧ s.Faults fault) ∨
      ∃ r, s.run known entry = .ok r ∧ r.insns.length ≤ r.attempts.length ∧
        r.attempts.length ≤ max s.limit 1 := by
  rcases s.follow_cases known (s.limit - 1) [] entry with h | ⟨r, hr, hle, hlen⟩
  · exact .inl h
  · refine .inr ⟨r, hr, hle, ?_⟩
    rw [List.length_nil] at hlen
    omega

end Scanner

namespace Discovery

variable {s : Scanner} {size : Nat} {entry addr : Address} {d d' rest : Discovery}

/-! ## What every round keeps -/

/-- What holds of a discovery from `entry` in a region of `size` bytes, whatever the decoder. -/
structure Bounded (size : Nat) (entry : Address) (d : Discovery) : Prop where
  /-- The map is intact. -/
  map : d.map.Intact
  /-- Only the entry and addresses in the region wait. -/
  waiting : ∀ {a}, d.Waits a → a = entry ∨ a.toNat < size
  /-- A block begins where there was a scan. -/
  scanned : ∀ {a}, a ∈ scans d.events → a ∈ d.map.entries
  /-- Scans begin at the entry and at addresses in the region only. -/
  inside : ∀ {a}, a ∈ scans d.events → a = entry ∨ a.toNat < size
  /-- No two scans begin at the same address. -/
  once : (scans d.events).Nodup

namespace Bounded

theorem start (size : Nat) (entry : Address) : (start entry).Bounded size entry := by
  have hnone : ∀ a, a ∉ scans (Discovery.start entry).events := fun a => List.not_mem_nil
  refine ⟨CodeMap.intact_empty, ?_, fun ha => absurd ha (hnone _), fun ha => absurd ha (hnone _),
    List.nodup_nil⟩
  rintro a (ha | ha)
  · rcases UniqueQueue.of_mem_insert ha with rfl | ha
    · exact .inl rfl
    · exact absurd ha List.not_mem_nil
  · exact absurd ha List.not_mem_nil

/-- There are no more scans than addresses in the region, and one at the entry. -/
theorem length_scans_le (h : d.Bounded size entry) : (scans d.events).length ≤ size + 1 := by
  have hle : ((scans d.events).erase entry).length ≤ size := by
    refine Address.length_le_of_nodup (h.once.erase entry) ?_
    intro a ha
    rw [h.once.mem_erase_iff] at ha
    exact (h.inside ha.2).resolve_left ha.1
  rw [List.length_erase] at hle
  split at hle
  · omega
  · omega

theorem take (h : d.Bounded size entry) (ht : d.Takes addr rest) :
    rest.Bounded size entry ∧ (addr = entry ∨ addr.toNat < size) := by
  have hw : ∀ a, d.Waits a ↔ a = addr ∨ rest.Waits a := fun _ => ht.waits_iff
  refine ⟨?_, h.waiting ((hw addr).2 (.inl rfl))⟩
  have hwaiting : ∀ {a}, rest.Waits a → a = entry ∨ a.toNat < size :=
    fun ha => h.waiting ((hw _).2 (.inr ha))
  cases ht with
  | function hr => exact ⟨h.map, hwaiting, h.scanned, h.inside, h.once⟩
  | successor hr => exact ⟨h.map, hwaiting, h.scanned, h.inside, h.once⟩

/-- A change that scans nothing keeps the bounds, if it takes no entry away. -/
theorem of_scans_eq (h : d.Bounded size entry) (hmap : d'.map.Intact)
    (hentries : ∀ a ∈ d.map.entries, a ∈ d'.map.entries)
    (hwaiting : ∀ {a}, d'.Waits a → a = entry ∨ a.toNat < size)
    (hscans : scans d'.events = scans d.events) : d'.Bounded size entry := by
  refine ⟨hmap, hwaiting, ?_, ?_, ?_⟩
  · rw [hscans]
    exact fun ha => hentries _ (h.scanned ha)
  · rw [hscans]
    exact h.inside
  · rw [hscans]
    exact h.once

theorem cut (h : d.Bounded size entry) (addr : Address) :
    ∃ d', d.cut addr = .ok d' ∧ d'.Bounded size entry ∧ scans d'.events = scans d.events := by
  obtain ⟨r, hr, hmap, hentries⟩ := h.map.split addr
  have hscans : scans (r.events.reverse ++ d.events) = scans d.events := by
    rw [scans_append, scans_reverse, scans_of_quiet (CodeMap.quiet_of_split hr)]
    rfl
  refine ⟨{ d with map := r.map, events := r.events.reverse ++ d.events }, ?_,
    h.of_scans_eq hmap hentries h.waiting hscans, hscans⟩
  rw [Discovery.cut, hr]
  rfl

theorem reach (h : d.Bounded size entry) (kind : EdgeKind) (target : Address) :
    ∃ d', d.reach size kind target = .ok d' ∧ d'.Bounded size entry ∧
      scans d'.events = scans d.events := by
  unfold Discovery.reach
  split
  · exact ⟨_, rfl, h.of_scans_eq h.map (fun a ha => ha) h.waiting rfl, rfl⟩
  · next hlt =>
    have htarget : target.toNat < size := Nat.lt_of_not_le hlt
    cases d.map.lookup target with
    | entry slot => exact ⟨d, rfl, h, rfl⟩
    | interior slot => exact h.cut target
    | unknown =>
      refine ⟨_, rfl, ?_⟩
      split
      · refine ⟨h.of_scans_eq h.map (fun a ha => ha) ?_ rfl, rfl⟩
        rintro a (ha | ha)
        · rcases UniqueQueue.of_mem_insert ha with rfl | ha
          · exact .inr htarget
          · exact h.waiting (.inl ha)
        · exact h.waiting (.inr ha)
      · refine ⟨h.of_scans_eq h.map (fun a ha => ha) ?_ rfl, rfl⟩
        rintro a (ha | ha)
        · exact h.waiting (.inl ha)
        · rcases UniqueStack.of_mem_insert ha with rfl | ha
          · exact .inr htarget
          · exact h.waiting (.inr ha)

theorem reachAll (h : d.Bounded size entry) (xs : List Exit) :
    ∃ d', d.reachAll size xs = .ok d' ∧ d'.Bounded size entry ∧
      scans d'.events = scans d.events := by
  induction xs generalizing d with
  | nil => exact ⟨d, rfl, h, rfl⟩
  | cons x xs ih =>
    unfold Discovery.reachAll
    split
    · exact ih h
    · next target _ =>
      obtain ⟨d₁, hd₁, h₁, hscans₁⟩ := h.reach x.kind target
      obtain ⟨d₂, hd₂, h₂, hscans₂⟩ := ih h₁
      rw [hd₁]
      exact ⟨d₂, hd₂, h₂, hscans₂.trans hscans₁⟩

/-- The block of any run can be recorded where none begins. -/
theorem record (h : d.Bounded size entry) (ha : addr = entry ∨ addr.toNat < size)
    (hfree : addr ∉ d.map.entries) (r : Run) :
    ∃ d', d.record s addr r = .ok d' ∧ d'.Bounded size entry ∧
      scans d'.events = addr :: scans d.events := by
  have hentry : (r.block addr).entry = addr := by
    unfold Run.block
    split
    · rfl
    · rfl
  obtain ⟨m, hm, hmap, hentries⟩ := h.map.commit (r.indexed_block addr) (hentry.symm ▸ hfree)
    (r.exits s.policy)
  rw [hentry] at hentries
  have hscans : scans ((s.events addr r).reverse ++ d.events) = addr :: scans d.events := by
    rw [scans_append, scans_reverse, s.scans_events]
    rfl
  refine ⟨{ d with
      map := m
      diagnostics := (r.failure?.map .decode).toList ++ d.diagnostics
      events := (s.events addr r).reverse ++ d.events }, ?_, ⟨hmap, h.waiting, ?_, ?_, ?_⟩, hscans⟩
  · rw [Discovery.record, hm]
    rfl
  · intro a hs
    simp only [hscans, List.mem_cons] at hs
    exact (hentries a).2 (hs.imp_right h.scanned)
  · intro a hs
    simp only [hscans, List.mem_cons] at hs
    rcases hs with rfl | hs
    · exact ha
    · exact h.inside hs
  · simp only [hscans, List.nodup_cons]
    exact ⟨fun hs => hfree (h.scanned hs), h.once⟩

end Bounded

/-! ## Rounds -/

/-- What bounds the rounds still to come: the waiting addresses, and two for every scan that may
follow. -/
def budget (size : Nat) (d : Discovery) : Nat :=
  d.waiting + 2 * (size + 1 - (scans d.events).length)

/-- After `n` rounds, in the order of the worklists, `d` has become `d'`. Blocks have been scanned
at `scanned`, in this order: a round scans one if nothing is known of the address that it takes. -/
inductive Rounds (s : Scanner) (size : Nat) :
    Nat → List Address → Discovery → Discovery → Prop where
  /-- Nothing has been taken yet. -/
  | none (d : Discovery) : Rounds s size 0 [] d d
  /-- First a block is scanned. -/
  | scan {n : Nat} {scanned : List Address} {addr : Address} {d rest d₁ d' : Discovery}
      (hp : d.pop? = some (addr, rest)) (hl : rest.map.lookup addr = .unknown)
      (hv : rest.visit s size addr = .ok d₁) (h : Rounds s size n scanned d₁ d') :
      Rounds s size (n + 1) (addr :: scanned) d d'
  /-- First an address is taken that is known. -/
  | pass {n : Nat} {scanned : List Address} {addr : Address} {d rest d₁ d' : Discovery}
      (hp : d.pop? = some (addr, rest)) (hl : rest.map.lookup addr ≠ .unknown)
      (hv : rest.visit s size addr = .ok d₁) (h : Rounds s size n scanned d₁ d') :
      Rounds s size (n + 1) scanned d d'

/-- The next address to be taken is none of those that were scanned, and its scan ends with a fault
that comes from the decoder. -/
structure Breaks (s : Scanner) (size : Nat) (entry : Address) (scanned : List Address)
    (d : Discovery) (fault : Fault) : Prop where
  taken : ∃ addr rest, d.pop? = some (addr, rest) ∧ (addr = entry ∨ addr.toNat < size) ∧
    addr ∉ scanned ∧ s.run d.map.isBoundary addr = .error fault
  cause : s.Faults fault

/-- Dealing with an address does not exceed the budget. If it faults, then in a first scan. -/
theorem Bounded.visit (h : d.Bounded size entry) (ha : addr = entry ∨ addr.toNat < size) :
    (∃ fault, d.visit s size addr = .error fault ∧ s.Faults fault ∧ addr ∉ scans d.events ∧
        s.run d.map.isBoundary addr = .error fault) ∨
      ∃ d', d.visit s size addr = .ok d' ∧ d'.Bounded size entry ∧ d'.budget size ≤ d.budget size ∧
        ((d.map.lookup addr = .unknown ∧ scans d'.events = addr :: scans d.events) ∨
          (d.map.lookup addr ≠ .unknown ∧ scans d'.events = scans d.events)) := by
  unfold Discovery.visit
  cases hl : d.map.lookup addr with
  | entry slot => exact .inr ⟨d, rfl, h, Nat.le_refl _, .inr ⟨Lookup.noConfusion, rfl⟩⟩
  | interior slot =>
    obtain ⟨d', hd', h', hscans⟩ := h.cut addr
    have hw := (progress_of_cut hd').2
    refine .inr ⟨d', hd', h', ?_, .inr ⟨Lookup.noConfusion, hscans⟩⟩
    rw [budget, budget, hw, hscans]
  | unknown =>
    have hfree := CodeMap.not_mem_entries_of_unknown hl
    rcases s.run_cases d.map.isBoundary addr with ⟨fault, hr, hfault⟩ | ⟨r, hr, -⟩
    · refine .inl ⟨fault, ?_, hfault, fun hs => hfree (h.scanned hs), hr⟩
      rw [hr]
      rfl
    · obtain ⟨d₁, hd₁, h₁, hscans₁⟩ := h.record ha hfree r (s := s)
      obtain ⟨d₂, hd₂, h₂, hscans₂⟩ := h₁.reachAll (r.exits s.policy)
      have hscans := hscans₂.trans hscans₁
      refine .inr ⟨d₂, ?_, h₂, ?_, .inl ⟨rfl, hscans⟩⟩
      · simp only [hr, hd₁, hd₂, bind, Except.bind]
      · have hw₁ := (progress_of_record hd₁).2
        have hw₂ := (progress_of_reachAll hd₂).2
        have hexits := r.length_exits_le s.policy
        have hle := h₂.length_scans_le
        simp only [budget]
        rw [hscans, List.length_cons] at hle ⊢
        omega

/-- Rounds can be made until nothing waits or the decoder faults, and no more than the budget. -/
theorem Bounded.run (h : d.Bounded size entry) :
    ∃ n scanned d', Rounds s size n scanned d d' ∧ n ≤ d.budget size ∧ d'.Bounded size entry ∧
      scans d'.events = scanned.reverse ++ scans d.events ∧
      ((d'.waiting = 0 ∧ d.run s size = .ok d') ∨
        ∃ fault, d'.Breaks s size entry (scans d'.events) fault ∧
          d.run s size = .error fault) := by
  induction hn : d.budget size using Nat.strong_induction_on generalizing d with
  | _ b ih =>
    cases hp : d.pop? with
    | none =>
      exact ⟨0, [], d, .none d, Nat.zero_le _, h, rfl,
        .inl ⟨waiting_of_pop?_eq_none hp, run_of_pop?_eq_none hp⟩⟩
    | some taken =>
      obtain ⟨addr, rest⟩ := taken
      obtain ⟨hrest, ha⟩ := h.take (takes_of_pop? hp)
      obtain ⟨hw, hmap⟩ := waiting_of_pop? hp
      have hevents : rest.events = d.events := (takes_of_pop? hp).events_eq
      have hbudget : d.budget size = rest.budget size + 1 := by
        simp only [budget, hevents]
        omega
      rcases hrest.visit ha (s := s) with ⟨fault, hv, hfault, hnew, hr⟩ | ⟨d₁, hv, h₁, hle, hcase⟩
      · have hbreaks : d.Breaks s size entry (scans d.events) fault :=
          ⟨⟨addr, rest, hp, ha, hevents ▸ hnew, hmap ▸ hr⟩, hfault⟩
        exact ⟨0, [], d, .none d, Nat.zero_le _, h, rfl,
          .inr ⟨fault, hbreaks, run_of_visit_eq_error hp hv⟩⟩
      · obtain ⟨n, scanned, d', hrounds, hlen, hd', hscans, hend⟩ :=
          ih (d₁.budget size) (by omega) h₁ rfl
        rw [hevents] at hcase
        rw [run_of_visit_eq_ok hp hv]
        rcases hcase with ⟨hl, hone⟩ | ⟨hl, hsame⟩
        · refine ⟨n + 1, addr :: scanned, d', .scan hp hl hv hrounds, by omega, hd', ?_, hend⟩
          rw [hscans, hone, List.reverse_cons, List.append_assoc]
          rfl
        · refine ⟨n + 1, scanned, d', .pass hp hl hv hrounds, by omega, hd', ?_, hend⟩
          rw [hscans, hsame]

/-- Whatever the decoder, scans are no longer than a block may be, and discovery ends: after at most
`2 * size + 3` rounds nothing waits any more, or the decoder has faulted. No address has been
scanned twice, and none but the entry and addresses in the region. -/
theorem discover_ends (s : Scanner) (size : Nat) (entry : Address) :
    (∀ known addr, (∃ fault, s.run known addr = .error fault ∧ s.Faults fault) ∨
      ∃ r, s.run known addr = .ok r ∧ r.insns.length ≤ r.attempts.length ∧
        r.attempts.length ≤ max s.limit 1) ∧
    ∃ n scanned d, Rounds s size n scanned (start entry) d ∧ n ≤ 2 * size + 3 ∧ scanned.Nodup ∧
      (∀ a ∈ scanned, a = entry ∨ a.toNat < size) ∧
      ((d.waiting = 0 ∧ discover s size entry = .ok d) ∨
        ∃ fault, d.Breaks s size entry scanned fault ∧ discover s size entry = .error fault) := by
  refine ⟨s.run_cases, ?_⟩
  obtain ⟨n, scanned, d, hrounds, hn, hd, hscans, hend⟩ := (Bounded.start size entry).run (s := s)
  have hbudget : (start entry).budget size = 2 * size + 3 := by
    show 1 + 2 * (size + 1 - 0) = 2 * size + 3
    omega
  have hreverse : scans d.events = scanned.reverse := by
    rw [hscans]
    exact List.append_nil _
  have hmem : ∀ {a}, a ∈ scanned → a ∈ scans d.events := by
    intro a ha
    rw [hreverse]
    exact List.mem_reverse.2 ha
  refine ⟨n, scanned, d, hrounds, hbudget ▸ hn, ?_, fun a ha => hd.inside (hmem ha), ?_⟩
  · have honce := hd.once
    rw [hreverse] at honce
    exact List.nodup_reverse.1 honce
  · refine hend.imp_right ?_
    rintro ⟨fault, ⟨⟨addr, rest, hp, ha, hnew, hr⟩, hfault⟩, hrun⟩
    exact ⟨fault, ⟨⟨addr, rest, hp, ha, fun hs => hnew (hmem hs), hr⟩, hfault⟩, hrun⟩

end Discovery

end CodeLift
