import CodeLift.Proofs.Layout
import CodeLift.Proofs.Scan

/-!
# What a code map knows of reachable code

While code is discovered, every address that the map knows is reachable. If blocks are not limited
in length, a stretch moreover begins at leaders only, and control never falls out of a stretch to an
address that is not known.

The one argument that needs care is why a cut is made at a leader. A cut at `c` happens because some
exit leads to `c`, and `c` lies inside a stretch, where control falls to it from an instruction that
has no exit. So either the exit is a transfer, or control falls to `c` from two instructions.
-/

namespace CodeLift

variable {decode : Address → Except Fault Decoded} {policy : ReturnPolicy} {size : Nat}
  {entry a c p : Address}

namespace Stretch

variable {t : Stretch decode} {x : Exit}

theorem reach_of_mem_held (h : Reach decode policy size entry t.entry) (ha : a ∈ t.held) :
    Reach decode policy size entry a := by
  -- control falls to `a` from an instruction with a lower address
  induction hn : a.toNat using Nat.strong_induction_on generalizing a with
  | _ n ih =>
    by_cases he : a = t.entry
    · rw [he]
      exact h
    · obtain ⟨p, hp, hf, -⟩ := exists_falls policy ha he
      refine .falls (ih p.toNat ?_ hp rfl) hf
      obtain ⟨i, hd, -, hnext⟩ := hf
      obtain ⟨-, rfl⟩ := mem_insns hp hd
      rw [← hn]
      exact hd.lt_of_next hnext

/-- An exit leads to a target of a transfer, or to the end of an open stretch. -/
theorem target_cases (hx : x ∈ t.exits policy) (hc : x.target = some c) :
    x.source ∈ t.held ∧ (Transfers decode policy x.source c ∨
      (t.Open ∧ Falls decode x.source c ∧ t.stop = c)) := by
  obtain ⟨hl, ⟨i, flow, hd, hf, hn, hm⟩ | ⟨ho, hf, he⟩⟩ := of_mem_exits hx
  · exact ⟨last_mem_held hl, .inl ⟨i, flow, t.stop, x, hd, hf, hn, hm, hc⟩⟩
  · have hs : t.stop = c := by
      rw [he] at hc
      exact Option.some.inj hc
    exact ⟨last_mem_held hl, .inr ⟨ho, hs ▸ hf, hs⟩⟩

end Stretch

/-- Some exit of the stretches leads to `c`. -/
def LeadsTo (policy : ReturnPolicy) (ts : List (Stretch decode)) (c : Address) : Prop :=
  ∃ x, Leaves policy ts x ∧ x.target = some c

section

variable {ts ts' : List (Stretch decode)} {t : Stretch decode}

theorem leadsTo_append :
    LeadsTo policy (ts ++ [t]) c ↔
      LeadsTo policy ts c ∨ ∃ x ∈ t.exits policy, x.target = some c := by
  simp only [LeadsTo, leaves_append, or_and_right, exists_or]

/-- Cutting adds no target but the cut itself. -/
theorem CutAt.leadsTo_iff (h : CutAt ts a ts') :
    LeadsTo policy ts' c ↔ c = a ∨ LeadsTo policy ts c := by
  obtain ⟨p, hp⟩ := h.leaves_iff policy
  simp only [LeadsTo, hp, or_and_right, exists_or, exists_eq_left, Option.some.injEq]
  rw [eq_comm]

end

namespace CodeMap

/-- Scanning from an unknown address reads a stretch through unknown addresses. -/
theorem Shows.exists_run {s : Scanner} {m : CodeMap} {ts : List (Stretch s.decode)}
    (hf : Fits s.decode size) (hsize : size < Address.count) (h : m.Shows s.policy ts)
    (hu : ¬ Known ts a) :
    ∃ (r : Run) (t : Stretch s.decode), s.run m.isBoundary a = .ok r ∧ r.Reads t ∧ t.entry = a ∧
      (∀ b ∈ t.held, ¬ Known ts b) ∧ t.insns.length ≤ max s.limit 1 ∧
      (t.Open → Known ts t.stop ∨ t.insns.length = max s.limit 1) := by
  obtain ⟨r, t, hr, hreads, he, hnew, hshort, hend⟩ := s.run_spec hf hsize m.isBoundary a
  refine ⟨r, t, hr, hreads, he, ?_, hshort, fun ho => (hend ho).imp_left h.isBoundary_iff.1⟩
  intro b hb hk
  by_cases hba : b = a
  · exact hu (hba ▸ hk)
  · have hfalse := hnew b hb hba
    rw [h.isBoundary_iff.2 hk] at hfalse
    exact Bool.noConfusion hfalse

/-- What holds of a code map while a region of `size` bytes is discovered from `entry`. -/
structure Inv (s : Scanner) (size : Nat) (entry : Address) (m : CodeMap)
    (ts : List (Stretch s.decode)) : Prop where
  /-- The map shows the stretches. -/
  shows : m.Shows s.policy ts
  /-- Only reachable addresses are known. -/
  reach : ∀ {a}, Known ts a → Reach s.decode s.policy size entry a
  /-- Stretches begin at leaders, if their length is not limited. -/
  leaders : size < s.limit → ∀ {a}, Begins ts a → a ∈ leaders s.decode s.policy size entry
  /-- Control falls to known addresses, if the length of stretches is not limited. -/
  ends : size < s.limit → ∀ {t}, t ∈ ts → t.Open → Known ts t.stop
  /-- No stretch is longer than a block may be. -/
  short : ∀ {t}, t ∈ ts → t.insns.length ≤ max s.limit 1

namespace Inv

variable {s : Scanner} {m : CodeMap} {ts : List (Stretch s.decode)} {t : Stretch s.decode} {k : Nat}

theorem reach_of_leadsTo (h : m.Inv s size entry ts) (hc : LeadsTo s.policy ts c)
    (hlt : c.toNat < size) : Reach s.decode s.policy size entry c := by
  obtain ⟨x, ⟨t, ht, hx⟩, hc⟩ := hc
  obtain ⟨hm, hf | ⟨-, hf, -⟩⟩ := Stretch.target_cases hx hc
  · exact .transfers (h.reach ⟨t, ht, hm⟩) hf hlt
  · exact .falls (h.reach ⟨t, ht, hm⟩) hf

/-- A target that lies inside a stretch is a leader. -/
theorem mem_leaders_of_inside (h : m.Inv s size entry ts) (hc : LeadsTo s.policy ts c) (ht : t ∈ ts)
    (hm : c ∈ t.held) (hne : c ≠ t.entry) : c ∈ CodeLift.leaders s.decode s.policy size entry := by
  obtain ⟨p, hp, hfp, hsrc⟩ := Stretch.exists_falls s.policy hm hne
  have hbefore : p ∈ Before s.decode s.policy size entry c := ⟨h.reach ⟨t, ht, hp⟩, hfp⟩
  obtain ⟨x, ⟨u, hu, hx⟩, hc⟩ := hc
  obtain ⟨hq, hf | ⟨-, hf, -⟩⟩ := Stretch.target_cases hx hc
  · exact mem_leaders_of_targeted ⟨_, h.reach ⟨u, hu, hq⟩, hf⟩ ⟨p, hbefore⟩
  · rw [mem_leaders]
    refine .inr (.inr (.inl ⟨x.source, ⟨h.reach ⟨u, hu, hq⟩, hf⟩, p, hbefore, ?_⟩))
    -- were it the same instruction, it would be the last of a stretch that goes on behind it
    rintro rfl
    obtain rfl := h.shows.apart.unique hu ht hq hp
    exact hsrc x hx rfl

/-- A target in the region that is not known is a leader. -/
theorem mem_leaders_of_unknown (h : m.Inv s size entry ts) (hlim : size < s.limit)
    (hc : LeadsTo s.policy ts c) (hlt : c.toNat < size) (hu : ¬ Known ts c) :
    c ∈ CodeLift.leaders s.decode s.policy size entry := by
  obtain ⟨x, ⟨t, ht, hx⟩, hc⟩ := hc
  obtain ⟨hm, hf | ⟨ho, -, hs⟩⟩ := Stretch.target_cases hx hc
  · exact mem_leaders.2 (.inr (.inl ⟨hlt, x.source, h.reach ⟨t, ht, hm⟩, hf⟩))
  · -- an open stretch ends at a known address
    rw [← hs] at hu
    exact absurd (h.ends hlim ht ho) hu

/-- A target inside a stretch can be made an entry. -/
theorem split (h : m.Inv s size entry ts) (hc : c = entry ∨ LeadsTo s.policy ts c)
    (hk : ts[k]? = some t) (hm : c ∈ t.held) (hne : c ≠ t.entry) :
    ∃ r ts', m.split c = .ok r ∧ r.map.Inv s size entry ts' ∧ CutAt ts c ts' := by
  have ht := List.mem_of_getElem? hk
  obtain ⟨r, ts', hr, hshows, hcut⟩ := h.shows.split hk hm hne
  refine ⟨r, ts', hr, ⟨hshows, ?_, ?_, ?_, ?_⟩, hcut⟩
  · intro a ha
    exact h.reach (hcut.known_iff.1 ha)
  · intro hlim a ha
    rcases hcut.begins_iff.1 ha with rfl | ha
    · rcases hc with rfl | hc
      · exact mem_leaders.2 (.inl rfl)
      · exact h.mem_leaders_of_inside hc ht hm hne
    · exact h.leaders hlim ha
  · intro hlim u hu ho
    rw [hcut.known_iff]
    rcases hcut.of_open hu ho with hs | ⟨v, hv, hvo, hs⟩
    · rw [hs]
      exact ⟨t, ht, hm⟩
    · rw [← hs]
      exact h.ends hlim hv hvo
  · intro u hu
    obtain ⟨v, hv, hle⟩ := hcut.exists_length_le hu
    exact Nat.le_trans hle (h.short hv)

/-- A stretch through unknown addresses can be recorded, if it begins where one should. -/
theorem commit (h : m.Inv s size entry ts) (hnew : ∀ a ∈ t.held, ¬ Known ts a)
    (hreach : Reach s.decode s.policy size entry t.entry)
    (hlead : size < s.limit → t.entry ∈ CodeLift.leaders s.decode s.policy size entry)
    (hend : size < s.limit → t.Open → Known ts t.stop)
    (hshort : t.insns.length ≤ max s.limit 1) :
    ∃ m', m.commit t.block (t.exits s.policy) = .ok m' ∧ m'.Inv s size entry (ts ++ [t]) := by
  obtain ⟨m', hm', hshows⟩ := h.shows.commit hnew
  refine ⟨m', hm', hshows, ?_, ?_, ?_, ?_⟩
  · intro a ha
    rcases known_append.1 ha with ha | ha
    · exact h.reach ha
    · exact Stretch.reach_of_mem_held hreach ha
  · intro hlim a ha
    rcases begins_append.1 ha with ha | rfl
    · exact h.leaders hlim ha
    · exact hlead hlim
  · intro hlim u hu ho
    rw [known_append]
    rcases List.mem_append.1 hu with hu | hu
    · exact .inl (h.ends hlim hu ho)
    · obtain rfl := List.mem_singleton.1 hu
      exact .inl (hend hlim ho)
  · intro u hu
    rcases List.mem_append.1 hu with hu | hu
    · exact h.short hu
    · obtain rfl := List.mem_singleton.1 hu
      exact hshort

end Inv

end CodeMap

end CodeLift
