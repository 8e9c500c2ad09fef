import CodeLift.Proofs.Discovery

/-!
# What a finished discovery has found

When no address waits any more, the targets that came to lie inside a stretch are cut free. Then the
stretches are `Complete`: they hold what can be reached, and no exit leads into the middle of one.

That alone determines the stretches, if their length is not limited. They begin at the leaders, and
from its entry a stretch goes on to the next leader, to a transfer or to a failure.
-/

namespace CodeLift

variable {s : Scanner} {size : Nat} {entry a c p : Address}

/-! ## Following control through stretches -/

section

variable {decode : Address → Except Fault Decoded} {policy : ReturnPolicy}
  {ts : List (Stretch decode)}

theorem leadsTo_of_open {t : Stretch decode} (ht : t ∈ ts) (ho : t.Open) :
    LeadsTo policy ts t.stop := by
  obtain ⟨p, -, -, he⟩ := ho.exits_eq policy
  refine ⟨⟨p, .fallthrough, some t.stop⟩, ⟨t, ht, ?_⟩, rfl⟩
  rw [he]
  exact List.mem_singleton_self _

/-- A transfer of a known instruction is followed by an exit. -/
theorem leadsTo_of_transfers (hp : Known ts p) (h : Transfers decode policy p c) :
    LeadsTo policy ts c := by
  obtain ⟨t, ht, hm⟩ := hp
  obtain ⟨i, flow, next, x, hd, hf, hn, hx, hc⟩ := h
  obtain ⟨hi, rfl⟩ := Stretch.mem_insns hm hd
  obtain ⟨-, hstop, he⟩ := Stretch.exits_of_flow policy hi hf
  cases hn.symm.trans hstop
  exact ⟨x, ⟨t, ht, by rwa [he]⟩, hc⟩

theorem Known.falls_cases (hp : Known ts p) (h : Falls decode p c) :
    (∃ t ∈ ts, p ∈ t.held ∧ c ∈ t.held) ∨ ∃ t ∈ ts, t.Open ∧ t.stop = c := by
  obtain ⟨t, ht, hm⟩ := hp
  rcases Stretch.falls_cases hm h with ⟨hc, -⟩ | ⟨ho, -, hs⟩
  · exact .inl ⟨t, ht, hm, hc⟩
  · exact .inr ⟨t, ht, ho, hs⟩

end

/-! ## Stretches that begin at the same addresses -/

section

variable {decode : Address → Except Fault Decoded} {ts us : List (Stretch decode)}
  {t u : Stretch decode}

/-- Where an open stretch ends, no other one from its entry goes on, if one begins there. -/
theorem Apart.stop_not_mem_held (h : Apart us) (hu : u ∈ us) (he : t.entry = u.entry) (ho : t.Open)
    (hb : Known us t.stop → Begins us t.stop) : t.stop ∉ u.held := by
  intro hm
  obtain ⟨v, hv, hve⟩ := hb ⟨u, hu, hm⟩
  obtain rfl := h.unique hv hu (hve ▸ v.entry_mem_held) hm
  have hlt := ho.entry_lt
  rw [he, hve] at hlt
  exact Nat.lt_irrefl _ hlt

theorem Apart.mem_of_begins (ht : Apart ts) (hu : Apart us) (hb : ∀ {a}, Begins ts a → Begins us a)
    (hts : ∀ {t}, t ∈ ts → t.Open → Known us t.stop → Begins us t.stop)
    (hus : ∀ {u}, u ∈ us → u.Open → Known ts u.stop → Begins ts u.stop) (hm : t ∈ ts) : t ∈ us := by
  obtain ⟨u, hmu, he⟩ := hb ⟨t, hm, rfl⟩
  have hsame : t = u := by
    apply Stretch.eq_of_entry_eq he.symm
    · intro ho
      exact hu.stop_not_mem_held hmu he.symm ho (hts hm ho)
    · intro ho
      exact ht.stop_not_mem_held hm he ho (hus hmu ho)
  rw [hsame]
  exact hmu

/-- Stretches are determined by where they begin, if an open one ends where another one begins, or
at an address that is not known. -/
theorem Apart.perm_of_begins (ht : Apart ts) (hu : Apart us)
    (hb : ∀ {a}, Begins ts a ↔ Begins us a)
    (hts : ∀ {t}, t ∈ ts → t.Open → Known us t.stop → Begins us t.stop)
    (hus : ∀ {u}, u ∈ us → u.Open → Known ts u.stop → Begins ts u.stop) : ts.Perm us := by
  rw [List.perm_ext_iff_of_nodup ht.nodup hu.nodup]
  intro t
  constructor
  · exact ht.mem_of_begins hu hb.1 hts hus
  · exact hu.mem_of_begins ht hb.2 hus hts

end

/-! ## Complete lists of stretches -/

/-- The stretches are all that discovery can find from `entry` in a region of `size` bytes. -/
structure Complete (s : Scanner) (size : Nat) (entry : Address) (ts : List (Stretch s.decode)) :
    Prop where
  /-- No address is held by two stretches. -/
  apart : Apart ts
  /-- Only what can be reached is held. -/
  reach : ∀ {a}, Known ts a → Reach s.decode s.policy size entry a
  /-- A stretch begins at the entry. -/
  begins_entry : Begins ts entry
  /-- One begins at every target in the region. -/
  targets : ∀ {c}, LeadsTo s.policy ts c → c.toNat < size → Begins ts c
  /-- No target lies inside a stretch. -/
  inner : ∀ {c}, LeadsTo s.policy ts c → Known ts c → Begins ts c
  /-- Stretches begin at leaders, if their length is not limited. -/
  leaders : size < s.limit → ∀ {a}, Begins ts a → a ∈ leaders s.decode s.policy size entry
  /-- Control falls to known addresses, if the length of stretches is not limited. -/
  ends : size < s.limit → ∀ {t}, t ∈ ts → t.Open → Known ts t.stop
  /-- No stretch is longer than a block may be. -/
  short : ∀ {t}, t ∈ ts → t.insns.length ≤ max s.limit 1

namespace Complete

variable {ts us : List (Stretch s.decode)} {t : Stretch s.decode}

theorem of_perm (h : Complete s size entry ts) (hp : ts.Perm us) : Complete s size entry us := by
  have hknown : ∀ {a}, Known us a ↔ Known ts a := by simp [Known, hp.mem_iff]
  have hbegins : ∀ {a}, Begins us a ↔ Begins ts a := by simp [Begins, hp.mem_iff]
  have hleads : ∀ {a}, LeadsTo s.policy us a ↔ LeadsTo s.policy ts a := by
    simp [LeadsTo, Leaves, hp.mem_iff]
  refine ⟨(hp.flatMap_right _).nodup_iff.1 h.apart, ?_, ?_, ?_, ?_, ?_, ?_, ?_⟩
  · intro a ha
    exact h.reach (hknown.1 ha)
  · exact hbegins.2 h.begins_entry
  · intro c hc hlt
    exact hbegins.2 (h.targets (hleads.1 hc) hlt)
  · intro c hc hk
    exact hbegins.2 (h.inner (hleads.1 hc) (hknown.1 hk))
  · intro hlim a ha
    exact h.leaders hlim (hbegins.1 ha)
  · intro hlim t ht ho
    exact hknown.2 (h.ends hlim (hp.mem_iff.2 ht) ho)
  · intro t ht
    exact h.short (hp.mem_iff.2 ht)

/-- Everything in the region that can be reached is held by a stretch. -/
theorem known_of_reach (hf : Fits s.decode size) (h : Complete s size entry ts)
    (ha : Reach s.decode s.policy size entry a) (hlt : a.toNat < size) : Known ts a := by
  induction ha with
  | entry => exact h.begins_entry.known
  | falls _ hfall ih =>
    obtain ⟨i, hi⟩ := hfall.exists_insn
    rcases (ih (hf.lt_size hi)).falls_cases hfall with ⟨t, ht, -, hm⟩ | ⟨t, ht, ho, rfl⟩
    · exact ⟨t, ht, hm⟩
    · exact (h.targets (leadsTo_of_open ht ho) hlt).known
  | transfers _ htrans _ ih =>
    obtain ⟨i, hi⟩ := htrans.exists_insn
    exact (h.targets (leadsTo_of_transfers (ih (hf.lt_size hi)) htrans) hlt).known

theorem known_of_decodes (hf : Fits s.decode size) (h : Complete s size entry ts) {i : Insn}
    (ha : Reach s.decode s.policy size entry a) (hi : Decodes s.decode a i) : Known ts a :=
  h.known_of_reach hf ha (hf.lt_size hi)

/-- An open stretch ends where another one begins, if the length of stretches is not limited. -/
theorem begins_stop (h : Complete s size entry ts) (hlim : size < s.limit) (ht : t ∈ ts)
    (ho : t.Open) : Begins ts t.stop :=
  h.inner (leadsTo_of_open ht ho) (h.ends hlim ht ho)

/-- Where control falls to an address, a stretch begins there or goes on there, if none just ends
there. -/
theorem begins_of_before (hf : Fits s.decode size) (h : Complete s size entry ts)
    (hopen : ∀ {t}, t ∈ ts → t.Open → t.stop = c → Begins ts c)
    (hp : p ∈ Before s.decode s.policy size entry c) :
    Begins ts c ∨ ∃ t ∈ ts, p ∈ t.held ∧ c ∈ t.held := by
  obtain ⟨hreach, hfall⟩ := hp
  obtain ⟨i, hi⟩ := hfall.exists_insn
  rcases (h.known_of_decodes hf hreach hi).falls_cases hfall with hin | ⟨t, ht, ho, hs⟩
  · exact .inr hin
  · exact .inl (hopen ht ho hs)

theorem leadsTo_of_targeted (hf : Fits s.decode size) (h : Complete s size entry ts)
    (hc : Targeted s.decode s.policy size entry c) : LeadsTo s.policy ts c := by
  obtain ⟨p, hreach, htrans⟩ := hc
  obtain ⟨i, hi⟩ := htrans.exists_insn
  exact leadsTo_of_transfers (h.known_of_decodes hf hreach hi) htrans

/-- A stretch begins at a leader, if none just ends there. -/
theorem begins_of_mem_leaders (hf : Fits s.decode size) (h : Complete s size entry ts)
    (hopen : ∀ {t}, t ∈ ts → t.Open → t.stop = c → Begins ts c)
    (hc : c ∈ CodeLift.leaders s.decode s.policy size entry) : Begins ts c := by
  rcases mem_leaders.1 hc with rfl | ⟨hlt, hc⟩ | ⟨p, hp, q, hq, hne⟩ | ⟨-, hc, p, hp⟩
  · exact h.begins_entry
  · exact h.targets (h.leadsTo_of_targeted hf hc) hlt
  · rcases h.begins_of_before hf hopen hp with hb | ⟨t, ht, hpt, hct⟩
    · exact hb
    · rcases h.begins_of_before hf hopen hq with hb | ⟨u, hu, hqu, hcu⟩
      · exact hb
      · -- control cannot fall to `c` from two instructions of one stretch
        obtain rfl := h.apart.unique ht hu hct hcu
        exact absurd (Stretch.falls_unique hpt hqu hp.2 hq.2) hne
  · rcases h.begins_of_before hf hopen hp with hb | ⟨t, ht, -, hct⟩
    · exact hb
    · exact h.inner (h.leadsTo_of_targeted hf hc) ⟨t, ht, hct⟩

/-- The stretches begin exactly at the leaders, if their length is not limited. -/
theorem begins_iff (hf : Fits s.decode size) (h : Complete s size entry ts)
    (hlim : size < s.limit) : Begins ts c ↔ c ∈ CodeLift.leaders s.decode s.policy size entry := by
  refine ⟨h.leaders hlim, h.begins_of_mem_leaders hf ?_⟩
  rintro t ht ho rfl
  exact h.begins_stop hlim ht ho

/-- Within the region a stretch begins at every leader, whatever the limit on their length. -/
theorem begins_of_lt (hf : Fits s.decode size) (h : Complete s size entry ts)
    (hc : c ∈ CodeLift.leaders s.decode s.policy size entry) (hlt : c.toNat < size) :
    Begins ts c := by
  refine h.begins_of_mem_leaders hf ?_ hc
  rintro t ht ho rfl
  exact h.targets (leadsTo_of_open ht ho) hlt

/-- Two complete lists have the same stretches, if their length is not limited. -/
theorem perm (hf : Fits s.decode size) (hlim : size < s.limit) (h : Complete s size entry ts)
    (h' : Complete s size entry us) : ts.Perm us := by
  have hb : ∀ {a}, Begins ts a ↔ Begins us a := fun {a} =>
    (h.begins_iff hf hlim).trans (h'.begins_iff hf hlim).symm
  refine h.apart.perm_of_begins h'.apart hb ?_ ?_
  · intro t ht ho _
    exact hb.1 (h.begins_stop hlim ht ho)
  · intro u hu ho _
    exact hb.2 (h'.begins_stop hlim hu ho)

end Complete

/-! ## Cutting targets free -/

/-- The stretches `us` are `ts` after cuts, one after the other, at those of the addresses that lie
inside a stretch. -/
inductive CutAll {decode : Address → Except Fault Decoded} :
    List Address → List (Stretch decode) → List (Stretch decode) → Prop where
  | nil (ts : List (Stretch decode)) : CutAll [] ts ts
  | skip {b : Address} {bs : List Address} {ts us : List (Stretch decode)}
      (hb : Known ts b → Begins ts b) (h : CutAll bs ts us) : CutAll (b :: bs) ts us
  | cut {b : Address} {bs : List Address} {ts ts₁ us : List (Stretch decode)} (hb : Known ts b)
      (hc : CutAt ts b ts₁) (h : CutAll bs ts₁ us) : CutAll (b :: bs) ts us

namespace CutAll

variable {decode : Address → Except Fault Decoded} {policy : ReturnPolicy} {addrs : List Address}
  {ts us : List (Stretch decode)} {t : Stretch decode}

theorem known_iff (h : CutAll addrs ts us) : Known us a ↔ Known ts a := by
  induction h with
  | nil => exact Iff.rfl
  | skip _ _ ih => exact ih
  | cut _ hc _ ih => exact ih.trans hc.known_iff

theorem begins_iff (h : CutAll addrs ts us) :
    Begins us a ↔ Begins ts a ∨ (a ∈ addrs ∧ Known ts a) := by
  induction h with
  | nil => simp
  | skip hb _ ih =>
    rw [ih, List.mem_cons]
    constructor
    · rintro (ha | ⟨ha, hk⟩)
      · exact .inl ha
      · exact .inr ⟨.inr ha, hk⟩
    · rintro (ha | ⟨rfl | ha, hk⟩)
      · exact .inl ha
      · exact .inl (hb hk)
      · exact .inr ⟨ha, hk⟩
  | cut hb hc _ ih =>
    rw [ih, hc.begins_iff, hc.known_iff, List.mem_cons]
    constructor
    · rintro ((rfl | ha) | ⟨ha, hk⟩)
      · exact .inr ⟨.inl rfl, hb⟩
      · exact .inl ha
      · exact .inr ⟨.inr ha, hk⟩
    · rintro (ha | ⟨rfl | ha, hk⟩)
      · exact .inl (.inr ha)
      · exact .inl (.inl rfl)
      · exact .inr ⟨ha, hk⟩

theorem leadsTo (h : CutAll addrs ts us) (ha : LeadsTo policy us a) :
    LeadsTo policy ts a ∨ a ∈ addrs := by
  induction h with
  | nil => exact .inl ha
  | skip _ _ ih => exact (ih ha).imp_right (List.mem_cons_of_mem _)
  | cut _ hc _ ih =>
    rw [List.mem_cons]
    rcases ih ha with ha | ha
    · exact (hc.leadsTo_iff.1 ha).symm.imp_right .inl
    · exact .inr (.inr ha)

theorem leadsTo_of (h : CutAll addrs ts us) (ha : LeadsTo policy ts a) : LeadsTo policy us a := by
  induction h with
  | nil => exact ha
  | skip _ _ ih => exact ih ha
  | cut _ hc _ ih => exact ih (hc.leadsTo_iff.2 (.inr ha))

theorem failures_perm (h : CutAll addrs ts us) :
    (us.filterMap Stretch.failure).Perm (ts.filterMap Stretch.failure) := by
  induction h with
  | nil => exact .refl _
  | skip _ _ ih => exact ih
  | cut _ hc _ ih => exact ih.trans hc.failures_perm

theorem held_perm (h : CutAll addrs ts us) :
    (us.flatMap Stretch.held).Perm (ts.flatMap Stretch.held) := by
  induction h with
  | nil => exact .refl _
  | skip _ _ ih => exact ih
  | cut _ hc _ ih => exact ih.trans hc.held_perm

/-- An open stretch after the cuts ends at a cut, or where an open one did before. -/
theorem of_open (h : CutAll addrs ts us) (ht : t ∈ us) (ho : t.Open) :
    Known ts t.stop ∨ ∃ u ∈ ts, u.Open ∧ u.stop = t.stop := by
  induction h with
  | nil => exact .inr ⟨t, ht, ho, rfl⟩
  | skip _ _ ih => exact ih ht
  | cut hb hc _ ih =>
    rcases ih ht with hk | ⟨u, hu, huo, hs⟩
    · exact .inl (hc.known_iff.1 hk)
    · rcases hc.of_open hu huo with ha | ⟨v, hv, hvo, hvs⟩
      · exact .inl (hs ▸ ha ▸ hb)
      · exact .inr ⟨v, hv, hvo, hvs.trans hs⟩

theorem exists_length_le (h : CutAll addrs ts us) (ht : t ∈ us) :
    ∃ u ∈ ts, t.insns.length ≤ u.insns.length := by
  induction h with
  | nil => exact ⟨t, ht, Nat.le_refl _⟩
  | skip _ _ ih => exact ih ht
  | cut _ hc _ ih =>
    obtain ⟨u, hu, hle⟩ := ih ht
    obtain ⟨v, hv, hle'⟩ := hc.exists_length_le hu
    exact ⟨v, hv, Nat.le_trans hle hle'⟩

end CutAll

/-- Addresses can be cut free without a fault. -/
theorem CodeMap.Shows.splitInterior {decode : Address → Except Fault Decoded}
    {policy : ReturnPolicy} {m : CodeMap} {ts : List (Stretch decode)} (h : m.Shows policy ts)
    (addrs : List Address) :
    ∃ m' events us, m.splitInterior addrs = .ok (m', events) ∧ m'.Shows policy us ∧
      CutAll addrs ts us := by
  induction addrs generalizing m ts with
  | nil => exact ⟨m, [], ts, rfl, h, .nil ts⟩
  | cons b bs ih =>
    rw [CodeMap.splitInterior]
    rcases slot_cases ts b with ⟨k, t, hk, rfl⟩ | ⟨k, t, hk, hb, hne⟩ | hu
    · obtain ⟨m', events, us, hm', h', hus⟩ := ih h
      rw [h.lookup_entry hk]
      exact ⟨m', events, us, hm', h', .skip (fun _ => ⟨t, List.mem_of_getElem? hk, rfl⟩) hus⟩
    · obtain ⟨r, ts₁, hr, h₁, hcut⟩ := h.split hk hb hne
      obtain ⟨m', events, us, hm', h', hus⟩ := ih h₁
      rw [h.lookup_interior hk hb hne]
      simp only [hr, hm', bind, Except.bind, pure, Except.pure]
      exact ⟨m', r.events ++ events, us, rfl, h', .cut ⟨t, List.mem_of_getElem? hk, hb⟩ hcut hus⟩
    · obtain ⟨m', events, us, hm', h', hus⟩ := ih h
      rw [h.lookup_unknown hu]
      exact ⟨m', events, us, hm', h', .skip (fun hk => absurd hk hu) hus⟩

namespace CodeMap.Inv

variable {m : CodeMap} {ts : List (Stretch s.decode)}

/-- A target that is known is a leader, if the length of stretches is not limited. -/
theorem mem_leaders_of_known (h : m.Inv s size entry ts) (hlim : size < s.limit)
    (hc : LeadsTo s.policy ts c) (hk : Known ts c) :
    c ∈ CodeLift.leaders s.decode s.policy size entry := by
  obtain ⟨t, ht, hm⟩ := hk
  by_cases he : c = t.entry
  · exact h.leaders hlim ⟨t, ht, he.symm⟩
  · exact h.mem_leaders_of_inside hc ht hm he

/-- Targets can be cut free without a fault. -/
theorem splitInterior {addrs : List Address} (h : m.Inv s size entry ts)
    (hl : ∀ a ∈ addrs, LeadsTo s.policy ts a) :
    ∃ m' events us, m.splitInterior addrs = .ok (m', events) ∧ m'.Inv s size entry us ∧
      CutAll addrs ts us := by
  obtain ⟨m', events, us, hm', hshows, hus⟩ := h.shows.splitInterior addrs
  refine ⟨m', events, us, hm', ⟨hshows, ?_, ?_, ?_, ?_⟩, hus⟩
  · intro a ha
    exact h.reach (hus.known_iff.1 ha)
  · intro hlim a ha
    rcases hus.begins_iff.1 ha with ha | ⟨ha, hk⟩
    · exact h.leaders hlim ha
    · exact h.mem_leaders_of_known hlim (hl a ha) hk
  · intro hlim t ht ho
    rw [hus.known_iff]
    rcases hus.of_open ht ho with hk | ⟨u, hu, huo, hs⟩
    · exact hk
    · rw [← hs]
      exact h.ends hlim hu huo
  · intro t ht
    obtain ⟨u, hu, hle⟩ := hus.exists_length_le ht
    exact Nat.le_trans hle (h.short hu)

end CodeMap.Inv

/-- When nothing waits any more, cutting the targets free leaves complete stretches. -/
theorem Discovery.Inv.complete {d : Discovery} {ts : List (Stretch s.decode)}
    (h : d.Inv s size entry [] ts) (hw : d.waiting = 0) :
    ∃ m cuts us, d.map.splitInterior (d.map.exits.filterMap (·.target)) = .ok (m, cuts) ∧
      m.Shows s.policy us ∧ Complete s size entry us ∧
      d.diagnostics.Perm ((us.filterMap Stretch.failure).map .decode) ∧
      (attempts d.events).Perm (us.flatMap Stretch.held) := by
  have hmem : ∀ {a}, a ∈ d.map.exits.filterMap (·.target) ↔ LeadsTo s.policy ts a := by
    intro a
    simp only [List.mem_filterMap, h.map.shows.mem_exits_iff, LeadsTo]
  obtain ⟨m, cuts, us, hm, hinv, hus⟩ := h.map.splitInterior fun a ha => hmem.1 ha
  have hbegins : ∀ {a}, Wanted s size entry ts a → Begins us a := by
    intro a ha
    rcases h.wanted ha with hb | hd | hn
    · exact hus.begins_iff.2 (.inl hb)
    · exact absurd hd (waiting_eq_zero_iff.1 hw a)
    · exact absurd hn List.not_mem_nil
  have hleads : ∀ {c}, LeadsTo s.policy us c → LeadsTo s.policy ts c := fun hc =>
    (hus.leadsTo hc).elim id hmem.1
  refine ⟨m, cuts, us, hm, hinv.shows, ⟨hinv.shows.apart, hinv.reach, hbegins (.inl rfl), ?_, ?_,
    hinv.leaders, hinv.ends, hinv.short⟩, h.failures.trans (hus.failures_perm.symm.map _),
    h.asked.trans hus.held_perm.symm⟩
  · intro c hc hlt
    exact hbegins (.inr ⟨hlt, hleads hc⟩)
  · intro c hc hk
    exact hus.begins_iff.2 (.inr ⟨hmem.2 (hleads hc), hus.known_iff.1 hk⟩)

end CodeLift
