import CodeLift.Proofs.MapHistory

/-!
# Cuts in any order

Cutting a block at one address and then at another leaves other slots and other exits behind than
cutting the other way round: the second cut falls into the tail of the first one, or into its head.
Once the map is finished nothing of that is left. It then depends only on where stretches begin, and
that only on the set of the addresses: neither their order nor how often one of them is named
matters.
-/

namespace CodeLift

section

variable {decode : Address → Except Fault Decoded} {policy : ReturnPolicy} {as bs : List Address}
  {ts ts₁ us vs : List (Stretch decode)}

/-! ## Stretches that are cut as far as they will be -/

/-- The stretches `us` are `ts` after cuts at the addresses `as` and at the targets of all exits. -/
structure Refined (policy : ReturnPolicy) (as : List Address) (ts us : List (Stretch decode)) :
    Prop where
  known_iff : ∀ {a}, Known us a ↔ Known ts a
  begins_iff : ∀ {a}, Begins us a ↔
    Begins ts a ∨ ((a ∈ as ∨ LeadsTo policy ts a) ∧ Known ts a)
  /-- No exit leads into the middle of a stretch. -/
  inner : ∀ {c}, LeadsTo policy us c → Known us c → Begins us c

theorem CutAll.refined (h : CutAll as ts ts₁) (h' : CutAll bs ts₁ us)
    (hbs : ∀ {a}, a ∈ bs ↔ LeadsTo policy ts₁ a) : Refined policy as ts us := by
  refine ⟨?_, ?_, ?_⟩
  · intro a
    rw [h'.known_iff, h.known_iff]
  · intro a
    rw [h'.begins_iff, h.begins_iff, h.known_iff, hbs]
    constructor
    · rintro ((hb | ⟨ha, hk⟩) | ⟨hl, hk⟩)
      · exact .inl hb
      · exact .inr ⟨.inl ha, hk⟩
      · exact .inr ⟨(h.leadsTo hl).symm, hk⟩
    · rintro (hb | ⟨ha | hl, hk⟩)
      · exact .inl (.inl hb)
      · exact .inl (.inr ⟨ha, hk⟩)
      · exact .inr ⟨h.leadsTo_of hl, hk⟩
  · intro c hl hk
    have hl₁ : LeadsTo policy ts₁ c := (h'.leadsTo hl).elim id hbs.1
    exact h'.begins_iff.2 (.inr ⟨hbs.2 hl₁, h'.known_iff.1 hk⟩)

/-- Cuts at the same addresses lead to the same stretches. -/
theorem Refined.perm (h : Refined policy as ts us) (h' : Refined policy bs ts vs) (hu : Apart us)
    (hv : Apart vs) (hsame : ∀ a, a ∈ as ↔ a ∈ bs) : us.Perm vs := by
  have hb : ∀ {a}, Begins us a ↔ Begins vs a := by
    intro a
    rw [h.begins_iff, h'.begins_iff, hsame]
  have hk : ∀ {a}, Known us a ↔ Known vs a := fun {a} => h.known_iff.trans h'.known_iff.symm
  refine hu.perm_of_begins hv hb ?_ ?_
  · intro t ht ho hstop
    exact hb.1 (h.inner (leadsTo_of_open ht ho) (hk.2 hstop))
  · intro v hv ho hstop
    exact hb.2 (h'.inner (leadsTo_of_open hv ho) (hk.1 hstop))

end

namespace CodeMap

/-- Make the addresses block entries, one after the other. -/
def splitAll (m : CodeMap) (addrs : List Address) : Except Fault CodeMap :=
  addrs.foldlM (fun m a => do return (← m.split a).map) m

/-- Only addresses inside a block make a difference. -/
theorem splitAll_of_splitInterior {m m' : CodeMap} {addrs : List Address} {events : List Event}
    (h : m.splitInterior addrs = .ok (m', events)) : m.splitAll addrs = .ok m' := by
  induction addrs generalizing m events with
  | nil =>
    cases h
    rfl
  | cons a as ih =>
    rw [splitInterior] at h
    rw [splitAll, List.foldlM_cons]
    cases hl : m.lookup a with
    | entry k =>
      rw [hl] at h
      rw [split, hl]
      exact ih h
    | unknown =>
      rw [hl] at h
      rw [split, hl]
      exact ih h
    | interior k =>
      rw [hl] at h
      obtain ⟨c, hc, h⟩ := bind_eq_ok.1 h
      obtain ⟨⟨m₁, es⟩, hm₁, h⟩ := bind_eq_ok.1 h
      cases h
      rw [hc]
      exact ih hm₁

section

variable {decode : Address → Except Fault Decoded} {policy : ReturnPolicy} {m : CodeMap}
  {ts : List (Stretch decode)}

/-- Cutting and finishing does not fault. The graph is that of the refined stretches. -/
theorem Shows.splitAll_finish (h : m.Shows policy ts) (addrs : List Address) (entry : Address)
    (ds : List Diagnostic) :
    ∃ (m₁ m₂ : CodeMap) (us vs : List (Stretch decode)) (events : List Event),
      m.splitAll addrs = .ok m₁ ∧ m₂.Shows policy us ∧ m₂.Numbers us vs ∧
      Refined policy addrs ts us ∧
      m₁.finish entry ds = .ok ({
        entry
        blocks := (vs.map (Stretch.drawn policy (vs.map Stretch.entry))).toArray
        diagnostics := inOrder
          (ds ++ m₂.exits.filterMap (Exit.problem? (vs.map Stretch.entry))) }, events) := by
  obtain ⟨m₁, cuts, ts₁, hm₁, h₁, hcut⟩ := h.splitInterior addrs
  obtain ⟨m₂, more, us, hm₂, h₂, hcut'⟩ := h₁.splitInterior (m₁.exits.filterMap (·.target))
  have htargets : ∀ {a}, a ∈ m₁.exits.filterMap (·.target) ↔ LeadsTo policy ts₁ a := by
    intro a
    simp only [List.mem_filterMap, h₁.mem_exits_iff, LeadsTo]
  obtain ⟨vs, hn⟩ := h₂.exists_numbers
  obtain ⟨drops, hg⟩ := h₂.toFlowGraph hn entry ds
  refine ⟨m₁, m₂, us, vs, more ++ drops, splitAll_of_splitInterior hm₁, h₂, hn,
    hcut.refined hcut' htargets, ?_⟩
  simp only [finish, hm₂, hg, bind, Except.bind, pure, Except.pure]
  rfl

end

/-- Whatever the history of a map, cuts at the same addresses lead to the same function, in whatever
order and however often they are made. -/
theorem splits_commute {s : Scanner} {size : Nat} {m : CodeMap} {cuts : Set Nat}
    {as bs : List Address} (hf : Fits s.decode size) (hsize : size < Address.count)
    (h : Built s m cuts) (hsame : ∀ a, a ∈ as ↔ a ∈ bs) (entry : Address) (ds : List Diagnostic) :
    ∃ g, (∃ m' events, m.splitAll as = .ok m' ∧ m'.finish entry ds = .ok (g, events)) ∧
      ∃ m' events, m.splitAll bs = .ok m' ∧ m'.finish entry ds = .ok (g, events) := by
  obtain ⟨ts, ht⟩ := h.exists_tracks hf hsize
  obtain ⟨m₁, m₂, us, vs, events, hm, hshows, hn, hrefined, hg⟩ :=
    ht.toShows.splitAll_finish as entry ds
  obtain ⟨m₁', m₂', us', vs', events', hm', hshows', hn', hrefined', hg'⟩ :=
    ht.toShows.splitAll_finish bs entry ds
  have hperm : us.Perm us' := hrefined.perm hrefined' hshows.apart hshows'.apart hsame
  obtain rfl : vs = vs' :=
    hn.ascending.eq_of_perm hn'.ascending ((hn.perm.trans hperm).trans hn'.perm.symm)
  have hproblems : inOrder (ds ++ m₂.exits.filterMap (Exit.problem? (vs.map Stretch.entry))) =
      inOrder (ds ++ m₂'.exits.filterMap (Exit.problem? (vs.map Stretch.entry))) := by
    apply inOrder_eq
    intro a
    rw [List.filter_append, List.filter_append, hshows.filter_problems_eq hshows' hperm]
  rw [hproblems] at hg
  exact ⟨_, ⟨m₁, events, hm, hg⟩, m₁', events', hm', hg'⟩

/-- Cuts from the front to the back divide tails, the other way round they divide heads. -/
theorem splits_commute_sample :
    Fits Sample.row.decode Sample.image.size ∧ Sample.image.size < Address.count ∧
      ∃ (m : CodeMap) (cuts : Set Nat), Built Sample.row m cuts ∧ m.lookup 2 = .interior 1 ∧
        ∃ g, (∃ m' events, m.splitAll [2, 3] = .ok m' ∧ m'.finish 0 [] = .ok (g, events)) ∧
          ∃ m' events, m.splitAll [3, 2, 3] = .ok m' ∧ m'.finish 0 [] = .ok (g, events) := by
  obtain ⟨m, cuts, hbuilt, hinside⟩ := Sample.exists_row_built
  have hfit : Sample.image.size < Address.count := by decide
  have hsame : ∀ a : Address, a ∈ [2, 3] ↔ a ∈ [3, 2, 3] := by
    intro a
    grind
  exact ⟨Sample.row_fits, hfit, m, cuts, hbuilt, hinside,
    splits_commute Sample.row_fits hfit hbuilt hsame 0 []⟩

end CodeMap

end CodeLift
