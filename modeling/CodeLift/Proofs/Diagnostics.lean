import CodeLift.Proofs.FlowGraph

/-!
# The diagnostics of a flow graph

Diagnostics are sorted by address, and those about one address stay in the order in which they were
found. So a list of diagnostics is determined by what it says about each address, and that can be
read off the stretches, whatever the order in which they were found.
-/

namespace CodeLift

/-! ## Sorting by address -/

/-- Diagnostics in the order of their addresses. -/
def inOrder (ds : List Diagnostic) : List Diagnostic :=
  ds.mergeSort fun a b => a.address ≤ b.address

section Sorting

variable {ds es : List Diagnostic} {a : Address}

theorem address_le_trans (a b c : Diagnostic) (hab : decide (a.address ≤ b.address) = true)
    (hbc : decide (b.address ≤ c.address) = true) : decide (a.address ≤ c.address) = true :=
  decide_eq_true (UInt64.le_trans (of_decide_eq_true hab) (of_decide_eq_true hbc))

theorem address_le_total (a b : Diagnostic) :
    (decide (a.address ≤ b.address) || decide (b.address ≤ a.address)) = true := by
  rw [Bool.or_eq_true, decide_eq_true_eq, decide_eq_true_eq]
  exact UInt64.le_total _ _

theorem inOrder_pairwise (ds : List Diagnostic) :
    (inOrder ds).Pairwise fun a b => a.address ≤ b.address :=
  (List.pairwise_mergeSort address_le_trans address_le_total ds).imp of_decide_eq_true

/-- Sorting keeps the order of diagnostics about one address. -/
theorem filter_inOrder (ds : List Diagnostic) (a : Address) :
    (inOrder ds).filter (·.address == a) = ds.filter (·.address == a) := by
  have hsub : (ds.filter (·.address == a)).Sublist (inOrder ds) := by
    refine List.sublist_mergeSort address_le_trans address_le_total ?_ List.filter_sublist
    refine List.pairwise_of_forall_mem_list ?_
    intro d hd e he
    rw [beq_iff_eq.1 (List.mem_filter.1 hd).2, beq_iff_eq.1 (List.mem_filter.1 he).2]
    exact decide_eq_true (UInt64.le_refl a)
  have hsub' := hsub.filter (·.address == a)
  rw [List.filter_filter] at hsub'
  simp only [Bool.and_self] at hsub'
  refine (hsub'.eq_of_length ?_).symm
  exact (((List.mergeSort_perm ds _).filter _).length_eq).symm

/-- Sorted lists that say the same about each address are the same. -/
theorem eq_of_filter_eq (hd : ds.Pairwise fun a b => a.address ≤ b.address)
    (he : es.Pairwise fun a b => a.address ≤ b.address)
    (h : ∀ a, ds.filter (·.address == a) = es.filter (·.address == a)) : ds = es := by
  have hmem : ∀ d, d ∈ ds ↔ d ∈ es := by
    intro d
    have hd := congrArg (d ∈ ·) (h d.address)
    simpa using hd
  induction ds generalizing es with
  | nil =>
    have hnil : es = [] :=
      List.eq_nil_iff_forall_not_mem.2 fun d hd => List.not_mem_nil ((hmem d).2 hd)
    exact hnil.symm
  | cons d ds ih =>
    cases es with
    | nil => exact absurd ((hmem d).1 List.mem_cons_self) List.not_mem_nil
    | cons e es =>
      -- each of the first ones is in the other list, so their addresses are the same
      have hle : ∀ {x y : Diagnostic} {zs : List Diagnostic},
          (x :: zs).Pairwise (fun a b => a.address ≤ b.address) → y ∈ x :: zs →
          x.address ≤ y.address := by
        intro x y zs hp hy
        rcases List.mem_cons.1 hy with rfl | hy
        · exact UInt64.le_refl _
        · exact (List.pairwise_cons.1 hp).1 y hy
      have hde := hle hd ((hmem e).2 List.mem_cons_self)
      have hed := hle he ((hmem d).1 List.mem_cons_self)
      have haddr : d.address = e.address := UInt64.le_antisymm hde hed
      have hhead := h d.address
      rw [List.filter_cons_of_pos (by simp), List.filter_cons_of_pos (by simp [haddr])] at hhead
      obtain ⟨rfl, htail⟩ := List.cons.inj hhead
      have hrest : ∀ a, ds.filter (·.address == a) = es.filter (·.address == a) := by
        intro a
        by_cases hda : d.address = a
        · rw [← hda]
          exact htail
        · have ha := h a
          simpa [List.filter_cons, hda] using ha
      rw [ih hd.of_cons he.of_cons hrest]
      intro x
      have hx := congrArg (x ∈ ·) (hrest x.address)
      simpa using hx

theorem inOrder_eq (h : ∀ a, ds.filter (·.address == a) = es.filter (·.address == a)) :
    inOrder ds = inOrder es := by
  refine eq_of_filter_eq (inOrder_pairwise ds) (inOrder_pairwise es) ?_
  intro a
  rw [filter_inOrder, filter_inOrder, h]

end Sorting

/-! ## What is found about an address -/

variable {decode : Address → Except Fault Decoded} {policy : ReturnPolicy} {size : Nat}

/-- The problems of a stretch, if blocks begin at `entries`. -/
def Stretch.problems (policy : ReturnPolicy) (entries : List Address) (t : Stretch decode) :
    List Diagnostic :=
  (t.failure.map .decode).toList ++ (t.exits policy).filterMap (Exit.problem? entries)

theorem Exit.address_of_problem? {entries : List Address} {x : Exit} {d : Diagnostic}
    (h : x.problem? entries = some d) : d.address = x.source := by
  unfold problem? at h
  split at h
  · cases h
  · split at h
    · cases h
    · cases h
      rfl

theorem Stretch.failure_address_mem_held (hf : Conforms decode size) {t : Stretch decode}
    {d : Diagnostic} (hd : d ∈ (t.failure.map .decode).toList) : d.address ∈ t.held := by
  obtain ⟨f, hfail, rfl⟩ := Option.map_eq_some_iff.1 (Option.mem_toList.1 hd)
  rw [mem_held]
  exact .inr ⟨by rw [hfail]; rfl, hf.address_eq (t.fails hfail).1⟩

/-- A stretch has problems at the addresses that it holds. -/
theorem Stretch.address_mem_held (hf : Conforms decode size) {entries : List Address}
    {t : Stretch decode} {d : Diagnostic} (hd : d ∈ t.problems policy entries) :
    d.address ∈ t.held := by
  rw [problems, List.mem_append, List.mem_filterMap] at hd
  rcases hd with hd | ⟨x, hx, hd⟩
  · exact failure_address_mem_held hf hd
  · rw [Exit.address_of_problem? hd]
    exact last_mem_held (of_mem_exits hx).1

/-- Of lists that say nothing about other elements, only one counts. -/
theorem flatMap_eq_of_unique {α β : Type} {l : List α} {f : α → List β} {a : α} (hl : l.Nodup)
    (ha : a ∈ l) (h : ∀ b ∈ l, b ≠ a → f b = []) : l.flatMap f = f a := by
  obtain ⟨x, y, rfl⟩ := List.append_of_mem ha
  have hnil : ∀ {z : List α}, (∀ b ∈ z, b ∈ x ++ a :: y ∧ b ≠ a) → z.flatMap f = [] := by
    intro z hz
    rw [List.flatMap_eq_nil_iff]
    intro b hb
    exact h b (hz b hb).1 (hz b hb).2
  rw [List.nodup_middle, List.nodup_cons, List.mem_append, not_or] at hl
  rw [List.flatMap_append, List.flatMap_cons, hnil, hnil, List.nil_append, List.append_nil]
  · intro b hb
    exact ⟨by simp [hb], fun he => hl.1.2 (he ▸ hb)⟩
  · intro b hb
    exact ⟨by simp [hb], fun he => hl.1.1 (he ▸ hb)⟩

/-- What is said about an address is said of the stretch that holds it. -/
theorem Apart.filter_problems (hf : Conforms decode size) {ts : List (Stretch decode)}
    (h : Apart ts) {t : Stretch decode} (ht : t ∈ ts) {a : Address} (ha : a ∈ t.held)
    {entries : List Address} :
    (ts.flatMap (Stretch.problems policy entries)).filter (·.address == a) =
      (t.problems policy entries).filter (·.address == a) := by
  rw [List.filter_flatMap]
  refine flatMap_eq_of_unique h.nodup ht ?_
  intro u hu hne
  rw [List.filter_eq_nil_iff]
  intro d hd hda
  have hau : a ∈ u.held := beq_iff_eq.1 hda ▸ Stretch.address_mem_held hf hd
  exact hne (h.unique hu ht hau ha)

/-- The failures found are those of the stretches, and there is at most one at an address. -/
theorem filter_failures (hf : Conforms decode size) {ts : List (Stretch decode)} (h : Apart ts)
    {ds : List Diagnostic} (hds : ds.Perm (ts.flatMap fun t => (t.failure.map .decode).toList))
    {t : Stretch decode} (ht : t ∈ ts) {a : Address} (ha : a ∈ t.held) :
    ds.filter (·.address == a) = (t.failure.map .decode).toList.filter (·.address == a) := by
  have hperm := hds.filter (·.address == a)
  rw [List.filter_flatMap, flatMap_eq_of_unique h.nodup ht] at hperm
  · cases hfail : t.failure with
    | none =>
      rw [hfail] at hperm
      exact hperm.eq_nil
    | some f =>
      rw [hfail] at hperm
      simp only [Option.map_some, Option.toList_some, List.filter_singleton] at hperm ⊢
      cases hfa : (Diagnostic.decode f).address == a with
      | true =>
        rw [hfa] at hperm
        exact List.perm_singleton.1 hperm
      | false =>
        rw [hfa] at hperm
        exact hperm.eq_nil
  · intro u hu hne
    rw [List.filter_eq_nil_iff]
    intro d hd hda
    have hau : a ∈ u.held := beq_iff_eq.1 hda ▸ Stretch.failure_address_mem_held hf hd
    exact hne (h.unique hu ht hau ha)

namespace CodeMap.Shows

variable {m : CodeMap} {ts vs : List (Stretch decode)} {entries : List Address}
  {ds : List Diagnostic} {a : Address}

/-- The dropped exits of an instruction are those of its stretch. -/
theorem filter_problems (h : m.Shows policy ts) {t : Stretch decode} (ht : t ∈ ts)
    (ha : a ∈ t.held) :
    (m.exits.filterMap (Exit.problem? entries)).filter (·.address == a) =
      ((t.exits policy).filterMap (Exit.problem? entries)).filter (·.address == a) := by
  have hcomm : ∀ xs : List Exit, (xs.filterMap (Exit.problem? entries)).filter (·.address == a) =
      (xs.filter (·.source == a)).filterMap (Exit.problem? entries) := by
    intro xs
    rw [List.filter_filterMap, List.filterMap_filter]
    refine List.filterMap_congr ?_
    intro x _
    cases hx : x.problem? entries with
    | none => simp
    | some d =>
      rw [Option.filter_some, Exit.address_of_problem? hx]
  rw [hcomm, hcomm, ← h.filter_exits ht, List.filter_filter]
  congr 1
  refine List.filter_congr ?_
  intro x hx
  -- an exit of another stretch has its source elsewhere
  by_cases hxa : x.source = a
  · obtain ⟨u, hu, hl⟩ := h.source hx
    obtain rfl := h.apart.unique hu ht (hxa ▸ Stretch.last_mem_held hl) ha
    rw [hxa] at hl
    simp [hxa, hl]
  · simp [hxa]

theorem filter_problems_of_not_known (h : m.Shows policy ts) (ha : ¬ Known ts a) :
    (m.exits.filterMap (Exit.problem? entries)).filter (·.address == a) = [] := by
  rw [List.filter_eq_nil_iff]
  intro d hd hda
  obtain ⟨x, hx, hxd⟩ := List.mem_filterMap.1 hd
  obtain ⟨t, ht, hl⟩ := h.source hx
  rw [Exit.address_of_problem? hxd, beq_iff_eq] at hda
  exact ha ⟨t, ht, hda ▸ Stretch.last_mem_held hl⟩

/-- Two maps of the same stretches drop the same exits at each address, in the same order. -/
theorem filter_problems_eq {m' : CodeMap} {us : List (Stretch decode)} (h : m.Shows policy ts)
    (h' : m'.Shows policy us) (hp : ts.Perm us) (entries : List Address) (a : Address) :
    (m.exits.filterMap (Exit.problem? entries)).filter (·.address == a) =
      (m'.exits.filterMap (Exit.problem? entries)).filter (·.address == a) := by
  by_cases ha : Known ts a
  · obtain ⟨t, ht, ha⟩ := ha
    rw [h.filter_problems ht ha, h'.filter_problems (hp.mem_iff.1 ht) ha]
  · have ha' : ¬ Known us a := by simpa [Known, hp.mem_iff] using ha
    rw [h.filter_problems_of_not_known ha, h'.filter_problems_of_not_known ha']

/-- The diagnostics are those of the stretches, in whatever order they were found. -/
theorem inOrder_problems (hf : Conforms decode size) (h : m.Shows policy ts) (hn : m.Numbers ts vs)
    (hds : ds.Perm ((ts.filterMap Stretch.failure).map .decode)) (entries : List Address) :
    inOrder (ds ++ m.exits.filterMap (Exit.problem? entries)) =
      inOrder (vs.flatMap (Stretch.problems policy entries)) := by
  have hfailures : ds.Perm (ts.flatMap fun t => (t.failure.map .decode).toList) := by
    rwa [List.map_filterMap, List.filterMap_eq_flatMap_toList] at hds
  apply inOrder_eq
  intro a
  rw [List.filter_append]
  by_cases hk : Known ts a
  · obtain ⟨t, ht, ha⟩ := hk
    have hapart : Apart vs := (hn.perm.flatMap_right _).nodup_iff.2 h.apart
    have hfail := filter_failures hf h.apart hfailures ht ha
    rw [hfail, h.filter_problems ht ha, hapart.filter_problems hf (hn.perm.mem_iff.2 ht) ha,
      Stretch.problems, List.filter_append]
  · -- nothing is said about an address that is not known
    have hnil : ∀ {l : List Diagnostic}, (∀ d ∈ l, Known ts d.address) →
        l.filter (·.address == a) = [] := by
      intro l hl
      rw [List.filter_eq_nil_iff]
      intro d hd hda
      exact hk (beq_iff_eq.1 hda ▸ hl d hd)
    rw [h.filter_problems_of_not_known hk, hnil, hnil]
    · rfl
    · intro d hd
      obtain ⟨t, ht, hd⟩ := List.mem_flatMap.1 hd
      exact ⟨t, hn.perm.mem_iff.1 ht, Stretch.address_mem_held hf hd⟩
    · intro d hd
      obtain ⟨t, ht, hd⟩ := List.mem_flatMap.1 (hfailures.mem_iff.1 hd)
      exact ⟨t, ht, Stretch.failure_address_mem_held hf hd⟩

end CodeMap.Shows

end CodeLift
