import CodeLift.Discovery

/-!
# What the events tell of decoding

The events of a discovery name every address that the decoder was asked for and every address at
which a block was read. Both come from scanning only: cutting blocks and finishing the map are
quiet.
-/

namespace CodeLift

/-- The address at which a block is read, if that is what happens. -/
def Event.scan? : Event → Option Address
  | scanned entry _ _ _ => some entry
  | _ => none

/-- The addresses at which blocks were read, in order. -/
def scans (events : List Event) : List Address := events.filterMap Event.scan?

/-- Neither is the decoder asked nor is a block read. -/
def Event.Quiet (e : Event) : Prop := e.attempt? = none ∧ e.scan? = none

section Lists

variable {es fs : List Event}

theorem attempts_append : attempts (es ++ fs) = attempts es ++ attempts fs :=
  List.filterMap_append

theorem attempts_reverse : attempts es.reverse = (attempts es).reverse := List.filterMap_reverse

theorem scans_append : scans (es ++ fs) = scans es ++ scans fs := List.filterMap_append

theorem scans_reverse : scans es.reverse = (scans es).reverse := List.filterMap_reverse

theorem attempts_of_quiet (h : ∀ e ∈ es, e.Quiet) : attempts es = [] :=
  List.filterMap_eq_nil_iff.2 fun e he => (h e he).1

theorem scans_of_quiet (h : ∀ e ∈ es, e.Quiet) : scans es = [] :=
  List.filterMap_eq_nil_iff.2 fun e he => (h e he).2

end Lists

/-! ## Scanning -/

namespace Scanner

theorem attempts_events (s : Scanner) (entry : Address) (r : Run) :
    attempts (s.events entry r) = r.attempts := by
  have hasked : ∀ pcs : List Address, attempts (pcs.map .attempted) = pcs := by
    intro pcs
    simp [attempts, List.filterMap_map, Function.comp_def, Event.attempt?]
  have hfull : attempts (if r.reason = .full then [.limitReached entry (max s.limit 1)] else []) =
      [] := by
    split <;> rfl
  have hfailed : attempts (r.failure?.map .failed).toList = [] := by
    cases r.failure? <;> rfl
  rw [events, attempts_append, attempts_append, attempts_append, hasked, hfull, hfailed,
    List.append_nil, List.append_nil]
  exact List.append_nil _

theorem scans_events (s : Scanner) (entry : Address) (r : Run) :
    scans (s.events entry r) = [entry] := by
  have hasked : ∀ pcs : List Address, scans (pcs.map .attempted) = [] := by
    intro pcs
    simp [scans, List.filterMap_map, Function.comp_def, Event.scan?]
  have hfull : scans (if r.reason = .full then [.limitReached entry (max s.limit 1)] else []) =
      [] := by
    split <;> rfl
  have hfailed : scans (r.failure?.map .failed).toList = [] := by
    cases r.failure? <;> rfl
  rw [events, scans_append, scans_append, scans_append, hasked, hfull, hfailed]
  rfl

end Scanner

/-! ## Cutting and finishing -/

namespace CodeMap

variable {m m' : CodeMap} {addr entry : Address} {r : Split} {es : List Event}

theorem quiet_of_split (h : m.split addr = .ok r) : ∀ e ∈ r.events, e.Quiet := by
  unfold split at h
  split at h
  · cases h
    simp
  · cases h
    simp
  · obtain ⟨b, -, h⟩ := bind_eq_ok.1 h
    obtain ⟨parts, -, h⟩ := bind_eq_ok.1 h
    rcases parts with _ | ⟨head, tail⟩
    · cases h
      simp
    · cases h
      unfold divide
      split
      · simp
      · simp [Event.Quiet, Event.attempt?, Event.scan?]

theorem quiet_of_splitInterior {addrs : List Address}
    (h : m.splitInterior addrs = .ok (m', es)) : ∀ e ∈ es, e.Quiet := by
  induction addrs generalizing m m' es with
  | nil =>
    cases h
    simp
  | cons a as ih =>
    unfold splitInterior at h
    split at h
    · obtain ⟨r, hr, h⟩ := bind_eq_ok.1 h
      obtain ⟨⟨m₁, fs⟩, hfs, h⟩ := bind_eq_ok.1 h
      cases h
      intro e he
      rcases List.mem_append.1 he with he | he
      · exact quiet_of_split hr e he
      · exact ih hfs e he
    · exact ih h

theorem quiet_of_toFlowGraph {ds : List Diagnostic} {g : FlowGraph}
    (h : m.toFlowGraph entry ds = .ok (g, es)) : ∀ e ∈ es, e.Quiet := by
  obtain ⟨blocks, -, h⟩ := bind_eq_ok.1 h
  obtain ⟨resolutions, -, h⟩ := bind_eq_ok.1 h
  cases h
  intro e he
  obtain ⟨⟨x, target⟩, -, rfl⟩ := List.mem_map.1 he
  exact ⟨rfl, rfl⟩

theorem quiet_of_finish {ds : List Diagnostic} {g : FlowGraph}
    (h : m.finish entry ds = .ok (g, es)) : ∀ e ∈ es, e.Quiet := by
  obtain ⟨⟨m₁, cuts⟩, hcuts, h⟩ := bind_eq_ok.1 h
  obtain ⟨⟨graph, drops⟩, hdrops, h⟩ := bind_eq_ok.1 h
  cases h
  intro e he
  rcases List.mem_append.1 he with he | he
  · exact quiet_of_splitInterior hcuts e he
  · exact quiet_of_toFlowGraph hdrops e he

end CodeMap

end CodeLift
