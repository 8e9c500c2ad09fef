import CodeLift.CodeMap.Finish
import CodeLift.Scan
import CodeLift.Worklist.Queue
import CodeLift.Worklist.Stack

/-!
# Discovery

Everything that can be reached from an entry address is found with two worklists: call targets wait
in a queue, all other successors on a stack that is emptied first. One step takes an address from
them. If a block begins there, nothing is to be done; if it lies inside a block, that is cut;
otherwise a block is scanned, recorded, and the targets of its exits are put on the worklists.

Discovery ends for every decoder whatsoever. A step that scans a block records an entry that was not
there, of which there are no more than addresses, and makes at most two addresses wait; every other
step leaves one address less on the worklists. `Discovery.run` recurs along `Discovery.potential`.
-/

namespace CodeLift

/-- The state of a discovery. -/
structure Discovery where
  /-- The blocks found so far. -/
  map : CodeMap := {}
  /-- Call targets, and the entry, that wait. -/
  functions : UniqueQueue Address := {}
  /-- Other successors that wait. -/
  successors : UniqueStack Address := {}
  /-- The problems met so far, newest first. -/
  diagnostics : List Diagnostic := []
  /-- What has happened so far, newest first. -/
  events : List Event := []

namespace Discovery

/-- The state in which only the entry waits. -/
def start (entry : Address) : Discovery :=
  { functions := (UniqueQueue.insert {} entry).2 }

/-- The number of addresses that wait. -/
def waiting (d : Discovery) : Nat := d.functions.size + d.successors.size

/-- Take the next address from the worklists. -/
def pop? (d : Discovery) : Option (Address × Discovery) :=
  match d.successors.pop? with
  | some (addr, successors) => some (addr, { d with successors })
  | none => d.functions.pop?.map fun (addr, functions) => (addr, { d with functions })

/-- Make an address inside a block a block entry. -/
def cut (d : Discovery) (addr : Address) : Except Fault Discovery := do
  let s ← d.map.split addr
  return { d with map := s.map, events := s.events.reverse ++ d.events }

/-- Deal with the target of an exit, in a region of `size` bytes: it is left alone outside the
region, and otherwise waits until it is its turn, unless it is known already. -/
def reach (d : Discovery) (size : Nat) (kind : EdgeKind) (target : Address) :
    Except Fault Discovery :=
  if size ≤ target.toNat then .ok { d with events := .outside target :: d.events }
  else
    match d.map.lookup target with
    | .entry _ => .ok d
    | .interior _ => d.cut target
    | .unknown =>
      .ok <|
        if kind = .call then { d with functions := (d.functions.insert target).2 }
        else { d with successors := (d.successors.insert target).2 }

/-- Deal with the targets of exits, in order. -/
def reachAll (d : Discovery) (size : Nat) : List Exit → Except Fault Discovery
  | [] => .ok d
  | x :: xs =>
    match x.target with
    | none => d.reachAll size xs
    | some target => do (← d.reach size x.kind target).reachAll size xs

/-- Record the block at `addr` that a run made. -/
def record (d : Discovery) (s : Scanner) (addr : Address) (r : Run) : Except Fault Discovery := do
  let map ← d.map.commit (r.block addr) (r.exits s.policy)
  return { d with
    map
    diagnostics := (r.failure?.map .decode).toList ++ d.diagnostics
    events := (s.events addr r).reverse ++ d.events }

/-- Deal with an address that was taken from the worklists. -/
def visit (d : Discovery) (s : Scanner) (size : Nat) (addr : Address) : Except Fault Discovery :=
  match d.map.lookup addr with
  | .entry _ => .ok d
  | .interior _ => d.cut addr
  | .unknown => do
    let r ← s.run d.map.isBoundary addr
    (← d.record s addr r).reachAll size (r.exits s.policy)

/-! ## Every step makes progress -/

/-- What bounds the steps still to come: the waiting addresses, and two for every address at which
no block begins, because scanning a block makes at most two addresses wait. -/
def potential (d : Discovery) : Nat := d.waiting + 2 * (Address.count - d.map.entries.size)

/-- Taking an address from the worklists leaves one less, and the map as it is. -/
theorem waiting_of_pop? {d rest : Discovery} {addr : Address} (h : d.pop? = some (addr, rest)) :
    d.waiting = rest.waiting + 1 ∧ rest.map = d.map := by
  unfold pop? at h
  split at h
  · next successors hs =>
    cases h
    have := UniqueStack.size_of_pop? hs
    simp only [waiting, and_true]
    omega
  · obtain ⟨⟨a, functions⟩, hf, he⟩ := Option.map_eq_some_iff.1 h
    cases he
    have := UniqueQueue.size_of_pop? hf
    simp only [waiting, and_true]
    omega

/-- Cutting takes no entry away, and no address waits for it. -/
theorem progress_of_cut {d d' : Discovery} {addr : Address} (h : d.cut addr = .ok d') :
    d.map.entries.size ≤ d'.map.entries.size ∧ d'.waiting = d.waiting := by
  obtain ⟨s, hs, h⟩ := bind_eq_ok.1 h
  cases h
  exact ⟨CodeMap.entries_size_le_of_split hs, rfl⟩

/-- Dealing with a target takes no entry away, and at most one address more waits. -/
theorem progress_of_reach {d d' : Discovery} {size : Nat} {kind : EdgeKind} {target : Address}
    (h : d.reach size kind target = .ok d') :
    d.map.entries.size ≤ d'.map.entries.size ∧ d'.waiting ≤ d.waiting + 1 := by
  unfold reach at h
  split at h
  · cases h; exact ⟨Nat.le_refl _, Nat.le_succ _⟩
  · split at h
    · cases h; exact ⟨Nat.le_refl _, Nat.le_succ _⟩
    · have := progress_of_cut h
      exact ⟨this.1, by omega⟩
    · split at h <;> cases h
      · have := d.functions.size_insert_le target
        exact ⟨Nat.le_refl _, by simp only [waiting]; omega⟩
      · have := d.successors.size_insert_le target
        exact ⟨Nat.le_refl _, by simp only [waiting]; omega⟩

/-- Dealing with the targets of exits takes no entry away, and for each at most one address more
waits. -/
theorem progress_of_reachAll {size : Nat} {xs : List Exit} {d d' : Discovery}
    (h : d.reachAll size xs = .ok d') :
    d.map.entries.size ≤ d'.map.entries.size ∧ d'.waiting ≤ d.waiting + xs.length := by
  induction xs generalizing d with
  | nil => cases h; exact ⟨Nat.le_refl _, Nat.le_refl _⟩
  | cons x xs ih =>
    unfold reachAll at h
    split at h
    · have := ih h
      exact ⟨this.1, by simp only [List.length_cons]; omega⟩
    · obtain ⟨d₁, hr, h⟩ := bind_eq_ok.1 h
      have h₁ := progress_of_reach hr
      have h₂ := ih h
      simp only [List.length_cons]
      omega

/-- Recording a block adds one entry, and no address waits for it. -/
theorem progress_of_record {d d' : Discovery} {s : Scanner} {addr : Address} {r : Run}
    (h : d.record s addr r = .ok d') :
    d'.map.entries.size = d.map.entries.size + 1 ∧ d'.waiting = d.waiting := by
  obtain ⟨m, hc, h⟩ := bind_eq_ok.1 h
  cases h
  exact ⟨CodeMap.entries_size_of_commit hc, rfl⟩

/-- Dealing with an address adds an entry and at most two waiting addresses, or else takes none away
and leaves the worklists at the same length. -/
theorem progress_of_visit {d d' : Discovery} {s : Scanner} {size : Nat} {addr : Address}
    (h : d.visit s size addr = .ok d') :
    (d.map.entries.size < d'.map.entries.size ∧ d'.waiting ≤ d.waiting + 2) ∨
      (d.map.entries.size ≤ d'.map.entries.size ∧ d'.waiting = d.waiting) := by
  unfold visit at h
  split at h
  · cases h; exact .inr ⟨Nat.le_refl _, rfl⟩
  · exact .inr (progress_of_cut h)
  · obtain ⟨r, -, h⟩ := bind_eq_ok.1 h
    obtain ⟨d₁, hd, h⟩ := bind_eq_ok.1 h
    have h₁ := progress_of_record hd
    have h₂ := progress_of_reachAll h
    have h₃ := r.length_exits_le s.policy
    omega

/-- A step lowers the potential. -/
theorem potential_lt_of_step {d rest d' : Discovery} {s : Scanner} {size : Nat} {addr : Address}
    (hp : d.pop? = some (addr, rest)) (hv : rest.visit s size addr = .ok d') :
    d'.potential < d.potential := by
  obtain ⟨hw, hm⟩ := waiting_of_pop? hp
  have hb := d'.map.entries_size_le
  have hv := progress_of_visit hv
  rw [hm] at hv
  simp only [potential]
  omega

/-- Deal with waiting addresses until none is left. -/
def run (d : Discovery) (s : Scanner) (size : Nat) : Except Fault Discovery :=
  match _hp : d.pop? with
  | none => .ok d
  | some (addr, rest) =>
    match _hv : rest.visit s size addr with
    | .error fault => .error fault
    | .ok d' => d'.run s size
termination_by d.potential
decreasing_by exact potential_lt_of_step _hp _hv

/-- Discover everything that can be reached from `entry` in a region of `size` bytes. -/
def discover (s : Scanner) (size : Nat) (entry : Address) : Except Fault Discovery :=
  (start entry).run s size

end Discovery

end CodeLift
