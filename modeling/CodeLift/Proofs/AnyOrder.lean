import CodeLift.Proofs.Lifting

/-!
# The order of discovery does not matter

Discovery may take the waiting addresses in any order, out of either worklist. Along the way
different orders make different blocks, cut them differently and find exits in a different order. If
no block can be full, the function is the same in the end, down to the order of edges and
diagnostics: whatever the order, the stretches that are left are complete, and there is only one way
for them to be so.
-/

namespace CodeLift

namespace Discovery

variable {s : Scanner} {size : Nat} {entry addr : Address} {d : Discovery}

/-- The state `d` comes about after some rounds from `entry`. -/
def Reachable (s : Scanner) (size : Nat) (entry : Address) (d : Discovery) : Prop :=
  Relation.ReflTransGen (Step s size) (start entry) d

/-- Every discovery from `entry` comes to the graph `g`. -/
structure ComesTo (s : Scanner) (size : Nat) (entry : Address) (kind : NoteKind) (g : FlowGraph) :
    Prop where
  /-- It does not go on for ever. -/
  ends : ∀ {d}, Reachable s size entry d → Acc (flip (Step s size)) d
  /-- Any waiting address may be the next. -/
  free : ∀ {d addr}, Reachable s size entry d → d.Waits addr → ∃ rest, d.Takes addr rest
  /-- Whichever is taken, dealing with it does not fault. -/
  safe : ∀ {d addr rest}, Reachable s size entry d → d.Takes addr rest →
    ∃ d', rest.visit s size addr = .ok d'
  /-- When none is left, the graph is `g`. -/
  graph : ∀ {d}, Reachable s size entry d → d.waiting = 0 → d.conclude entry kind = .ok g

/-- A waiting address can be taken, wherever it stands. -/
theorem Waits.exists_takes (h : d.Waits addr) : ∃ rest, d.Takes addr rest := by
  rcases h with h | h
  · obtain ⟨before, after, hl⟩ := List.append_of_mem h
    have hr : d.functions.Removes addr ⟨before ++ after, [], d.functions.members.erase addr⟩ :=
      ⟨⟨before, after, hl, by simp [UniqueQueue.toList]⟩, rfl⟩
    exact ⟨_, .function hr⟩
  · obtain ⟨before, after, hl⟩ := List.append_of_mem h
    have hr : d.successors.Removes addr
        ⟨(before ++ after).reverse, d.successors.members.erase addr⟩ :=
      ⟨⟨before, after, hl, by simp [UniqueStack.toList]⟩, rfl⟩
    exact ⟨_, .successor hr⟩

end Discovery

namespace Lifter

variable {l : Lifter} {image : ByteArray}

/-- If no block can be full, the function does not depend on the order of discovery. -/
theorem lift_any_order (hfit : image.size < Address.count)
    (hc : Conforms (l.decoder.decodeOne image) image.size)
    (hlim : image.size < l.config.maxBlockInsns) (entry : Address) :
    ∃ r, l.lift image entry = .ok r ∧
      Discovery.ComesTo (l.scanner image) image.size entry l.config.noteKind r.graph := by
  obtain ⟨r, vs, hr, hcomplete, hasc, hann, -⟩ := l.lift_spec hfit hc entry
  have hf : Fits (l.scanner image).decode image.size := hc.toFits
  have hinv : ∀ {d}, Discovery.Reachable (l.scanner image) image.size entry d →
      ∃ ts, d.Inv (l.scanner image) image.size entry [] ts := fun hd =>
    (Discovery.Inv.start (l.scanner image) image.size entry).steps hf hfit hd
  refine ⟨r, hr, ?_, ?_, ?_, ?_⟩
  · -- ends
    intro d _
    exact Discovery.acc_step (l.scanner image) image.size d
  · -- free
    intro d addr _ hw
    exact hw.exists_takes
  · -- safe
    intro d addr rest hd ht
    obtain ⟨ts, h⟩ := hinv hd
    obtain ⟨d', -, hd', -⟩ := (h.take ht).visit hf hfit
    exact ⟨d', hd'⟩
  · -- graph
    intro d hd hw
    obtain ⟨ts, h⟩ := hinv hd
    obtain ⟨us, hcomplete', hasc', hg⟩ := h.conclude hc hw l.config.noteKind
    have hsame : us = vs := hasc'.eq_of_perm hasc (Complete.perm hf hlim hcomplete' hcomplete)
    rw [hg, hsame]
    exact hann

theorem lift_any_order_sample :
    ∃ r, Sample.lifter.lift Sample.image 0 = .ok r ∧
      Discovery.ComesTo (Sample.lifter.scanner Sample.image) Sample.image.size 0 .none r.graph :=
  lift_any_order (by decide) Sample.conforms (by decide) 0

end Lifter

end CodeLift
