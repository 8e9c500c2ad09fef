import CodeLift.Proofs.Lifting

/-!
# What the blocks hold and where they begin

The instructions of the lifted blocks are exactly those that can be reached from the entry, for any
limit on the length of a block, and in the region decoding has failed exactly where it fails for an
address that can be reached. If no block can be full, then blocks begin exactly at the leaders.
-/

namespace CodeLift

namespace Complete

variable {s : Scanner} {size : Nat} {entry a : Address} {vs : List (Stretch s.decode)}

/-- The instructions of the stretches are those that can be reached. -/
theorem mem_insns_iff (hf : Fits s.decode size) (h : Complete s size entry vs) {i : Insn} :
    (∃ t ∈ vs, i ∈ t.insns) ↔
      Reach s.decode s.policy size entry i.addr ∧ Decodes s.decode i.addr i := by
  constructor
  · rintro ⟨t, ht, hi⟩
    exact ⟨h.reach ⟨t, ht, Stretch.addr_mem_held hi⟩, t.decodes hi⟩
  · rintro ⟨ha, hi⟩
    obtain ⟨t, ht, hm⟩ := h.known_of_decodes hf ha hi
    exact ⟨t, ht, (Stretch.mem_insns hm hi).1⟩

theorem exists_insn_iff (hf : Fits s.decode size) (h : Complete s size entry vs) :
    (∃ t ∈ vs, ∃ i ∈ t.insns, i.addr = a) ↔
      Reach s.decode s.policy size entry a ∧ ∃ i, Decodes s.decode a i := by
  constructor
  · rintro ⟨t, ht, i, hi, rfl⟩
    obtain ⟨ha, hd⟩ := (h.mem_insns_iff hf).1 ⟨t, ht, hi⟩
    exact ⟨ha, i, hd⟩
  · rintro ⟨ha, i, hi⟩
    obtain rfl := hf.addr_eq hi.1
    obtain ⟨t, ht, hm⟩ := (h.mem_insns_iff hf).2 ⟨ha, hi⟩
    exact ⟨t, ht, i, hm, rfl⟩

/-- Within the region stretches fail where an address that can be reached does not decode. -/
theorem exists_failure_iff (hf : Fits s.decode size) (h : Complete s size entry vs)
    (hlt : a.toNat < size) :
    (∃ t ∈ vs, t.failure.isSome ∧ a = t.stop) ↔
      Reach s.decode s.policy size entry a ∧ ¬ ∃ i, Decodes s.decode a i := by
  constructor
  · rintro ⟨t, ht, hfail, rfl⟩
    obtain ⟨f, hfail'⟩ := Option.isSome_iff_exists.1 hfail
    refine ⟨h.reach ⟨t, ht, Stretch.mem_held.2 (.inr ⟨hfail, rfl⟩)⟩, ?_⟩
    rintro ⟨i, hi⟩
    exact (t.fails hfail').1.not_decodes hi
  · rintro ⟨ha, hnot⟩
    obtain ⟨t, ht, hm⟩ := h.known_of_reach hf ha hlt
    rcases Stretch.mem_held.1 hm with ⟨i, hi, rfl⟩ | hstop
    · exact absurd ⟨i, t.decodes hi⟩ hnot
    · exact ⟨t, ht, hstop⟩

end Complete

namespace Lifter

variable {l : Lifter} {image : ByteArray}

/-- Lifting finds exactly the code that can be reached: the records of the blocks are the
instructions that can be reached, and within the image code is unreachable exactly where decoding
fails. -/
theorem lift_covers_reach (hfit : image.size < Address.count)
    (hc : Conforms (l.decoder.decodeOne image) image.size) (entry : Address) :
    ∃ r, l.lift image entry = .ok r ∧
      {a | ∃ b ∈ r.graph.blocks, ∃ i ∈ b.insns, i.addr = a} =
        {a | Reach (l.decoder.decodeOne image) l.policy image.size entry a ∧
          ∃ i, Decodes (l.decoder.decodeOne image) a i} ∧
      {a | a.toNat < image.size ∧ ∃ b ∈ r.graph.blocks, .unreachable a ∈ b.ops} =
        {a | a.toNat < image.size ∧ Reach (l.decoder.decodeOne image) l.policy image.size entry a ∧
          ¬ ∃ i, Decodes (l.decoder.decodeOne image) a i} := by
  obtain ⟨r, vs, hr, hcomplete, -, -, hdraws⟩ := l.lift_spec hfit hc entry
  have hf : Fits (l.scanner image).decode image.size := hc.toFits
  refine ⟨r, hr, ?_, ?_⟩
  · ext a
    simp only [Set.mem_ofPred_eq]
    rw [hdraws.exists_iff fun _ _ => Iff.rfl]
    refine Iff.trans ?_ (hcomplete.exists_insn_iff hf)
    refine exists_congr fun t => and_congr_right fun _ => ?_
    have hmap : (t.drawn l.policy (vs.map Stretch.entry)).insns.map (·.addr) =
        t.insns.map (·.addr) := t.map_addr_block_insns
    simp only [← List.mem_map, hmap]
  · ext a
    simp only [Set.mem_ofPred_eq]
    refine and_congr_right fun hlt => ?_
    rw [hdraws.exists_iff fun _ _ => Iff.rfl]
    refine Iff.trans ?_ (hcomplete.exists_failure_iff hf hlt)
    exact exists_congr fun t => and_congr_right fun _ => Stretch.unreachable_mem_block_ops

theorem lift_covers_reach_sample : ∃ r, Sample.lifter.lift Sample.image 0 = .ok r ∧
    ∃ b ∈ r.graph.blocks, .unreachable 3 ∈ b.ops := by
  obtain ⟨r, hr, -, hfail⟩ := lift_covers_reach (by decide) Sample.conforms 0
  have hreach := Reach.transfers Sample.reach_branch Sample.branch_transfers (by decide)
  have hnot : ¬ ∃ i, Decodes (Sample.lifter.decoder.decodeOne Sample.image) 3 i := by
    rintro ⟨i, hi, -⟩
    cases hi
  exact ⟨r, hr, ((Set.ext_iff.1 hfail 3).2 ⟨by decide, hreach, hnot⟩).2⟩

/-- If no block can be full, blocks begin exactly at the leaders. -/
theorem entries_eq_leaders (hfit : image.size < Address.count)
    (hc : Conforms (l.decoder.decodeOne image) image.size)
    (hlim : image.size < l.config.maxBlockInsns) (entry : Address) :
    ∃ r, l.lift image entry = .ok r ∧
      {c | ∃ b ∈ r.graph.blocks, b.entry = c} =
        leaders (l.decoder.decodeOne image) l.policy image.size entry := by
  obtain ⟨r, vs, hr, hcomplete, -, -, hdraws⟩ := l.lift_spec hfit hc entry
  have hf : Fits (l.scanner image).decode image.size := hc.toFits
  refine ⟨r, hr, ?_⟩
  ext c
  simp only [Set.mem_ofPred_eq]
  rw [hdraws.exists_iff fun _ _ => Iff.rfl]
  exact hcomplete.begins_iff hf hlim

theorem entries_eq_leaders_sample : ∃ r, Sample.lifter.lift Sample.image 0 = .ok r ∧
    ∃ b ∈ r.graph.blocks, b.entry = 3 := by
  obtain ⟨r, hr, hentries⟩ := entries_eq_leaders (by decide) Sample.conforms (by decide) 0
  have hlead := mem_leaders.2
    (.inr (.inl ⟨by decide, 1, Sample.reach_branch, Sample.branch_transfers⟩))
  exact ⟨r, hr, (Set.ext_iff.1 hentries 3).2 hlead⟩

end Lifter

end CodeLift
