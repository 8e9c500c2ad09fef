import CodeLift.Proofs.Lifting

/-!
# Every address is decoded once

The decoder is never asked for an address a second time. In the finished function each address that
it was asked for occurs once: as that of a record, or where decoding is said to have failed.
-/

namespace CodeLift

/-- The address at which the operation says that decoding failed, if it does. -/
def Op.failedAt? : Op → Option Address
  | unreachable pc => some pc
  | _ => none

/-- The addresses that occur in a block, each as often as it does: those of the records, and those
at which decoding failed. -/
def Block.addresses (b : Block) : List Address :=
  b.insns.map (·.addr) ++ b.ops.filterMap Op.failedAt?

/-- The addresses that occur in a function, each as often as it does. -/
def FlowGraph.addresses (g : FlowGraph) : List Address := g.blocks.toList.flatMap Block.addresses

variable {decode : Address → Except Fault Decoded}

theorem Insn.filterMap_failedAt?_lowered (i : Insn) : i.lowered.filterMap Op.failedAt? = [] := by
  rw [List.filterMap_eq_nil_iff]
  intro op hop
  have hreach := not_isUnreachable_of_mem hop
  cases op with
  | insnStart pc size => rfl
  | micro opcode args origin => rfl
  | unreachable pc => cases hreach

/-- In the block of a stretch only the point of failure is marked. -/
theorem Stretch.filterMap_failedAt?_ops (t : Stretch decode) :
    t.block.ops.filterMap Op.failedAt? = if t.failure.isSome then [t.stop] else [] := by
  have hmark : (if t.failure.isSome then [Op.unreachable t.stop] else []).filterMap Op.failedAt? =
      if t.failure.isSome then [t.stop] else [] := by
    split <;> rfl
  have hnone : (t.insns.flatMap fun i => i.lowered.filterMap Op.failedAt?) = [] :=
    List.flatMap_eq_nil_iff.2 fun i _ => i.filterMap_failedAt?_lowered
  show (t.insns.flatMap Insn.lowered ++ _).filterMap Op.failedAt? = _
  rw [List.filterMap_append, hmark, List.filterMap_flatMap, hnone, List.nil_append]

/-- The addresses in the block of a stretch are those that the stretch holds. -/
theorem Stretch.addresses_block (t : Stretch decode) : t.block.addresses = t.held := by
  rw [Block.addresses, map_addr_block_insns, filterMap_failedAt?_ops, held]

theorem FlowGraph.DrawsBlocks.addresses_eq {g : FlowGraph} {policy : ReturnPolicy}
    {vs : List (Stretch decode)} (h : g.DrawsBlocks policy vs) :
    g.addresses = vs.flatMap Stretch.held := by
  obtain ⟨notes, hblocks⟩ := h
  rw [addresses, hblocks, List.flatMap_map]
  exact List.flatMap_congr fun t _ => t.addresses_block

/-- The decoder is asked for no address twice, and the addresses that it was asked for are exactly
those that occur in the lifted function, which occur once each. -/
theorem Lifter.decodes_once {l : Lifter} {image : ByteArray} (hfit : image.size < Address.count)
    (hf : Fits (l.decoder.decodeOne image) image.size) (entry : Address) :
    ∃ r, l.lift image entry = .ok r ∧ (attempts r.events).Nodup ∧
      r.graph.addresses.Perm (attempts r.events) := by
  obtain ⟨r, vs, hr, hcomplete, -, hdraws, hasked⟩ := l.lift_blocks hfit hf entry
  refine ⟨r, hr, hasked.nodup_iff.2 hcomplete.apart, ?_⟩
  rw [hdraws.addresses_eq]
  exact hasked.symm

theorem Lifter.decodes_once_sample :
    ∃ r, Sample.lifter.lift Sample.image 0 = .ok r ∧ (attempts r.events).Nodup ∧
      r.graph.addresses.Perm (attempts r.events) :=
  decodes_once (by decide) Sample.conforms.toFits 0

end CodeLift
