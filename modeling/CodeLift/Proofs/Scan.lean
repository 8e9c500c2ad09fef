import CodeLift.Proofs.StretchBlock

/-!
# Scanning reads a stretch

With a decoder that fits the region, scanning never faults, and what it returns is a stretch: the
block, the exits and the failure of the run are those of the stretch, and the decoder was asked for
exactly the addresses that it holds. All of them but the entry were unknown. A stretch is never
longer than a block may be, and an open one ends at a known address or is just as long.
-/

namespace CodeLift

variable {decode : Address → Except Fault Decoded}

namespace Stretch

/-- The stretch of a failure at its entry. -/
def ofFailure {pc : Address} {f : DecodeFailure} (h : FailsWith decode pc f) : Stretch decode where
  entry := pc
  insns := []
  stop := pc
  failure := some f
  chain := rfl
  straight := by simp
  fails := by simp [h]
  filled := by simp

/-- The stretch of a single instruction, whatever follows. -/
def ofInsn {i : Insn} {next : Address} (h : Decodes decode i.addr i) (hn : i.next = .ok next) :
    Stretch decode where
  entry := i.addr
  insns := [i]
  stop := next
  failure := none
  chain := ⟨rfl, h, next, hn, rfl⟩
  straight := by simp
  fails := by simp
  filled := by simp

/-- A stretch with an instruction in front from which control falls to it. -/
def cons {i : Insn} (t : Stretch decode) (h : Decodes decode i.addr i) (hn : i.next = .ok t.entry)
    (hf : i.flow = none) : Stretch decode where
  entry := i.addr
  insns := i :: t.insns
  stop := t.stop
  failure := t.failure
  chain := ⟨rfl, h, t.entry, hn, t.chain⟩
  straight := by
    intro j hj
    cases hl : t.insns with
    | nil => simp [hl] at hj
    | cons k ks =>
      rw [hl, List.dropLast_cons_cons, List.mem_cons] at hj
      rcases hj with rfl | hj
      · exact hf
      · exact t.straight j (by rw [hl]; exact hj)
  fails := by
    intro f hfail
    refine ⟨(t.fails hfail).1, ?_⟩
    intro j hj
    rcases List.mem_cons.1 hj with rfl | hj
    · exact hf
    · exact (t.fails hfail).2 j hj
  filled := by simp

theorem held_cons {i : Insn} {t : Stretch decode} {h : Decodes decode i.addr i}
    {hn : i.next = .ok t.entry} {hf : i.flow = none} :
    (t.cons h hn hf).held = i.addr :: t.held := rfl

end Stretch

/-- Why a run of at most `room + 1` instructions ends where the stretch `t` does. -/
def RunEnd.Explains (known : Address → Bool) (room : Nat) (t : Stretch decode) : RunEnd → Prop
  | transfer flow => t.failure = none ∧ ∃ i, t.insns.getLast? = some i ∧ i.flow = some flow
  | boundary => t.Open ∧ known t.stop = true
  | full => t.Open ∧ t.insns.length = room + 1
  | failure f => t.failure = some f

theorem RunEnd.Explains.cons {known : Address → Bool} {room : Nat} {t : Stretch decode}
    {reason : RunEnd} (he : reason.Explains known room t) {i : Insn} (h : Decodes decode i.addr i)
    (hn : i.next = .ok t.entry) (hf : i.flow = none) :
    reason.Explains known (room + 1) (t.cons h hn hf) := by
  have hopen : t.Open → (t.cons h hn hf).Open := by
    intro ho
    refine ⟨ho.1, ?_⟩
    intro j hj
    rcases List.mem_cons.1 hj with rfl | hj
    · exact hf
    · exact ho.2 j hj
  cases reason with
  | transfer flow =>
    obtain ⟨hnone, j, hj, hflow⟩ := he
    refine ⟨hnone, j, ?_, hflow⟩
    show (i :: t.insns).getLast? = some j
    rw [List.getLast?_cons, hj]
    rfl
  | boundary => exact ⟨hopen he.1, he.2⟩
  | full =>
    refine ⟨hopen he.1, ?_⟩
    show (i :: t.insns).length = room + 1 + 1
    rw [List.length_cons, he.2]
  | failure f => exact he

/-- The run `r` reads the stretch `t`, asking for all addresses that it holds. -/
structure Run.Reads (r : Run) (t : Stretch decode) : Prop where
  insns : r.insns = t.insns
  stop : r.stop = t.stop
  attempts : r.attempts = t.held
  explains : ∃ known room, r.reason.Explains known room t

namespace Run.Reads

variable {r : Run} {t : Stretch decode}

theorem failure?_eq (h : r.Reads t) : r.failure? = t.failure := by
  obtain ⟨known, room, he⟩ := h.explains
  unfold failure?
  cases hr : r.reason with
  | transfer flow => rw [hr] at he; exact he.1.symm
  | boundary => rw [hr] at he; exact he.1.1.symm
  | full => rw [hr] at he; exact he.1.1.symm
  | failure f => rw [hr] at he; exact he.symm

theorem block_eq (h : r.Reads t) : r.block t.entry = t.block := by
  have hf := h.failure?_eq
  unfold Run.block
  cases hr : r.reason with
  | failure f =>
    have hs : t.failure = some f := by rw [← hf, failure?, hr]
    simp [Stretch.block, Block.pushOp, Block.appendAll, Block.empty, h.insns, h.stop, hs]
  | transfer flow =>
    have hn : t.failure = none := by rw [← hf, failure?, hr]
    simp [Stretch.block, Block.appendAll, Block.empty, h.insns, h.stop, hn]
  | boundary =>
    have hn : t.failure = none := by rw [← hf, failure?, hr]
    simp [Stretch.block, Block.appendAll, Block.empty, h.insns, h.stop, hn]
  | full =>
    have hn : t.failure = none := by rw [← hf, failure?, hr]
    simp [Stretch.block, Block.appendAll, Block.empty, h.insns, h.stop, hn]

theorem exits_eq (h : r.Reads t) (policy : ReturnPolicy) : r.exits policy = t.exits policy := by
  obtain ⟨known, room, he⟩ := h.explains
  unfold Run.exits Stretch.exits
  rw [h.insns, h.stop]
  cases hl : t.insns.getLast? with
  | none => rfl
  | some i =>
    have hi := List.mem_of_getLast? hl
    cases hr : r.reason with
    | transfer flow =>
      rw [hr] at he
      obtain ⟨hnone, j, hj, hflow⟩ := he
      cases hl.symm.trans hj
      simp only [hnone, hflow]
    | boundary =>
      rw [hr] at he
      simp only [he.1.1, he.1.2 i hi]
    | full =>
      rw [hr] at he
      simp only [he.1.1, he.1.2 i hi]
    | failure f =>
      rw [hr] at he
      simp only [RunEnd.Explains] at he
      simp only [he]

end Run.Reads

namespace Scanner

variable {s : Scanner} {size : Nat}

theorem follow_of_fails {known : Address → Bool} {before : List Step} {room : Nat} {pc : Address}
    {f : DecodeFailure} (h : FailsWith s.decode pc f) :
    s.follow known before room pc = .ok (.failed before pc f) := by
  unfold follow
  rw [decodeProper_of_fails h]
  rfl

/-- What a scan does after it has found an instruction. -/
theorem follow_of_decodes {known : Address → Bool} {before : List Step} {room : Nat}
    {pc next : Address} {i : Insn} (h : Decodes s.decode pc i) (hn : i.next = .ok next) :
    s.follow known before room pc =
      match i.flow with
      | some flow => .ok (.ofSteps (⟨pc, i⟩ :: before) next (.transfer flow))
      | none =>
        if known next then .ok (.ofSteps (⟨pc, i⟩ :: before) next .boundary)
        else
          match room with
          | 0 => .ok (.ofSteps (⟨pc, i⟩ :: before) next .full)
          | room + 1 => s.follow known (⟨pc, i⟩ :: before) room next := by
  rw [follow, decodeProper_of_decodes h]
  simp only [bind, Except.bind, hn]
  rfl

/-- What a scan that comes to its end has done at `pc`: it ended there, or it went on behind an
instruction without a transfer. -/
theorem follow_inv {known : Address → Bool} {before : List Step} {room : Nat} {pc : Address}
    {r : Run} (h : s.follow known before room pc = .ok r) :
    (∃ f, FailsWith s.decode pc f ∧ r = .failed before pc f) ∨
      ∃ i next, Decodes s.decode pc i ∧ i.next = .ok next ∧
        ((∃ flow, i.flow = some flow ∧
            r = .ofSteps (⟨pc, i⟩ :: before) next (.transfer flow)) ∨
          i.flow = none ∧
            (known next = true ∧ r = .ofSteps (⟨pc, i⟩ :: before) next .boundary ∨
              known next = false ∧
                (room = 0 ∧ r = .ofSteps (⟨pc, i⟩ :: before) next .full ∨
                  ∃ left, room = left + 1 ∧
                    s.follow known (⟨pc, i⟩ :: before) left next = .ok r))) := by
  obtain ⟨d, hd⟩ : ∃ d, s.decode pc = .ok d := by
    rw [follow] at h
    obtain ⟨e, he, -⟩ := bind_eq_ok.1 h
    obtain ⟨d, hd, -⟩ := bind_eq_ok.1 he
    exact ⟨d, hd⟩
  rcases decodes_or_fails hd with ⟨i, hi⟩ | ⟨f, hf⟩
  · obtain ⟨next, hn⟩ : ∃ next, i.next = .ok next := by
      rw [follow, decodeProper_of_decodes hi] at h
      obtain ⟨_, ⟨⟩, h⟩ := bind_eq_ok.1 h
      obtain ⟨next, hn, -⟩ := bind_eq_ok.1 h
      exact ⟨next, hn⟩
    refine .inr ⟨i, next, hi, hn, ?_⟩
    rw [follow_of_decodes hi hn] at h
    split at h
    · next flow hflow =>
      cases h
      exact .inl ⟨flow, hflow, rfl⟩
    · next hflow =>
      refine .inr ⟨hflow, ?_⟩
      split at h
      · next hknown =>
        cases h
        exact .inl ⟨hknown, rfl⟩
      · next hnew =>
        refine .inr ⟨Bool.eq_false_iff.2 hnew, ?_⟩
        split at h
        · cases h
          exact .inl ⟨rfl, rfl⟩
        · next left => exact .inr ⟨left, rfl, h⟩
  · rw [follow_of_fails hf] at h
    cases h
    exact .inl ⟨f, hf, rfl⟩

/-- Scanning on from `pc` reads a stretch from there. The induction is on the room that is left; the
steps `before` are only carried along. -/
theorem follow_spec (hf : Fits s.decode size) (hsize : size < Address.count)
    (known : Address → Bool) (room : Nat) (before : List Step) (pc : Address) :
    ∃ (t : Stretch s.decode) (reason : RunEnd), t.entry = pc ∧
      s.follow known before room pc = .ok {
        insns := before.reverse.map (·.insn) ++ t.insns
        stop := t.stop
        reason
        attempts := before.reverse.map (·.pc) ++ t.held } ∧
      reason.Explains known room t ∧ t.insns.length ≤ room + 1 ∧
      ∀ a ∈ t.held, a ≠ pc → known a = false := by
  induction room using Nat.strong_induction_on generalizing before pc with
  | _ room ih =>
    rcases hf.decodes_or_fails pc with ⟨i, hd⟩ | ⟨f, hfail⟩
    · obtain rfl := hf.addr_eq hd.1
      obtain ⟨next, hn, -⟩ := hf.exists_next hsize hd
      have hone : (Stretch.ofInsn hd hn).insns.length ≤ room + 1 := Nat.le_add_left 1 room
      rw [follow_of_decodes hd hn]
      cases hflow : i.flow with
      | some flow =>
        refine ⟨.ofInsn hd hn, .transfer flow, rfl, ?_, ⟨rfl, i, rfl, hflow⟩, hone, ?_⟩
        · simp [Run.ofSteps, Stretch.ofInsn, Stretch.held]
        · simp [Stretch.ofInsn, Stretch.held]
      | none =>
        have hopen : (Stretch.ofInsn hd hn).Open := ⟨rfl, by simp [Stretch.ofInsn, hflow]⟩
        by_cases hk : known next = true
        · refine ⟨.ofInsn hd hn, .boundary, rfl, ?_, ⟨hopen, hk⟩, hone, ?_⟩
          · simp [hk, Run.ofSteps, Stretch.ofInsn, Stretch.held]
          · simp [Stretch.ofInsn, Stretch.held]
        · cases room with
          | zero =>
            refine ⟨.ofInsn hd hn, .full, rfl, ?_, ⟨hopen, rfl⟩, hone, ?_⟩
            · simp [hk, Run.ofSteps, Stretch.ofInsn, Stretch.held]
            · simp [Stretch.ofInsn, Stretch.held]
          | succ room =>
            obtain ⟨t, reason, rfl, hrun, he, hlen, hu⟩ :=
              ih room (Nat.lt_succ_self _) (⟨i.addr, i⟩ :: before) next
            refine ⟨t.cons hd hn hflow, reason, rfl, ?_, he.cons hd hn hflow,
              Nat.succ_le_succ hlen, ?_⟩
            · simp only [hk, Bool.false_eq_true, if_false, hrun, Stretch.held_cons]
              simp [Stretch.cons]
            · intro a ha hne
              rw [Stretch.held_cons, List.mem_cons] at ha
              by_cases hat : a = t.entry
              · rw [hat]
                exact Bool.eq_false_iff.2 hk
              · exact hu a (ha.resolve_left hne) hat
    · refine ⟨.ofFailure hfail, .failure f, rfl, ?_, rfl, Nat.zero_le _, ?_⟩
      · rw [follow_of_fails hfail]
        simp [Run.failed, Run.ofSteps, Stretch.ofFailure, Stretch.held]
      · simp [Stretch.ofFailure, Stretch.held]

/-- Scanning a block reads a stretch from its entry through unknown addresses. -/
theorem run_spec (hf : Fits s.decode size) (hsize : size < Address.count)
    (known : Address → Bool) (entry : Address) :
    ∃ (r : Run) (t : Stretch s.decode), s.run known entry = .ok r ∧ r.Reads t ∧ t.entry = entry ∧
      (∀ a ∈ t.held, a ≠ entry → known a = false) ∧ t.insns.length ≤ max s.limit 1 ∧
      (t.Open → known t.stop = true ∨ t.insns.length = max s.limit 1) := by
  obtain ⟨t, reason, he, hrun, hex, hlen, hu⟩ := follow_spec hf hsize known (s.limit - 1) [] entry
  refine ⟨_, t, hrun, ⟨rfl, rfl, rfl, known, _, hex⟩, he, hu, by omega, ?_⟩
  intro ho
  cases reason with
  | transfer flow =>
    obtain ⟨-, i, hi, hflow⟩ := hex
    rw [ho.2 i (List.mem_of_getLast? hi)] at hflow
    cases hflow
  | boundary => exact .inl hex.2
  | full =>
    right
    rw [hex.2]
    omega
  | failure f => exact absurd (ho.1.symm.trans hex) (by simp)

end Scanner

end CodeLift
