import CodeLift.CodeMap.Split
import CodeLift.Proofs.Reach
import Mathlib.Data.List.Nodup

/-!
# Stretches of code

A stretch is a straight run of instructions as the decoder gives them, with the reason why it ends:
its last instruction has a transfer, decoding fails after it, or it is just cut off there. Each
block of a code map is the block of a stretch, and all that the map records of a block can be read
off the stretch: the addresses that it holds, its exits, and its failure.

The point where decoding fails is held by the stretch like an address of an instruction. The entry
is always among the addresses that are held, and cutting a stretch at any other one leaves two
stretches that hold the same addresses together. That carries over to blocks: `Block.cut?` yields
the blocks of the two parts.
-/

namespace CodeLift

variable {decode : Address → Except Fault Decoded} {policy : ReturnPolicy}

/-! ## Instructions in a row -/

/-- The instructions from `a` to `b`, each found where the one before it ends. -/
def Chain (decode : Address → Except Fault Decoded) : Address → List Insn → Address → Prop
  | a, [], b => a = b
  | a, i :: is, b => i.addr = a ∧ Decodes decode a i ∧ ∃ c, i.next = .ok c ∧ Chain decode c is b

namespace Chain

variable {a b c : Address} {l r : List Insn} {i : Insn}

theorem append_iff : Chain decode a (l ++ r) c ↔ ∃ b, Chain decode a l b ∧ Chain decode b r c := by
  induction l generalizing a with
  | nil => simp [Chain]
  | cons i is ih =>
    simp only [List.cons_append, Chain, ih]
    constructor
    · rintro ⟨ha, hd, d, hn, b, hl, hr⟩
      exact ⟨b, ⟨ha, hd, d, hn, hl⟩, hr⟩
    · rintro ⟨b, ⟨ha, hd, d, hn, hl⟩, hr⟩
      exact ⟨ha, hd, d, hn, b, hl, hr⟩

theorem concat_iff : Chain decode a (l ++ [i]) c ↔
    Chain decode a l i.addr ∧ Decodes decode i.addr i ∧ i.next = .ok c := by
  rw [append_iff]
  constructor
  · rintro ⟨b, hl, rfl, hd, c, hn, rfl⟩
    exact ⟨hl, hd, hn⟩
  · rintro ⟨hl, hd, hn⟩
    exact ⟨_, hl, rfl, hd, _, hn, rfl⟩

theorem decodes (h : Chain decode a l b) (hi : i ∈ l) : Decodes decode i.addr i := by
  obtain ⟨x, y, rfl⟩ := List.append_of_mem hi
  obtain ⟨c, -, rfl, hd, -⟩ := append_iff.1 h
  exact hd

theorem add_length_le (h : Chain decode a l b) : a.toNat + l.length ≤ b.toNat := by
  induction l generalizing a with
  | nil => cases h; simp
  | cons i is ih =>
    obtain ⟨rfl, hd, c, hn, hr⟩ := h
    have hlt := hd.lt_of_next hn
    have hle := ih hr
    simp only [List.length_cons]
    omega

theorem addr_lt (h : Chain decode a l b) (hi : i ∈ l) :
    a.toNat ≤ i.addr.toNat ∧ i.addr.toNat < b.toNat := by
  obtain ⟨x, y, rfl⟩ := List.append_of_mem hi
  obtain ⟨c, hx, rfl, hd, d, hn, hy⟩ := append_iff.1 h
  have h₁ := hx.add_length_le
  have h₂ := hd.lt_of_next hn
  have h₃ := hy.add_length_le
  omega

theorem pairwise (h : Chain decode a l b) :
    (l.map (·.addr)).Pairwise fun p q => p.toNat < q.toNat := by
  induction l generalizing a with
  | nil => exact List.Pairwise.nil
  | cons i is ih =>
    obtain ⟨rfl, hd, c, hn, hr⟩ := h
    rw [List.map_cons, List.pairwise_cons]
    refine ⟨?_, ih hr⟩
    intro q hq
    obtain ⟨j, hj, rfl⟩ := List.mem_map.1 hq
    have h₁ := hd.lt_of_next hn
    have h₂ := (hr.addr_lt hj).1
    omega

/-- Of two rows from one address one goes on where the other ends, unless they are the same. -/
theorem compare (hl : Chain decode a l b) (hr : Chain decode a r c) :
    (∃ i x, r = l ++ i :: x ∧ i.addr = b) ∨ (∃ i x, l = r ++ i :: x ∧ i.addr = c) ∨
      (l = r ∧ b = c) := by
  induction l generalizing a r with
  | nil =>
    cases hl
    cases r with
    | nil => exact .inr (.inr ⟨rfl, hr⟩)
    | cons j js => exact .inl ⟨j, js, rfl, hr.1⟩
  | cons i is ih =>
    cases r with
    | nil =>
      cases hr
      exact .inr (.inl ⟨i, is, rfl, hl.1⟩)
    | cons j js =>
      obtain ⟨-, hi, d, hd, hl⟩ := hl
      obtain ⟨-, hj, e, he, hr⟩ := hr
      cases hi.unique hj
      cases hd.symm.trans he
      rcases ih hl hr with ⟨k, x, rfl, hk⟩ | ⟨k, x, rfl, hk⟩ | ⟨rfl, rfl⟩
      · exact .inl ⟨k, x, rfl, hk⟩
      · exact .inr (.inl ⟨k, x, rfl, hk⟩)
      · exact .inr (.inr ⟨rfl, rfl⟩)

theorem stop_le {size : Nat} (hf : Fits decode size) (h : Chain decode a l b) (hl : l ≠ []) :
    b.toNat ≤ size := by
  obtain ⟨l, i, rfl⟩ := (List.eq_nil_or_concat' l).resolve_left hl
  obtain ⟨-, hd, hn⟩ := concat_iff.1 h
  rw [Insn.toNat_of_next hn]
  exact hf.stop_le hd.1

end Chain

/-! ## Stretches -/

/-- A straight run of instructions of the code that `decode` gives. -/
@[ext]
structure Stretch (decode : Address → Except Fault Decoded) where
  /-- Where the run begins. -/
  entry : Address
  /-- Its instructions. -/
  insns : List Insn
  /-- Where it ends. -/
  stop : Address
  /-- Why nothing can be decoded at the end, if that is why it ends. -/
  failure : Option DecodeFailure
  /-- The instructions lead from the entry to the end. -/
  chain : Chain decode entry insns stop
  /-- None but the last has a transfer. -/
  straight : ∀ i ∈ insns.dropLast, i.flow = none
  /-- A failure is what the decoder reports at the end, and control falls to it. -/
  fails : ∀ {f}, failure = some f → FailsWith decode stop f ∧ ∀ i ∈ insns, i.flow = none
  /-- Without instructions there is a failure. -/
  filled : insns = [] → failure ≠ none

/-- All exits of a transfer leave the instruction that performs it, and only an indirect one has no
target. -/
theorem of_mem_exitsFor {flow : ControlFlow} {pc next : Address} {x : Exit}
    (hx : x ∈ exitsFor policy flow pc next) :
    x.source = pc ∧ (x.target = none → x.kind = .indirect) := by
  cases flow with
  | jump target => simp_all [exitsFor]
  | condJump target => grind [exitsFor]
  | call target returns => grind [exitsFor]
  | indirectCall => grind [exitsFor]
  | ret => simp_all [exitsFor]
  | indirectJump => simp_all [exitsFor]
  | halt => simp_all [exitsFor]

namespace Stretch

variable {t u head tail : Stretch decode} {a c p : Address} {i : Insn} {x : Exit}

/-- The addresses that a stretch holds: those of its instructions, and of the point of failure. -/
def held (t : Stretch decode) : List Address :=
  t.insns.map (·.addr) ++ if t.failure.isSome then [t.stop] else []

/-- The address of the last instruction. -/
def last? (t : Stretch decode) : Option Address := t.insns.getLast?.map (·.addr)

/-- The ways out of a stretch: those of its last instruction, if that has a transfer, none if
decoding fails, and otherwise the end. -/
def exits (t : Stretch decode) (policy : ReturnPolicy) : List Exit :=
  match t.insns.getLast? with
  | none => []
  | some i =>
    match t.failure with
    | some _ => []
    | none =>
      match i.flow with
      | some flow => exitsFor policy flow i.addr t.stop
      | none => [⟨i.addr, .fallthrough, some t.stop⟩]

/-- The stretch is cut off: control just falls to its end. -/
def Open (t : Stretch decode) : Prop := t.failure = none ∧ ∀ i ∈ t.insns, i.flow = none

/-- The block of a stretch. -/
def block (t : Stretch decode) : Block where
  entry := t.entry
  stop := t.stop
  insns := Record.ofInsns [] 0 t.insns
  ops := t.insns.flatMap Insn.lowered ++ if t.failure.isSome then [.unreachable t.stop] else []

/-! ## The addresses of a stretch -/

theorem mem_held : a ∈ t.held ↔ (∃ i ∈ t.insns, i.addr = a) ∨ (t.failure.isSome ∧ a = t.stop) := by
  unfold held
  split
  · next hf => simp [hf]
  · next hf => simp [hf]

theorem decodes (hi : i ∈ t.insns) : Decodes decode i.addr i := t.chain.decodes hi

theorem addr_mem_held (hi : i ∈ t.insns) : i.addr ∈ t.held := mem_held.2 (.inl ⟨i, hi, rfl⟩)

theorem mem_insns (ha : a ∈ t.held) (hi : Decodes decode a i) : i ∈ t.insns ∧ i.addr = a := by
  rcases mem_held.1 ha with ⟨j, hj, rfl⟩ | ⟨hf, rfl⟩
  · cases hi.unique (t.decodes hj)
    exact ⟨hj, rfl⟩
  · obtain ⟨f, hf⟩ := Option.isSome_iff_exists.1 hf
    exact absurd hi (t.fails hf).1.not_decodes

theorem entry_mem_held (t : Stretch decode) : t.entry ∈ t.held := by
  have hc := t.chain
  have hf := t.filled
  rw [mem_held]
  cases hl : t.insns with
  | nil =>
    rw [hl] at hc
    exact .inr ⟨Option.isSome_iff_ne_none.2 (hf hl), hc⟩
  | cons i is =>
    rw [hl] at hc
    exact .inl ⟨i, List.mem_cons_self, hc.1⟩

theorem entry_eq_stop (t : Stretch decode) (hl : t.insns = []) : t.entry = t.stop := by
  have hc := t.chain
  rw [hl] at hc
  exact hc

theorem held_pairwise (t : Stretch decode) : t.held.Pairwise fun p q => p.toNat < q.toNat := by
  unfold held
  split
  · rw [List.pairwise_append]
    refine ⟨t.chain.pairwise, List.pairwise_singleton _ _, ?_⟩
    intro p hp q hq
    obtain ⟨i, hi, rfl⟩ := List.mem_map.1 hp
    rw [List.mem_singleton.1 hq]
    exact (t.chain.addr_lt hi).2
  · rw [List.append_nil]
    exact t.chain.pairwise

theorem held_nodup (t : Stretch decode) : t.held.Nodup :=
  t.held_pairwise.imp fun h he => absurd (congrArg UInt64.toNat he) (Nat.ne_of_lt h)

theorem Open.entry_lt (h : t.Open) : t.entry.toNat < t.stop.toNat := by
  have hl : t.insns ≠ [] := fun hl => t.filled hl h.1
  have hle := t.chain.add_length_le
  have hpos := List.length_pos_iff.2 hl
  omega

theorem exists_last (hl : t.insns ≠ []) :
    ∃ before i, t.insns = before ++ [i] ∧ t.last? = some i.addr ∧
      Decodes decode i.addr i ∧ i.next = .ok t.stop := by
  obtain ⟨l, i, hi⟩ := (List.eq_nil_or_concat' t.insns).resolve_left hl
  have hc := t.chain
  rw [hi] at hc
  obtain ⟨-, hd, hn⟩ := Chain.concat_iff.1 hc
  refine ⟨l, i, hi, ?_, hd, hn⟩
  rw [last?, hi]
  simp

theorem last_mem_held (h : t.last? = some p) : p ∈ t.held := by
  obtain ⟨i, hi, rfl⟩ := Option.map_eq_some_iff.1 h
  exact addr_mem_held (List.mem_of_getLast? hi)

/-! ## The ways out of a stretch -/

theorem exits_of_nil (hl : t.insns = []) : t.exits policy = [] := by
  simp [exits, hl]

theorem exits_of_failure (hf : t.failure ≠ none) : t.exits policy = [] := by
  obtain ⟨f, hf⟩ := Option.ne_none_iff_exists'.1 hf
  unfold exits
  split
  · rfl
  · rw [hf]

/-- The exits of a last instruction with a transfer are those of the transfer. -/
theorem exits_of_flow (policy : ReturnPolicy) {flow : ControlFlow} (hi : i ∈ t.insns)
    (hf : i.flow = some flow) :
    t.last? = some i.addr ∧ i.next = .ok t.stop ∧
      t.exits policy = exitsFor policy flow i.addr t.stop := by
  obtain ⟨l, j, hl, hlast, hd, hn⟩ := exists_last (List.ne_nil_of_mem hi)
  have hs := t.straight
  rw [hl, List.dropLast_concat] at hs
  rw [hl, List.mem_append, List.mem_singleton] at hi
  rcases hi with hi | rfl
  · exact absurd ((hs i hi).symm.trans hf) (by simp)
  · have hnone : t.failure = none := by
      by_contra hne
      obtain ⟨f, hfail⟩ := Option.ne_none_iff_exists'.1 hne
      have hflow := (t.fails hfail).2 i (by rw [hl]; simp)
      exact absurd (hflow.symm.trans hf) (by simp)
    refine ⟨hlast, hn, ?_⟩
    simp [exits, hl, hnone, hf]

/-- An open stretch has its end as the only exit. -/
theorem Open.exits_eq (h : t.Open) (policy : ReturnPolicy) :
    ∃ p, t.last? = some p ∧ Falls decode p t.stop ∧
      t.exits policy = [⟨p, .fallthrough, some t.stop⟩] := by
  obtain ⟨l, i, hl, hlast, hd, hn⟩ := exists_last fun hl => t.filled hl h.1
  have hflow : i.flow = none := h.2 i (by rw [hl]; simp)
  refine ⟨i.addr, hlast, ⟨i, hd, hflow, hn⟩, ?_⟩
  simp [exits, hl, h.1, hflow]

/-- A stretch ends with a failure, is open, or its last instruction has a transfer. -/
theorem end_cases (t : Stretch decode) :
    (∃ f, t.failure = some f) ∨ t.Open ∨ ∃ i ∈ t.insns, ∃ flow, i.flow = some flow := by
  cases hf : t.failure with
  | some f => exact .inl ⟨f, rfl⟩
  | none =>
    by_cases ho : ∀ i ∈ t.insns, i.flow = none
    · exact .inr (.inl ⟨hf, ho⟩)
    · push Not at ho
      obtain ⟨i, hi, hne⟩ := ho
      exact .inr (.inr ⟨i, hi, Option.ne_none_iff_exists'.1 hne⟩)

/-- An exit leaves the last instruction, by its transfer or because the stretch is open. -/
theorem of_mem_exits (hx : x ∈ t.exits policy) :
    t.last? = some x.source ∧
      ((∃ i flow, Decodes decode x.source i ∧ i.flow = some flow ∧ i.next = .ok t.stop ∧
          x ∈ exitsFor policy flow x.source t.stop) ∨
        (t.Open ∧ Falls decode x.source t.stop ∧ x = ⟨x.source, .fallthrough, some t.stop⟩)) := by
  rcases t.end_cases with ⟨f, hf⟩ | ho | ⟨i, hi, flow, hflow⟩
  · rw [exits_of_failure (by rw [hf]; simp)] at hx
    exact absurd hx List.not_mem_nil
  · obtain ⟨p, hp, hfall, he⟩ := ho.exits_eq policy
    rw [he, List.mem_singleton] at hx
    subst hx
    exact ⟨hp, .inr ⟨ho, hfall, rfl⟩⟩
  · obtain ⟨hlast, hn, he⟩ := exits_of_flow policy hi hflow
    rw [he] at hx
    have hsrc := (of_mem_exitsFor hx).1
    rw [hsrc]
    exact ⟨hlast, .inl ⟨i, flow, t.decodes hi, hflow, hn, hx⟩⟩

/-! ## Cutting a stretch -/

/-- `head` and `tail` are the parts of `t` before `a` and from `a` on. -/
structure Cut (t : Stretch decode) (a : Address) (head tail : Stretch decode) : Prop where
  /-- The instructions are divided. -/
  insns : t.insns = head.insns ++ tail.insns
  /-- The first part begins where the whole did. -/
  head_entry : head.entry = t.entry
  /-- The first part ends at the cut. -/
  head_stop : head.stop = a
  /-- Control can go on from the first part. -/
  head_failure : head.failure = none
  /-- The second part begins at the cut. -/
  tail_entry : tail.entry = a
  /-- The second part ends where the whole did. -/
  tail_stop : tail.stop = t.stop
  /-- It ends for the same reason. -/
  tail_failure : tail.failure = t.failure

theorem exists_split (ha : a ∈ t.held) :
    ∃ l r, t.insns = l ++ r ∧ Chain decode t.entry l a ∧ Chain decode a r t.stop ∧
      (r = [] → t.failure ≠ none) := by
  have hc := t.chain
  rcases mem_held.1 ha with ⟨i, hi, rfl⟩ | ⟨hs, rfl⟩
  · obtain ⟨l, r, hl⟩ := List.append_of_mem hi
    rw [hl] at hc
    obtain ⟨b, hcl, hcr⟩ := Chain.append_iff.1 hc
    obtain rfl := hcr.1
    exact ⟨l, i :: r, hl, hcl, hcr, by simp⟩
  · exact ⟨t.insns, [], by simp, hc, rfl, fun _ => Option.isSome_iff_ne_none.1 hs⟩

theorem flow_of_split {l r : List Insn} (hl : t.insns = l ++ r) (hr : r = [] → t.failure ≠ none) :
    ∀ i ∈ l, i.flow = none := by
  intro i hi
  by_cases h : r = []
  · obtain ⟨f, hf⟩ := Option.ne_none_iff_exists'.1 (hr h)
    exact (t.fails hf).2 i (by rw [hl]; exact List.mem_append_left _ hi)
  · apply t.straight
    rw [hl, List.dropLast_append_of_ne_nil h]
    exact List.mem_append_left _ hi

/-- A stretch can be cut at any address that it holds, its entry apart. -/
theorem exists_cut (ha : a ∈ t.held) (hne : a ≠ t.entry) : ∃ head tail, t.Cut a head tail := by
  obtain ⟨l, r, hl, hcl, hcr, hr⟩ := exists_split ha
  have hflow := flow_of_split hl hr
  have hl₀ : l ≠ [] := by
    rintro rfl
    exact hne hcl.symm
  let head : Stretch decode := ⟨t.entry, l, a, none, hcl,
    fun i hi => hflow i (List.dropLast_subset l hi), by simp, fun h => absurd h hl₀⟩
  refine ⟨head, ⟨a, r, t.stop, t.failure, hcr, ?_, ?_, hr⟩, ⟨hl, rfl, rfl, rfl, rfl, rfl, rfl⟩⟩
  · intro i hi
    by_cases h : r = []
    · rw [h] at hi
      exact absurd hi List.not_mem_nil
    · apply t.straight
      rw [hl, List.dropLast_append_of_ne_nil h]
      exact List.mem_append_right _ hi
  · intro f hf
    refine ⟨(t.fails hf).1, fun i hi => (t.fails hf).2 i ?_⟩
    rw [hl]
    exact List.mem_append_right _ hi

namespace Cut

theorem head_open (h : t.Cut a head tail) : head.Open := by
  refine ⟨h.head_failure, flow_of_split h.insns fun hr => ?_⟩
  rw [← h.tail_failure]
  exact tail.filled hr

theorem held_eq (h : t.Cut a head tail) : t.held = head.held ++ tail.held := by
  simp [held, h.insns, h.head_failure, h.tail_failure, h.tail_stop]

theorem tail_exits (h : t.Cut a head tail) : tail.exits policy = t.exits policy := by
  by_cases hr : tail.insns = []
  · have hf := tail.filled hr
    rw [exits_of_nil hr, exits_of_failure (h.tail_failure ▸ hf)]
  · unfold exits
    rw [h.insns, List.getLast?_append_of_ne_nil _ hr, h.tail_failure, h.tail_stop]

theorem head_exits (h : t.Cut a head tail) (policy : ReturnPolicy) :
    ∃ p, head.last? = some p ∧ Falls decode p a ∧
      head.exits policy = [⟨p, .fallthrough, some a⟩] := by
  obtain ⟨p, hp, hf, he⟩ := h.head_open.exits_eq policy
  rw [h.head_stop] at hf he
  exact ⟨p, hp, hf, he⟩

theorem ne_entry (h : t.Cut a head tail) : a ≠ t.entry := by
  intro he
  have hlt := h.head_open.entry_lt
  rw [h.head_entry, h.head_stop, he] at hlt
  exact Nat.lt_irrefl _ hlt

theorem head_insns_ne_nil (h : t.Cut a head tail) : head.insns ≠ [] :=
  fun hl => head.filled hl h.head_failure

/-- A last instruction of the second part was that of the whole. -/
theorem last?_eq (h : t.Cut a head tail) (hp : tail.last? = some p) : t.last? = some p := by
  obtain ⟨i, hi, rfl⟩ := Option.map_eq_some_iff.1 hp
  rw [last?, h.insns, List.getLast?_append, hi]
  rfl

/-- No address is in both parts. -/
theorem disjoint (h : t.Cut a head tail) (hp : p ∈ head.held) : p ∉ tail.held := by
  intro ht
  have hn := t.held_nodup
  rw [h.held_eq, List.nodup_append] at hn
  exact hn.2.2 p hp p ht rfl

end Cut

/-- Control falls to every address that is held, the entry apart, from an instruction of the stretch
that is not the one that control leaves it from. -/
theorem exists_falls (policy : ReturnPolicy) (hc : c ∈ t.held) (hne : c ≠ t.entry) :
    ∃ p ∈ t.held, Falls decode p c ∧ ∀ x ∈ t.exits policy, x.source ≠ p := by
  obtain ⟨head, tail, h⟩ := exists_cut hc hne
  obtain ⟨p, hp, hf, -⟩ := h.head_exits policy
  have hph := last_mem_held hp
  refine ⟨p, by rw [h.held_eq]; exact List.mem_append_left _ hph, hf, ?_⟩
  rintro x hx rfl
  rw [← h.tail_exits] at hx
  exact h.disjoint hph (last_mem_held (of_mem_exits hx).1)

/-- Where control falls from an address that is held, the stretch goes on, or it is open and ends.
-/
theorem falls_cases (hp : p ∈ t.held) (hf : Falls decode p c) :
    (c ∈ t.held ∧ c ≠ t.entry) ∨ (t.Open ∧ t.last? = some p ∧ t.stop = c) := by
  obtain ⟨i, hd, hflow, hn⟩ := hf
  obtain ⟨hi, rfl⟩ := mem_insns hp hd
  obtain ⟨l, r, hl⟩ := List.append_of_mem hi
  have hc := t.chain
  rw [hl] at hc
  obtain ⟨b, hcl, hb, -, c', hn', hcr⟩ := Chain.append_iff.1 hc
  cases hn.symm.trans hn'
  have hlt := hd.lt_of_next hn
  have hge := hcl.add_length_le
  have hne : c ≠ t.entry := by
    rintro rfl
    rw [← hb] at hge
    omega
  cases r with
  | cons j js =>
    refine .inl ⟨?_, hne⟩
    rw [← hcr.1]
    exact addr_mem_held (by rw [hl]; simp)
  | nil =>
    obtain rfl : c = t.stop := hcr
    have hlast : t.last? = some i.addr := by rw [last?, hl]; simp
    rcases t.end_cases with ⟨f, hfail⟩ | ho | ⟨j, hj, flow, hj'⟩
    · exact .inl ⟨mem_held.2 (.inr ⟨by rw [hfail]; rfl, rfl⟩), hne⟩
    · exact .inr ⟨ho, hlast, rfl⟩
    · have hsame := (exits_of_flow (fun _ _ _ => true) hj hj').1
      rw [hlast, Option.some.injEq] at hsame
      have := (t.decodes hj).unique (hsame ▸ hd)
      rw [this, hflow] at hj'
      cases hj'

/-- Within a stretch control falls to an address from one instruction only. -/
theorem falls_unique {q : Address} (hp : p ∈ t.held) (hq : q ∈ t.held) (hfp : Falls decode p c)
    (hfq : Falls decode q c) : p = q := by
  -- the later one of two would lie behind `c`, but it ends there
  have key : ∀ {p q : Address}, p ∈ t.held → q ∈ t.held → Falls decode p c → Falls decode q c →
      ¬ p.toNat < q.toNat := by
    rintro p q hp hq ⟨i, hi, -, hin⟩ ⟨j, hj, -, hjn⟩ hlt
    obtain ⟨hmi, rfl⟩ := mem_insns hp hi
    obtain ⟨hmj, rfl⟩ := mem_insns hq hj
    obtain ⟨l, r, hl⟩ := List.append_of_mem hmi
    have hc := t.chain
    rw [hl] at hc hmj
    obtain ⟨b, hcl, rfl, -, c', hn, hcr⟩ := Chain.append_iff.1 hc
    cases hn.symm.trans hin
    have hjc := hj.lt_of_next hjn
    rcases List.mem_append.1 hmj with hm | hm
    · have := (hcl.addr_lt hm).2
      omega
    · rcases List.mem_cons.1 hm with rfl | hm
      · exact Nat.lt_irrefl _ hlt
      · have := (hcr.addr_lt hm).1
        omega
  have h₁ := key hp hq hfp hfq
  have h₂ := key hq hp hfq hfp
  exact UInt64.toNat_inj.1 (by omega)

/-- Two stretches from one entry are the same, unless one of them is cut off where the other goes
on. -/
theorem eq_of_entry_eq (he : t.entry = u.entry) (ht : t.Open → t.stop ∉ u.held)
    (hu : u.Open → u.stop ∉ t.held) : t = u := by
  -- a stretch that the other one goes on from is open there
  have key : ∀ {v w : Stretch decode} {i : Insn} {x : List Insn}, w.insns = v.insns ++ i :: x →
      i.addr = v.stop → v.Open ∧ v.stop ∈ w.held := by
    intro v w i x hw hi
    have hmem : i ∈ w.insns := by rw [hw]; simp
    refine ⟨⟨?_, flow_of_split hw (by simp)⟩, hi ▸ addr_mem_held hmem⟩
    by_contra hne
    obtain ⟨f, hf⟩ := Option.ne_none_iff_exists'.1 hne
    exact (v.fails hf).1.not_decodes (hi ▸ w.decodes hmem)
  rcases t.chain.compare (he ▸ u.chain) with ⟨i, x, hw, hi⟩ | ⟨i, x, hw, hi⟩ | ⟨hl, hs⟩
  · obtain ⟨ho, hm⟩ := key hw hi
    exact absurd hm (ht ho)
  · obtain ⟨ho, hm⟩ := key hw hi
    exact absurd hm (hu ho)
  · refine Stretch.ext he hl hs ?_
    cases hf : t.failure with
    | none =>
      cases hg : u.failure with
      | none => rfl
      | some g =>
        have ho : t.Open := ⟨hf, fun i hi => (u.fails hg).2 i (hl ▸ hi)⟩
        exact absurd (mem_held.2 (.inr ⟨by rw [hg]; rfl, hs⟩)) (ht ho)
    | some f =>
      cases hg : u.failure with
      | none =>
        have ho : u.Open := ⟨hg, fun i hi => (t.fails hf).2 i (hl ▸ hi)⟩
        exact absurd (mem_held.2 (.inr ⟨by rw [hf]; rfl, hs.symm⟩)) (hu ho)
      | some g => rw [(t.fails hf).1.unique (hs ▸ (u.fails hg).1)]

end Stretch

end CodeLift
