import CodeLift.Scan
import Mathlib.Data.Set.Subsingleton

/-!
# The code of a region and what can be reached in it

A decoder, asked for the instructions of one region, is a function from addresses to answers. This
module says what such a function has to promise, which addresses it decodes, and which addresses
control can get to from an entry.

`Reach` is the least set that holds the entry and follows control: on to the next address after an
instruction without a transfer, and to the targets in the region after one with a transfer. It knows
nothing of blocks, of the order in which code is found, or of a limit on the length of a block.
-/

namespace CodeLift

/-! ## Answers of a decoder -/

section Answers

variable (decode : Address → Except Fault Decoded)

/-- The instruction `i` is found at `pc`, and it is a proper one: it has bytes and it has steps. -/
def Decodes (pc : Address) (i : Insn) : Prop :=
  decode pc = .ok (.ok i) ∧ i.size ≠ 0 ∧ i.ops ≠ []

/-- No proper instruction is found at `pc`, because of `f`. -/
def FailsWith (pc : Address) (f : DecodeFailure) : Prop :=
  decode pc = .ok (.error f) ∨
    ∃ i, decode pc = .ok (.ok i) ∧ i.isEmpty = true ∧ f = .invalid pc "empty instruction"

/-- The decoder always answers, and an instruction that it finds lies where it was asked for, within
the region of `size` bytes. -/
structure Fits (size : Nat) : Prop where
  /-- There is an answer for every address. -/
  answers : ∀ pc, ∃ d, decode pc = .ok d
  /-- An instruction lies at the address that was asked for. -/
  addr_eq : ∀ {pc i}, decode pc = .ok (.ok i) → i.addr = pc
  /-- It ends within the region. -/
  stop_le : ∀ {pc i}, decode pc = .ok (.ok i) → pc.toNat + i.size.toNat ≤ size

/-- Failures, too, are about the address that was asked for. -/
structure Conforms (size : Nat) : Prop extends Fits decode size where
  /-- A failure names the address that was asked for. -/
  failure_address : ∀ {pc f}, decode pc = .ok (.error f) → f.address = pc

end Answers

section Facts

variable {decode : Address → Except Fault Decoded} {pc : Address} {i j : Insn}

theorem Decodes.unique (hi : Decodes decode pc i) (hj : Decodes decode pc j) : i = j := by
  have h := hi.1.symm.trans hj.1
  cases h
  rfl

theorem FailsWith.unique {f g : DecodeFailure} (hf : FailsWith decode pc f)
    (hg : FailsWith decode pc g) : f = g := by
  rcases hf with hf | ⟨i, hi, -, rfl⟩ <;> rcases hg with hg | ⟨j, hj, -, rfl⟩
  · have h := hf.symm.trans hg
    cases h
    rfl
  · exact absurd (hf.symm.trans hj) (by simp)
  · exact absurd (hi.symm.trans hg) (by simp)
  · rfl

theorem Decodes.not_isEmpty (h : Decodes decode pc i) : i.isEmpty = false := by
  simp [Insn.isEmpty, h.2.1, h.2.2]

theorem FailsWith.not_decodes {f : DecodeFailure} (hf : FailsWith decode pc f) :
    ¬ Decodes decode pc i := by
  intro hi
  rcases hf with hf | ⟨j, hj, he, -⟩
  · exact absurd (hf.symm.trans hi.1) (by simp)
  · have h := hj.symm.trans hi.1
    cases h
    rw [hi.not_isEmpty] at he
    exact Bool.false_ne_true he

/-- A decoder that answers finds an instruction or fails. -/
theorem decodes_or_fails {d : Decoded} (hd : decode pc = .ok d) :
    (∃ i, Decodes decode pc i) ∨ ∃ f, FailsWith decode pc f := by
  cases d with
  | error f => exact .inr ⟨f, .inl hd⟩
  | ok i =>
    by_cases he : i.isEmpty = true
    · exact .inr ⟨_, .inr ⟨i, hd, he, rfl⟩⟩
    · refine .inl ⟨i, hd, ?_, ?_⟩
      · intro hs; simp [Insn.isEmpty, hs] at he
      · intro ho; simp [Insn.isEmpty, ho] at he

theorem Fits.decodes_or_fails {size : Nat} (h : Fits decode size) (pc : Address) :
    (∃ i, Decodes decode pc i) ∨ ∃ f, FailsWith decode pc f := by
  obtain ⟨d, hd⟩ := h.answers pc
  exact CodeLift.decodes_or_fails hd

/-- The failure at an address names that address, also if it is an empty instruction. -/
theorem Conforms.address_eq {size : Nat} (h : Conforms decode size) {f : DecodeFailure}
    (hf : FailsWith decode pc f) : f.address = pc := by
  rcases hf with hf | ⟨i, -, -, rfl⟩
  · exact h.failure_address hf
  · rfl

theorem Scanner.decodeProper_of_decodes {s : Scanner} (h : Decodes s.decode pc i) :
    s.decodeProper pc = .ok (.ok i) := by
  simp [decodeProper, h.1, h.not_isEmpty, bind, Except.bind, pure, Except.pure]

theorem Scanner.decodeProper_of_fails {s : Scanner} {f : DecodeFailure}
    (h : FailsWith s.decode pc f) : s.decodeProper pc = .ok (.error f) := by
  rcases h with h | ⟨i, h, he, rfl⟩
  · simp [decodeProper, h, bind, Except.bind, pure, Except.pure]
  · simp [decodeProper, h, he, bind, Except.bind, pure, Except.pure]

/-! ## The address after an instruction -/

theorem Insn.toNat_of_next {n : Address} (h : i.next = .ok n) :
    n.toNat = i.addr.toNat + i.size.toNat := by
  unfold next Address.advance at h
  split at h
  · next hlt =>
    cases h
    rw [UInt64.toNat_add, UInt8.toNat_toUInt64]
    exact Nat.mod_eq_of_lt hlt
  · cases h

theorem Decodes.lt_of_next {n : Address} (h : Decodes decode pc i) (hn : i.next = .ok n) :
    i.addr.toNat < n.toNat := by
  have hs : i.size.toNat ≠ 0 := fun h0 => h.2.1 (UInt8.toNat_inj.1 h0)
  rw [Insn.toNat_of_next hn]
  omega

theorem Insn.exists_next (h : i.addr.toNat + i.size.toNat < Address.count) :
    ∃ n, i.next = .ok n := by
  rw [next, Address.advance, if_pos h]
  exact ⟨_, rfl⟩

/-- In a region that the address space can hold, every instruction has a next address. -/
theorem Fits.exists_next {size : Nat} (h : Fits decode size) (hsize : size < Address.count)
    (hi : Decodes decode pc i) : ∃ n, i.next = .ok n ∧ n.toNat ≤ size := by
  have ha := h.addr_eq hi.1
  have hle := h.stop_le hi.1
  obtain ⟨n, hn⟩ := i.exists_next (by rw [ha]; omega)
  refine ⟨n, hn, ?_⟩
  rw [Insn.toNat_of_next hn, ha]
  exact hle

theorem Fits.lt_size {size : Nat} (h : Fits decode size) (hi : Decodes decode pc i) :
    pc.toNat < size := by
  have hle := h.stop_le hi.1
  have hs : i.size.toNat ≠ 0 := fun h0 => hi.2.1 (UInt8.toNat_inj.1 h0)
  omega

end Facts

/-! ## Scripted decoders -/

/-- The answer for an address is one that a conforming decoder may give in a region of `size` bytes.
-/
def Decoded.Proper (size : Nat) (pc : Address) : Decoded → Prop
  | .ok i => i.addr = pc ∧ pc.toNat + i.size.toNat ≤ size
  | .error f => f.address = pc

instance (size : Nat) (pc : Address) : DecidablePred (Decoded.Proper size pc)
  | .ok i => inferInstanceAs (Decidable (i.addr = pc ∧ pc.toNat + i.size.toNat ≤ size))
  | .error f => inferInstanceAs (Decidable (f.address = pc))

theorem mem_of_getElem?_ofList {l : List (Address × Decoded)} {pc : Address} {d : Decoded}
    (h : (Std.TreeMap.ofList l)[pc]? = some d) : (pc, d) ∈ l := by
  rw [Std.TreeMap.ofList_eq_insertMany_empty, Std.TreeMap.getElem?_insertMany_list,
    Std.TreeMap.getElem?_emptyc, Option.or_none, List.findSomeRev?_eq_findSome?_reverse] at h
  obtain ⟨⟨a, b⟩, he, hif⟩ := List.exists_of_findSome?_eq_some h
  simp only [Std.LawfulEqOrd.compare_eq_iff_eq] at hif
  split at hif
  · next ha =>
    cases hif
    exact ha ▸ List.mem_reverse.1 he
  · cases hif

theorem conforms_of_proper {decode : Address → Except Fault Decoded} {size : Nat}
    (h : ∀ pc, ∃ d, decode pc = .ok d ∧ d.Proper size pc) : Conforms decode size := by
  have hproper : ∀ {pc d}, decode pc = .ok d → d.Proper size pc := by
    intro pc d hd
    obtain ⟨e, he, hp⟩ := h pc
    cases hd.symm.trans he
    exact hp
  have hfits : Fits decode size :=
    ⟨fun pc => (h pc).imp fun _ hd => hd.1, fun hd => (hproper hd).1, fun hd => (hproper hd).2⟩
  exact ⟨hfits, fun hd => hproper hd⟩

/-- A scripted decoder conforms if its table does. -/
theorem Decoder.scripted_conforms {table : List (Address × Decoded)} {image : ByteArray}
    (h : ∀ e ∈ table, e.2.Proper image.size e.1) :
    Conforms ((Decoder.scripted table).decodeOne image) image.size := by
  refine conforms_of_proper fun pc => ⟨_, rfl, ?_⟩
  split
  · next decoded ha => exact h _ (mem_of_getElem?_ofList ha)
  · split <;> rfl

/-! ## Following control -/

section Following

variable (decode : Address → Except Fault Decoded) (policy : ReturnPolicy)

/-- The instruction at `a` has no transfer and control goes on to `b`, the next address. -/
def Falls (a b : Address) : Prop :=
  ∃ i, Decodes decode a i ∧ i.flow = none ∧ i.next = .ok b

/-- The instruction at `a` has a transfer, and `b` is the target of one of its exits. -/
def Transfers (a b : Address) : Prop :=
  ∃ i flow next x, Decodes decode a i ∧ i.flow = some flow ∧ i.next = .ok next ∧
    x ∈ exitsFor policy flow a next ∧ x.target = some b

variable (size : Nat) (entry : Address)

/-- The addresses that control can get to from `entry` in a region of `size` bytes. -/
inductive Reach : Address → Prop where
  /-- Control starts at the entry. -/
  | entry : Reach entry
  /-- Control goes on after an instruction without a transfer, also out of the region. -/
  | falls {a b : Address} (ha : Reach a) (h : Falls decode a b) : Reach b
  /-- Control goes to a target in the region. -/
  | transfers {a b : Address} (ha : Reach a) (h : Transfers decode policy a b)
      (hb : b.toNat < size) : Reach b

/-- The reachable instructions from which control falls to `c`. -/
def Before (c : Address) : Set Address := {p | Reach decode policy size entry p ∧ Falls decode p c}

/-- Some reachable instruction transfers control to `c`. -/
def Targeted (c : Address) : Prop :=
  ∃ p, Reach decode policy size entry p ∧ Transfers decode policy p c

/-- Where blocks have to begin: at the entry, at the targets in the region, and where control comes
together that falls from two instructions. At a target outside the region a block begins only if
control also falls to it. -/
def leaders : Set Address :=
  {entry} ∪ {c | c.toNat < size ∧ Targeted decode policy size entry c} ∪
    {c | (Before decode policy size entry c).Nontrivial} ∪
    {c | size ≤ c.toNat ∧ Targeted decode policy size entry c ∧
      (Before decode policy size entry c).Nonempty}

variable {decode policy size entry}

theorem Falls.exists_insn {a b : Address} (h : Falls decode a b) : ∃ i, Decodes decode a i := by
  obtain ⟨i, hi, -⟩ := h
  exact ⟨i, hi⟩

theorem Transfers.exists_insn {a b : Address} (h : Transfers decode policy a b) :
    ∃ i, Decodes decode a i := by
  obtain ⟨i, flow, next, x, hi, -⟩ := h
  exact ⟨i, hi⟩

theorem mem_leaders {c : Address} : c ∈ leaders decode policy size entry ↔
    c = entry ∨ (c.toNat < size ∧ Targeted decode policy size entry c) ∨
      (Before decode policy size entry c).Nontrivial ∨
      (size ≤ c.toNat ∧ Targeted decode policy size entry c ∧
        (Before decode policy size entry c).Nonempty) := by
  simp only [leaders, Set.mem_union, Set.mem_singleton_iff, Set.mem_ofPred_eq, or_assoc]

/-- A target to which control also falls is a leader, in the region or not. -/
theorem mem_leaders_of_targeted {c : Address} (ht : Targeted decode policy size entry c)
    (hb : (Before decode policy size entry c).Nonempty) : c ∈ leaders decode policy size entry := by
  rw [mem_leaders]
  by_cases hc : c.toNat < size
  · exact .inr (.inl ⟨hc, ht⟩)
  · exact .inr (.inr (.inr ⟨Nat.le_of_not_lt hc, ht, hb⟩))

end Following

end CodeLift
