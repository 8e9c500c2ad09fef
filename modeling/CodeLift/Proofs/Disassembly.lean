import CodeLift.Disassembly.Basic
import CodeLift.Proofs.Classify
import CodeLift.Proofs.Lifting

/-!
# The built-in decoder keeps the contract of decoders

If the readings of a disassembler lie in the image, and have a length and operands that can be read,
then the decoder that works from them answers for every address and conforms to the image. Of every
instruction it is known more: the bytes are those of the image, and there is one step, or two if the
instruction transfers control, where the second one says how.
-/

namespace CodeLift

/-! ## Readings -/

/-- What is taken for granted of a reading: it has a length and lies in the image, and its last
operand is no number that cannot be negated. -/
structure Reading.Sound (r : Reading) (image : ByteArray) : Prop where
  size_pos : 1 ≤ r.size.toNat
  stop_le : r.pc.toNat + r.size.toNat ≤ image.size
  readable : ∃ v, Operands.lastImmediate (Text.lower r.operands) = .ok v

/-- The instruction `i` of the image is the one that the reading `r` is about. -/
structure Reading.Describes (r : Reading) (arch : Architecture) (image : ByteArray) (i : Insn) :
    Prop where
  /-- It lies at the offset of the reading. -/
  addr : i.addr = r.pc
  /-- It has a length. -/
  size_pos : 1 ≤ i.size.toNat
  /-- It ends within the image, and its bytes are the ones up to there. -/
  bytes : ∃ next, i.next = .ok next ∧ next.toNat ≤ image.size ∧
    i.bytes = (image.extract i.addr.toNat next.toNat).data.toList
  /-- Its control transfer is what the reading is classified as. -/
  flow : arch.classify r.pc r.mnemonic r.operands r.detail = .ok i.flow
  /-- There are one or two steps. -/
  length : i.ops.length = 1 ∨ i.ops.length = 2
  /-- The final step is marked as such, and no other one. -/
  last : ∀ k op, i.ops[k]? = some op → (op.last = true ↔ k + 1 = i.ops.length)
  /-- There are two steps just if control is transferred. -/
  two_iff : i.ops.length = 2 ↔ ∃ f, i.flow = some f
  /-- Then the second one performs the transfer, and the first one has none. -/
  control : ∀ a b, i.ops = [a, b] → a.flow = none ∧
    ∀ f, i.flow = some f → b.opcode = f.opcode ∧ b.args = (f.target.map Address.text).toList

namespace Reading

variable {r : Reading} {arch : Architecture} {image : ByteArray} {i : Insn}

theorem steps_none (r : Reading) :
    r.steps none = [{ opcode := r.mnemonic, args := Operands.split r.operands, last := true }] := rfl

theorem steps_some (r : Reading) (f : ControlFlow) :
    r.steps (some f) = [{ opcode := r.mnemonic, args := Operands.split r.operands },
      { MicroOp.control f.opcode f with last := true }] := rfl

theorem Sound.exists_insn (h : r.Sound image) (arch : Architecture) :
    ∃ i, r.insn arch image = .ok i := by
  obtain ⟨flow, hflow⟩ := arch.exists_classify r.pc r.mnemonic r.detail h.readable
  rw [insn, hflow]
  exact ⟨_, rfl⟩

theorem length_steps (r : Reading) (flow : Option ControlFlow) :
    (r.steps flow).length = if flow.isSome then 2 else 1 := by
  cases flow <;> rfl

theorem flow_steps (r : Reading) (flow : Option ControlFlow) :
    (r.steps flow).getLast?.bind (·.flow) = flow := by
  cases flow <;> rfl

theorem last_steps {flow : Option ControlFlow} {k : Nat} {op : MicroOp}
    (h : (r.steps flow)[k]? = some op) : op.last = true ↔ k + 1 = (r.steps flow).length := by
  cases flow with
  | none =>
    rw [steps_none] at h ⊢
    grind
  | some f =>
    rw [steps_some] at h ⊢
    grind [MicroOp.control]

theorem control_steps {flow : Option ControlFlow} {a b : MicroOp} (h : r.steps flow = [a, b]) :
    a.flow = none ∧ ∀ f, flow = some f →
      b.opcode = f.opcode ∧ b.args = (f.target.map Address.text).toList := by
  cases flow with
  | none =>
    rw [steps_none] at h
    cases h
  | some f =>
    rw [steps_some] at h
    cases h
    refine ⟨rfl, ?_⟩
    rintro _ ⟨⟩
    exact ⟨rfl, rfl⟩

theorem of_insn (h : r.insn arch image = .ok i) :
    ∃ flow, arch.classify r.pc r.mnemonic r.operands r.detail = .ok flow ∧ i.addr = r.pc ∧
      i.size = r.size ∧ i.ops = r.steps flow ∧
      i.bytes = (image.extract r.pc.toNat (r.pc.toNat + r.size.toNat)).data.toList := by
  obtain ⟨flow, hflow, he⟩ := bind_eq_ok.1 h
  cases he
  exact ⟨flow, hflow, rfl, rfl, rfl, rfl⟩

theorem Sound.describes (h : r.Sound image) (hfit : image.size < Address.count)
    (hi : r.insn arch image = .ok i) : r.Describes arch image i := by
  obtain ⟨flow, hclass, haddr, hsize, hops, hbytes⟩ := of_insn hi
  have hle := h.stop_le
  have hflow : i.flow = flow := by rw [Insn.flow, hops, flow_steps]
  obtain ⟨next, hn⟩ := i.exists_next (by rw [haddr, hsize]; omega)
  have hnext : next.toNat = r.pc.toNat + r.size.toNat := by
    rw [Insn.toNat_of_next hn, haddr, hsize]
  refine ⟨haddr, hsize ▸ h.size_pos, ⟨next, hn, hnext ▸ hle, ?_⟩, hflow ▸ hclass, ?_, ?_, ?_, ?_⟩
  · rw [hbytes, haddr, hnext]
  · rw [hops, length_steps]
    split <;> simp
  · rw [hops]
    exact fun k op => last_steps
  · rw [hops, hflow, length_steps]
    cases flow <;> simp
  · rw [hops, hflow]
    exact fun a b => control_steps

end Reading

/-! ## The decoder -/

namespace Disassembly

variable {readings : Disassembly} {arch : Architecture} {image : ByteArray} {pc : Address}
  {r : Reading}

/-- The reading for an offset, if there is one. -/
def reading? (readings : Disassembly) (pc : Address) : Option Reading :=
  readings.find? (·.pc == pc)

/-- The readings for offsets of the image are sound. -/
def Sound (readings : Disassembly) (image : ByteArray) : Prop :=
  ∀ pc r, pc.toNat < image.size → readings.reading? pc = some r → r.Sound image

theorem pc_of_reading? (h : readings.reading? pc = some r) : r.pc = pc := by
  have hp := List.find?_some h
  exact beq_iff_eq.1 hp

/-- What the decoder answers for `pc`. -/
structure Answers (readings : Disassembly) (arch : Architecture) (image : ByteArray)
    (pc : Address) (d : Decoded) : Prop where
  /-- Just the offsets behind the image are out of range. -/
  outOfRange_iff : d = .error (.outOfRange pc) ↔ image.size ≤ pc.toNat
  /-- Every failure is about the offset. -/
  failure : ∀ f, d = .error f → f.address = pc
  /-- There is an instruction just if there is a reading. -/
  ok_iff : (∃ i, d = .ok i) ↔ pc.toNat < image.size ∧ ∃ r, readings.reading? pc = some r
  /-- It lies at the offset and is the one that the reading is about. -/
  insn : ∀ i, d = .ok i → i.addr = pc ∧
    ∃ r, readings.reading? pc = some r ∧ r.Describes arch image i

theorem decodeOne_of_le (h : image.size ≤ pc.toNat) :
    (decoder arch readings).decodeOne image pc = .ok (.error (.outOfRange pc)) :=
  if_pos h

theorem decodeOne_of_none (hlt : pc.toNat < image.size) (hr : readings.reading? pc = none) :
    (decoder arch readings).decodeOne image pc =
      .ok (.error (.invalid pc "unrecognized encoding")) := by
  unfold reading? at hr
  simp [decoder, Nat.not_le.2 hlt, hr]

theorem decodeOne_of_some (hlt : pc.toNat < image.size) (hr : readings.reading? pc = some r)
    (hs : 1 ≤ r.size.toNat) :
    (decoder arch readings).decodeOne image pc = .ok <$> r.insn arch image := by
  have hne : r.size ≠ 0 := by
    intro h0
    rw [h0] at hs
    exact absurd hs (by decide)
  unfold reading? at hr
  simp [decoder, Nat.not_le.2 hlt, hr, hne]

theorem exists_answer (hfit : image.size < Address.count) (hs : readings.Sound image)
    (arch : Architecture) (pc : Address) :
    ∃ d, (decoder arch readings).decodeOne image pc = .ok d ∧ readings.Answers arch image pc d := by
  by_cases hle : image.size ≤ pc.toNat
  · refine ⟨_, decodeOne_of_le hle, ?_, ?_, ?_, ?_⟩
    · simp [hle]
    · rintro f ⟨⟩
      rfl
    · simp [hle]
    · rintro i ⟨⟩
  · have hlt := Nat.lt_of_not_le hle
    cases hr : readings.reading? pc with
    | none =>
      refine ⟨_, decodeOne_of_none hlt hr, ?_, ?_, ?_, ?_⟩
      · simp [hlt]
      · rintro f ⟨⟩
        rfl
      · simp [hr]
      · rintro i ⟨⟩
    | some r =>
      have hsound := hs pc r hlt hr
      obtain ⟨i, hi⟩ := hsound.exists_insn arch
      have hd := hsound.describes hfit hi
      refine ⟨.ok i, ?_, ?_, ?_, ?_, ?_⟩
      · rw [decodeOne_of_some hlt hr hsound.size_pos, hi]
        rfl
      · simp [hlt]
      · rintro f ⟨⟩
      · simp [hlt, hr]
      · rintro _ ⟨⟩
        exact ⟨hd.addr.trans (pc_of_reading? hr), r, hr, hd⟩

theorem Answers.proper {d : Decoded} (h : readings.Answers arch image pc d) :
    d.Proper image.size pc := by
  cases d with
  | error f => exact h.failure f rfl
  | ok i =>
    obtain ⟨ha, r, -, hd⟩ := h.insn i rfl
    obtain ⟨next, hn, hle, -⟩ := hd.bytes
    refine ⟨ha, ?_⟩
    rw [← ha, ← Insn.toNat_of_next hn]
    exact hle

end Disassembly

namespace Sample

/-- The readings of two instructions of RISC-V, of which the second one may go back to the first. -/
def readings : Disassembly :=
  [{ pc := 0, size := 2, mnemonic := "c.nop", operands := "", detail := ⟨[], []⟩ },
    { pc := 2, size := 2, mnemonic := "bnez", operands := "a0, -2", detail := ⟨[.jump], []⟩ }]

theorem readings_sound : readings.Sound image := by
  intro pc r _ hr
  have hm := List.mem_of_find?_eq_some hr
  simp only [readings, List.mem_cons, List.not_mem_nil, or_false] at hm
  rcases hm with rfl | rfl
  · exact ⟨by decide, by decide, none, by decide +kernel⟩
  · exact ⟨by decide, by decide, some (-2), by decide +kernel⟩

end Sample

namespace Disassembly

variable {readings : Disassembly} {image : ByteArray}

/-- From sound readings, the built-in decoder of an architecture answers for every address, and it
conforms to the image. -/
theorem decoder_meets_contract (hfit : image.size < Address.count) (hs : readings.Sound image)
    (arch : Architecture) :
    Conforms ((decoder arch readings).decodeOne image) image.size ∧
      ∀ pc, ∃ d, (decoder arch readings).decodeOne image pc = .ok d ∧
        readings.Answers arch image pc d := by
  have hanswer := exists_answer hfit hs arch
  refine ⟨conforms_of_proper fun pc => ?_, hanswer⟩
  obtain ⟨d, hd, ha⟩ := hanswer pc
  exact ⟨d, hd, ha.proper⟩

theorem decoder_meets_contract_sample :
    Sample.image.size < Address.count ∧ Sample.readings.Sound Sample.image ∧
      Conforms ((decoder .riscv64 Sample.readings).decodeOne Sample.image) Sample.image.size ∧
      ∃ d, (decoder .riscv64 Sample.readings).decodeOne Sample.image 2 = .ok d ∧
        Sample.readings.Answers .riscv64 Sample.image 2 d ∧ ∃ i, d = .ok i := by
  have hfit : Sample.image.size < Address.count := by decide
  obtain ⟨hc, ha⟩ := decoder_meets_contract hfit Sample.readings_sound .riscv64
  obtain ⟨d, hd, ha⟩ := ha 2
  exact ⟨hfit, Sample.readings_sound, hc, d, hd, ha, ha.ok_iff.2 ⟨by decide, _, rfl⟩⟩

end Disassembly

end CodeLift
