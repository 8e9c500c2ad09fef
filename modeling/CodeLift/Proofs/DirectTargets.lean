import CodeLift.Proofs.Classify

/-!
# Where direct transfers go

A classification that has a target has it from the operands. Which operand that is, and how its
signed value becomes an address, differs between architectures: `Architecture.NamesTarget` says it
in terms of numbers. If the operands name no target, the transfer is indirect, or there is none.
-/

namespace CodeLift

/-! ## Signed numbers as addresses -/

namespace Address

theorem toNat_ofInt (v : Int) : ((ofInt v).toNat : Int) = v % count := by
  have hcount : (2 : Int) ^ 64 = count := rfl
  have hnonneg : 0 ≤ v % (count : Int) := Int.emod_nonneg v (by decide)
  have hlt : v % (count : Int) < count := Int.emod_lt_of_pos v (by decide)
  unfold ofInt UInt64.ofInt
  rw [hcount, UInt64.toNat_ofNat', Int.natCast_emod, Int.toNat_of_nonneg hnonneg]
  exact Int.emod_eq_of_lt hnonneg hlt

theorem toNat_ofInt_emod {width : Int} (hpos : 0 < width) (hle : width ≤ count) (v : Int) :
    ((ofInt (v % width)).toNat : Int) = v % width := by
  have hnonneg : 0 ≤ v % width := Int.emod_nonneg v (by omega)
  have hlt : v % width < width := Int.emod_lt_of_pos v hpos
  rw [toNat_ofInt]
  exact Int.emod_eq_of_lt hnonneg (by omega)

theorem toNat_add_ofInt (pc : Address) (offset : Int) :
    ((pc + ofInt offset).toNat : Int) = (pc.toNat + offset) % count := by
  have hcount : ((2 ^ 64 : Nat) : Int) = count := rfl
  rw [UInt64.toNat_add, Int.natCast_emod, Int.natCast_add, toNat_ofInt, hcount, Int.add_emod_emod]

/-- An address that is made from a signed number, told by its own number. -/
theorem map_eq_some_iff {make : Int → Address} {value : Int → Int}
    (h : ∀ v, ((make v).toNat : Int) = value v) {o : Option Int} {t : Address} :
    o.map make = some t ↔ ∃ v, o = some v ∧ (t.toNat : Int) = value v := by
  rw [Option.map_eq_some_iff]
  constructor
  · rintro ⟨v, hv, rfl⟩
    exact ⟨v, hv, h v⟩
  · rintro ⟨v, hv, ht⟩
    refine ⟨v, hv, ?_⟩
    have hnat : ((make v).toNat : Int) = t.toNat := (h v).trans ht.symm
    exact UInt64.toNat_inj.1 (Int.ofNat_inj.1 hnat)

end Address

/-! ## What is offered -/

namespace ControlFlow

variable {target : Option Address} {t : Address} {f : ControlFlow}

theorem Offered.eq_some_of_target (h : f.Offered target) (ht : f.target = some t) :
    target = some t := by
  cases h with
  | callTo =>
    cases target with
    | none => cases ht
    | some u => exact ht
  | jumpTo =>
    cases target with
    | none => cases ht
    | some u => exact ht
  | condJump hu => exact hu.trans ht
  | ret => cases ht
  | indirectJump => cases ht
  | indirectCall => cases ht

theorem Offered.cases_of_none (h : f.Offered none) :
    f = .ret ∨ f = .indirectJump ∨ f = .indirectCall := by
  cases h with
  | callTo => exact .inr (.inr rfl)
  | jumpTo => exact .inr (.inl rfl)
  | condJump hu => cases hu
  | ret => exact .inl rfl
  | indirectJump => exact .inr (.inl rfl)
  | indirectCall => exact .inr (.inr rfl)

end ControlFlow

/-! ## Classification -/

namespace Architecture

variable {arch : Architecture} {pc t : Address} {mnemonic operands : String} {detail : Detail}

/-- The operands name `t` as the target of a direct transfer at `pc`. It is the last immediate as an
unsigned number of 64 bits, on 32-bit ARM of 32 bits; on the other architectures it is the last
operand of the text, which RISC-V counts from the instruction itself. -/
def NamesTarget (arch : Architecture) (pc : Address) (operands : String) (detail : Detail)
    (t : Address) : Prop :=
  match arch with
  | x86 | x64 | aarch64 =>
    ∃ v, detail.immediates.getLast? = some v ∧ (t.toNat : Int) = v % Address.count
  | arm | thumb =>
    ∃ v, detail.immediates.getLast? = some v ∧ (t.toNat : Int) = v % 0x100000000
  | mips32 | ppc32 =>
    ∃ v, Operands.lastImmediate operands = .ok (some v) ∧ (t.toNat : Int) = v % Address.count
  | riscv32 | riscv64 =>
    ∃ v, Operands.lastImmediate operands = .ok (some v) ∧
      (t.toNat : Int) = (pc.toNat + v) % Address.count

theorem lastImmediate_map_iff {make : Int → Address} {value : Int → Int}
    (h : ∀ v, ((make v).toNat : Int) = value v) :
    (do return (← Operands.lastImmediate operands).map make : Except Fault (Option Address)) =
        .ok (some t) ↔
      ∃ v, Operands.lastImmediate operands = .ok (some v) ∧ (t.toNat : Int) = value v := by
  rw [bind_eq_ok]
  constructor
  · rintro ⟨o, ho, hmap⟩
    obtain ⟨v, rfl, hv⟩ := (Address.map_eq_some_iff h).1 (Except.ok.inj hmap)
    exact ⟨v, ho, hv⟩
  · rintro ⟨v, ho, hv⟩
    exact ⟨some v, ho, congrArg Except.ok ((Address.map_eq_some_iff h).2 ⟨v, rfl, hv⟩)⟩

theorem immediateTarget_eq_some_iff :
    arch.immediateTarget pc operands detail = .ok (some t) ↔
      arch.NamesTarget pc operands detail t := by
  have himm {make : Int → Address} {value : Int → Int}
      (h : ∀ v, ((make v).toNat : Int) = value v) :
      (.ok (detail.immediates.getLast?.map make) : Except Fault (Option Address)) = .ok (some t) ↔
        ∃ v, detail.immediates.getLast? = some v ∧ (t.toNat : Int) = value v := by
    rw [Except.ok.injEq, Address.map_eq_some_iff h]
  cases arch with
  | x86 => exact himm Address.toNat_ofInt
  | x64 => exact himm Address.toNat_ofInt
  | aarch64 => exact himm Address.toNat_ofInt
  | arm => exact himm (Address.toNat_ofInt_emod (by decide) (by decide))
  | thumb => exact himm (Address.toNat_ofInt_emod (by decide) (by decide))
  | mips32 => exact lastImmediate_map_iff Address.toNat_ofInt
  | ppc32 => exact lastImmediate_map_iff Address.toNat_ofInt
  | riscv32 => exact lastImmediate_map_iff (Address.toNat_add_ofInt pc)
  | riscv64 => exact lastImmediate_map_iff (Address.toNat_add_ofInt pc)

theorem immediateTarget_of_target {f : ControlFlow}
    (h : arch.classify pc mnemonic operands detail = .ok (some f)) (ht : f.target = some t) :
    arch.immediateTarget pc (Text.lower operands) detail = .ok (some t) := by
  rcases classify_cases h with rfl | ⟨target, himm, hoffer⟩
  · cases ht
  · rw [himm, hoffer.eq_some_of_target ht]

/-- Without a target there is a classification all the same, and it is not a direct transfer. -/
theorem classify_of_immediateTarget_none
    (h : arch.immediateTarget pc (Text.lower operands) detail = .ok none) :
    ∃ flow, arch.classify pc mnemonic operands detail = .ok flow ∧
      flow ∈ [none, some .halt, some .ret, some .indirectJump, some .indirectCall] := by
  have hok : ∃ flow, arch.classify pc mnemonic operands detail = .ok flow := by
    unfold classify
    simp only [h]
    split
    · exact ⟨_, rfl⟩
    · exact ⟨_, rfl⟩
  obtain ⟨flow, hflow⟩ := hok
  refine ⟨flow, hflow, ?_⟩
  cases flow with
  | none => exact List.mem_cons_self
  | some f =>
    rcases classify_cases hflow with rfl | ⟨target, himm, hoffer⟩
    · simp
    · cases himm.symm.trans h
      rcases hoffer.cases_of_none with rfl | rfl | rfl <;> simp

/-- A target is never made up. A jump, a conditional jump or a call of a known address goes where
the operands say, and if they say nothing, the transfer is indirect or there is none. -/
theorem static_targets_from_operands (arch : Architecture) (pc : Address)
    (mnemonic operands : String) (detail : Detail) :
    (∀ f t, arch.classify pc mnemonic operands detail = .ok (some f) → f.target = some t →
      arch.immediateTarget pc (Text.lower operands) detail = .ok (some t) ∧
        arch.NamesTarget pc (Text.lower operands) detail t) ∧
      (arch.immediateTarget pc (Text.lower operands) detail = .ok none →
        ∃ flow, arch.classify pc mnemonic operands detail = .ok flow ∧
          flow ∈ [none, some .halt, some .ret, some .indirectJump, some .indirectCall]) := by
  refine ⟨?_, classify_of_immediateTarget_none⟩
  intro f t h ht
  have htarget := immediateTarget_of_target h ht
  exact ⟨htarget, immediateTarget_eq_some_iff.1 htarget⟩

/-- A branch back over the start of the region, and a return through a register. -/
theorem static_targets_from_operands_riscv :
    riscv64.classify 4 "BNEZ" "A0, -0x8" ⟨[], []⟩ = .ok (some (.condJump 0xfffffffffffffffc)) ∧
      riscv64.NamesTarget 4 (Text.lower "A0, -0x8") ⟨[], []⟩ 0xfffffffffffffffc ∧
      riscv64.immediateTarget 4 (Text.lower "RA") ⟨[], []⟩ = .ok none ∧
      ∃ flow, riscv64.classify 4 "C.JR" "RA" ⟨[], []⟩ = .ok flow ∧
        flow ∈ [none, some .halt, some .ret, some .indirectJump, some .indirectCall] := by
  have hbranch : riscv64.classify 4 "BNEZ" "A0, -0x8" ⟨[], []⟩ =
      .ok (some (.condJump 0xfffffffffffffffc)) := by decide
  have hreturn : riscv64.immediateTarget 4 (Text.lower "RA") ⟨[], []⟩ = .ok none := by decide
  have hnamed :=
    (static_targets_from_operands riscv64 4 "BNEZ" "A0, -0x8" ⟨[], []⟩).1 _ _ hbranch rfl
  have hindirect := (static_targets_from_operands riscv64 4 "C.JR" "RA" ⟨[], []⟩).2 hreturn
  exact ⟨hbranch, hnamed.2, hreturn, hindirect⟩

end Architecture

end CodeLift
