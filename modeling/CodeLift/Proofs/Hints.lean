import CodeLift.Proofs.Disassembly
import CodeLift.Proofs.Policies

/-!
# Policies that agree where the decoder is silent

A policy is asked for calls only, and told the decoder's opinion. If the decoder never has one, two
policies that agree on such calls cannot be told apart, neither by a scan nor by a round of discovery
nor by the whole of it. The built-in decoders never have one.
-/

namespace CodeLift

variable {p q : ReturnPolicy} {flow : ControlFlow}

/-- The policies say the same on every call on which the decoder has no opinion. -/
def ReturnPolicy.AgreeUnhinted (p q : ReturnPolicy) : Prop :=
  ∀ site callee, p site callee none = q site callee none

theorem ReturnPolicy.decoderHint_agree_always : decoderHint.AgreeUnhinted always :=
  fun _ _ => rfl

theorem ReturnPolicy.AgreeUnhinted.exitsFor_eq (h : p.AgreeUnhinted q) (hf : flow.hint = none)
    (pc next : Address) : exitsFor p flow pc next = exitsFor q flow pc next := by
  cases flow with
  | call target returns =>
    obtain rfl : returns = none := hf
    simp only [exitsFor, h pc]
  | indirectCall => simp only [exitsFor, h pc]
  | jump target => rfl
  | condJump target => rfl
  | ret => rfl
  | indirectJump => rfl
  | halt => rfl

/-- The decoder has no opinion on whether a call returns. -/
def Unhinted (decode : Address → Except Fault Decoded) : Prop :=
  ∀ {pc i flow}, decode pc = .ok (.ok i) → i.flow = some flow → flow.hint = none

/-! ## Scans -/

namespace Scanner

variable {s : Scanner} {known : Address → Bool} {before : List Step} {room : Nat}
  {pc entry : Address} {r : Run}

/-- The scanner with another policy. -/
def withPolicy (s : Scanner) (policy : ReturnPolicy) : Scanner := { s with policy }

theorem follow_withPolicy (s : Scanner) (policy : ReturnPolicy) (known : Address → Bool)
    (before : List Step) (room : Nat) (pc : Address) :
    (s.withPolicy policy).follow known before room pc = s.follow known before room pc := by
  induction room generalizing before pc with
  | zero =>
    unfold follow
    rfl
  | succ room ih =>
    unfold follow
    simp only [ih]
    rfl

theorem run_withPolicy (s : Scanner) (policy : ReturnPolicy) (known : Address → Bool)
    (entry : Address) : (s.withPolicy policy).run known entry = s.run known entry :=
  s.follow_withPolicy policy known [] (s.limit - 1) entry

/-- The transfer that ends a run is that of an instruction. -/
theorem hint_of_follow (hd : Unhinted s.decode) (h : s.follow known before room pc = .ok r)
    (hr : r.reason = .transfer flow) : flow.hint = none := by
  induction room using Nat.strong_induction_on generalizing before pc with
  | _ room ih =>
    rcases follow_inv h with ⟨f, -, rfl⟩ | ⟨i, next, hi, -, hcases⟩
    · cases hr
    · rcases hcases with ⟨flow', hflow, rfl⟩ | ⟨-, ⟨-, rfl⟩ | ⟨-, ⟨-, rfl⟩ | ⟨left, rfl, hleft⟩⟩⟩
      · cases hr
        exact hd hi.1 hflow
      · cases hr
      · cases hr
      · exact ih left (Nat.lt_succ_self _) hleft

/-- The policies cannot be told apart by the exits of a run. -/
theorem exits_eq_of_run (hd : Unhinted s.decode) (h : p.AgreeUnhinted q)
    (hr : s.run known entry = .ok r) : r.exits p = r.exits q := by
  unfold Run.exits
  split
  · rfl
  · split
    · next hflow => exact h.exitsFor_eq (hint_of_follow hd hr hflow) _ _
    · rfl
    · rfl
    · rfl

end Scanner

/-! ## Discovery -/

namespace Discovery

variable {s : Scanner}

theorem visit_withPolicy_eq (hd : Unhinted s.decode) (h : p.AgreeUnhinted q) (d : Discovery)
    (size : Nat) (addr : Address) :
    d.visit (s.withPolicy p) size addr = d.visit (s.withPolicy q) size addr := by
  unfold visit
  split
  · rfl
  · rfl
  · rw [s.run_withPolicy, s.run_withPolicy]
    cases hr : s.run d.map.isBoundary addr with
    | error fault => rfl
    | ok r =>
      -- the policy counts only for the exits, which are recorded, counted and followed
      have hexits : r.exits (s.withPolicy p).policy = r.exits (s.withPolicy q).policy :=
        Scanner.exits_eq_of_run hd h hr
      have hevents : (s.withPolicy p).events addr r = (s.withPolicy q).events addr r := by
        simp only [Scanner.events, hexits]
        rfl
      simp only [bind, Except.bind, record, hexits, hevents]

theorem run_withPolicy_eq (hd : Unhinted s.decode) (h : p.AgreeUnhinted q) (d : Discovery)
    (size : Nat) : d.run (s.withPolicy p) size = d.run (s.withPolicy q) size := by
  induction hn : d.potential using Nat.strong_induction_on generalizing d with
  | _ n ih =>
    cases hp : d.pop? with
    | none => rw [run_of_pop?_eq_none hp, run_of_pop?_eq_none hp]
    | some taken =>
      obtain ⟨addr, rest⟩ := taken
      have heq := visit_withPolicy_eq hd h rest size addr
      cases hv : rest.visit (s.withPolicy q) size addr with
      | error fault =>
        rw [run_of_visit_eq_error hp (heq.trans hv), run_of_visit_eq_error hp hv]
      | ok d' =>
        rw [run_of_visit_eq_ok hp (heq.trans hv), run_of_visit_eq_ok hp hv]
        exact ih _ (hn ▸ potential_lt_of_step hp hv) d' rfl

end Discovery

theorem Lifter.lift_withPolicy_eq {l : Lifter} {image : ByteArray}
    (hd : Unhinted (l.decoder.decodeOne image)) (h : p.AgreeUnhinted q) (entry : Address) :
    (l.withPolicy p).lift image entry = (l.withPolicy q).lift image entry := by
  have hrun := Discovery.run_withPolicy_eq (s := l.scanner image) hd h (.start entry) image.size
  have hdisc : Discovery.discover ((l.withPolicy p).scanner image) image.size entry =
      Discovery.discover ((l.withPolicy q).scanner image) image.size entry := hrun
  unfold lift
  rw [hdisc]
  rfl

/-! ## Built-in decoders -/

namespace Disassembly

theorem insn_of_decodeOne {arch : Architecture} {readings : Disassembly} {image : ByteArray}
    {pc : Address} {i : Insn} (h : (decoder arch readings).decodeOne image pc = .ok (.ok i)) :
    ∃ r : Reading, r.insn arch image = .ok i := by
  simp only [decoder] at h
  split at h
  · cases h
  · split at h
    · cases h
    · next r _ =>
      split at h
      · cases h
      · obtain ⟨j, hj, he⟩ := bind_eq_ok.1 h
        cases he
        exact ⟨r, hj⟩

theorem decoder_unhinted (arch : Architecture) (readings : Disassembly) (image : ByteArray) :
    Unhinted ((decoder arch readings).decodeOne image) := by
  intro pc i flow h hflow
  obtain ⟨r, hr⟩ := insn_of_decodeOne h
  obtain ⟨flow', hclass, -, -, hops, -⟩ := Reading.of_insn hr
  rw [Insn.flow, hops, Reading.flow_steps] at hflow
  exact Architecture.hint_of_classify (hflow ▸ hclass)

/-- No call is classified with an opinion on whether it returns. Therefore, with a built-in decoder,
asking for that opinion is the same as taking every call to return: all that is lifted, noted and
reported is equal, and so is the fault if there is one. -/
theorem decoderHint_lifts_as_always :
    (∀ (arch : Architecture) (pc : Address) (mnemonic operands : String) (detail : Detail)
        (target : Address) (returns : Bool),
      arch.classify pc mnemonic operands detail ≠ .ok (some (.call target (some returns)))) ∧
      ∀ (arch : Architecture) (readings : Disassembly) (config : Config) (image : ByteArray)
        (entry : Address),
        ({ decoder := decoder arch readings, policy := .decoderHint, config } : Lifter).lift image
            entry =
          ({ decoder := decoder arch readings, policy := .always, config } : Lifter).lift image
            entry := by
  refine ⟨?_, ?_⟩
  · intro arch pc mnemonic operands detail target returns h
    have hnone : some returns = none := Architecture.hint_of_classify h
    cases hnone
  · intro arch readings config image entry
    exact Lifter.lift_withPolicy_eq (l := { decoder := decoder arch readings, config })
      (decoder_unhinted arch readings image) ReturnPolicy.decoderHint_agree_always entry

end Disassembly

end CodeLift
