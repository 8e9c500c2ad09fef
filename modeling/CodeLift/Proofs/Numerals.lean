import CodeLift.Text.Number
import Mathlib.Data.List.Induction

/-!
# Numerals

What the readers of numbers accept, stated as a grammar. A numeral (`Text.Numeral`) is a run of
digits, at least one, whose value grows by one digit at a time; a signed numeral has at most one
sign in front of it. For bases up to sixteen the readers find exactly the values that the grammar
gives, and the digits that numbers are written with are numerals.
-/

namespace CodeLift.Text

variable {base n d : Nat} {c : Char} {cs : List Char} {v : Int}

/-! ## Digits -/

/-- `c` is the digit for `d`, which may be a capital letter. -/
def IsDigit (base : Nat) (c : Char) (d : Nat) : Prop :=
  d < base ∧ (c = Nat.digitChar d ∨ c = (Nat.digitChar d).toUpper)

theorem toNat_digitChar : ∀ d < 16,
    (Nat.digitChar d).toNat = (if d < 10 then d + 48 else d + 87) ∧
      (Nat.digitChar d).toUpper.toNat = if d < 10 then d + 48 else d + 55 := by
  decide

theorem isDigit_iff (hle : base ≤ 16) :
    IsDigit base c d ↔ d < base ∧
      (d < 10 ∧ c.toNat = d + 48 ∨ 10 ≤ d ∧ (c.toNat = d + 87 ∨ c.toNat = d + 55)) := by
  refine and_congr_right fun hd => ?_
  obtain ⟨hlower, hupper⟩ := toNat_digitChar d (by omega)
  rw [← Char.toNat_inj, ← Char.toNat_inj, hlower, hupper]
  by_cases hten : d < 10
  · rw [if_pos hten, if_pos hten]
    omega
  · rw [if_neg hten, if_neg hten]
    omega

theorem digitValue?_eq_some_iff (hle : base ≤ 16) :
    digitValue? base c = some d ↔ IsDigit base c d := by
  have hrange (lo hi : Char) : (decide (lo ≤ c) && decide (c ≤ hi)) = true ↔
      lo.toNat ≤ c.toNat ∧ c.toNat ≤ hi.toNat := by
    rw [Bool.and_eq_true, decide_eq_true_eq, decide_eq_true_eq]
    rfl
  have h0 : '0'.toNat = 48 := rfl
  have h9 : '9'.toNat = 57 := rfl
  have ha : 'a'.toNat = 97 := rfl
  have hz : 'z'.toNat = 122 := rfl
  have hA : 'A'.toNat = 65 := rfl
  have hZ : 'Z'.toNat = 90 := rfl
  rw [isDigit_iff hle]
  unfold digitValue?
  simp only [hrange, Option.ite_none_right_eq_some, Option.some.injEq, h0, h9, ha, hz, hA, hZ]
  split_ifs <;> omega

theorem IsDigit.range (h : IsDigit base c d) (hle : base ≤ 16) :
    48 ≤ c.toNat ∧ c.toNat ≤ 102 := by
  obtain ⟨hd, hc⟩ := (isDigit_iff hle).1 h
  omega

/-! ## Runs of digits -/

/-- `cs` is a run of digits, at least one, that stands for `n`. -/
inductive Numeral (base : Nat) : List Char → Nat → Prop where
  | digit {c : Char} {d : Nat} (hd : IsDigit base c d) : Numeral base [c] d
  | concat {cs : List Char} {n : Nat} {c : Char} {d : Nat} (hcs : Numeral base cs n)
      (hd : IsDigit base c d) : Numeral base (cs ++ [c]) (n * base + d)

theorem readDigits_concat (base acc : Nat) (cs : List Char) (c : Char) :
    readDigits base acc (cs ++ [c]) =
      (readDigits base acc cs).bind fun n => (digitValue? base c).map (n * base + ·) := by
  induction cs generalizing acc with
  | nil => cases h : digitValue? base c <;> simp [readDigits, h]
  | cons b cs ih => simp [readDigits, ih, Option.bind_assoc]

theorem readDigits_concat_eq_some_iff (hle : base ≤ 16) {acc : Nat} :
    readDigits base acc (cs ++ [c]) = some n ↔
      ∃ m d, readDigits base acc cs = some m ∧ IsDigit base c d ∧ n = m * base + d := by
  rw [readDigits_concat, Option.bind_eq_some_iff]
  constructor
  · rintro ⟨m, hm, hmap⟩
    obtain ⟨d, hd, rfl⟩ := Option.map_eq_some_iff.1 hmap
    exact ⟨m, d, hm, (digitValue?_eq_some_iff hle).1 hd, rfl⟩
  · rintro ⟨m, d, hm, hd, rfl⟩
    exact ⟨m, hm, Option.map_eq_some_iff.2 ⟨d, (digitValue?_eq_some_iff hle).2 hd, rfl⟩⟩

theorem readNat_of_ne_nil (h : cs ≠ []) : readNat base cs = readDigits base 0 cs := by
  unfold readNat
  rw [if_neg]
  simpa using h

namespace Numeral

theorem ne_nil (h : Numeral base cs n) : cs ≠ [] := by
  cases h with
  | digit hd => exact List.cons_ne_nil _ _
  | concat hcs hd => exact List.append_ne_nil_of_right_ne_nil _ (List.cons_ne_nil _ _)

theorem range (h : Numeral base cs n) (hle : base ≤ 16) :
    ∀ c ∈ cs, 48 ≤ c.toNat ∧ c.toNat ≤ 102 := by
  induction h with
  | digit hd =>
    intro b hb
    rw [List.mem_singleton.1 hb]
    exact hd.range hle
  | concat hcs hd ih =>
    intro b hb
    rcases List.mem_append.1 hb with hb | hb
    · exact ih b hb
    · rw [List.mem_singleton.1 hb]
      exact hd.range hle

theorem head_ne_sign (h : Numeral base (c :: cs) n) (hle : base ≤ 16) : c ≠ '-' ∧ c ≠ '+' := by
  have hrange := h.range hle c List.mem_cons_self
  refine ⟨?_, ?_⟩
  · rintro rfl
    exact absurd hrange (by decide)
  · rintro rfl
    exact absurd hrange (by decide)

theorem readNat_eq (h : Numeral base cs n) (hle : base ≤ 16) : readNat base cs = some n := by
  induction h with
  | @digit c d hd =>
    have hread : readDigits base 0 ([] ++ [c]) = some (0 * base + d) :=
      (readDigits_concat_eq_some_iff hle).2 ⟨0, d, rfl, hd, rfl⟩
    rw [Nat.zero_mul, Nat.zero_add] at hread
    exact hread
  | @concat cs n c d hcs hd ih =>
    rw [readNat_of_ne_nil hcs.ne_nil] at ih
    rw [readNat_of_ne_nil (Numeral.concat hcs hd).ne_nil]
    exact (readDigits_concat_eq_some_iff hle).2 ⟨n, d, ih, hd, rfl⟩

end Numeral

theorem readNat_eq_some_iff (hle : base ≤ 16) : readNat base cs = some n ↔ Numeral base cs n := by
  refine ⟨?_, fun h => h.readNat_eq hle⟩
  intro h
  -- the reader goes from the left, a numeral grows on the right
  induction cs using List.reverseRecOn generalizing n with
  | nil => cases h
  | append_singleton cs c ih =>
    rw [readNat_of_ne_nil (by simp), readDigits_concat_eq_some_iff hle] at h
    obtain ⟨m, d, hm, hd, rfl⟩ := h
    by_cases hcs : cs = []
    · subst hcs
      obtain rfl : 0 = m := Option.some.inj hm
      rw [Nat.zero_mul, Nat.zero_add]
      exact .digit hd
    · rw [← readNat_of_ne_nil hcs] at hm
      exact .concat (ih hm) hd

theorem numeral_toDigits (hbase : 1 < base) (n : Nat) :
    Numeral base (Nat.toDigits base n) n := by
  induction n using Nat.strongRecOn with
  | ind n ih =>
    by_cases hn : n < base
    · rw [Nat.toDigits_of_lt_base hn]
      exact .digit ⟨hn, .inl rfl⟩
    · have hlast : IsDigit base (Nat.digitChar (n % base)) (n % base) :=
        ⟨Nat.mod_lt n (by omega), .inl rfl⟩
      have hstep := Numeral.concat (ih (n / base) (Nat.div_lt_self (by omega) hbase)) hlast
      rw [Nat.mul_comm, Nat.div_add_mod] at hstep
      rw [Nat.toDigits_of_base_le hbase (Nat.le_of_not_lt hn)]
      exact hstep

/-! ## Signs -/

/-- `cs` is a numeral with at most one sign in front of it, and stands for `v`. -/
inductive SignedNumeral (base : Nat) : List Char → Int → Prop where
  | bare {cs : List Char} {n : Nat} (h : Numeral base cs n) : SignedNumeral base cs n
  | plus {cs : List Char} {n : Nat} (h : Numeral base cs n) : SignedNumeral base ('+' :: cs) n
  | minus {cs : List Char} {n : Nat} (h : Numeral base cs n) : SignedNumeral base ('-' :: cs) (-n)

theorem readInt_minus_eq_some_iff :
    readInt base ('-' :: cs) = some v ↔ ∃ n : Nat, readNat base cs = some n ∧ v = -n := by
  cases h : readNat base cs <;> simp [readInt, h, eq_comm]

theorem readInt_plus_eq_some_iff :
    readInt base ('+' :: cs) = some v ↔ ∃ n : Nat, readNat base cs = some n ∧ v = n := by
  cases h : readNat base cs <;> simp [readInt, h, eq_comm]

theorem readInt_bare_eq_some_iff (hminus : c ≠ '-') (hplus : c ≠ '+') :
    readInt base (c :: cs) = some v ↔ ∃ n : Nat, readNat base (c :: cs) = some n ∧ v = n := by
  unfold readInt
  split
  · next hc => exact absurd (List.cons.inj hc).1 hminus
  · next hc => exact absurd (List.cons.inj hc).1 hplus
  · cases readNat base (c :: cs) <;> simp [eq_comm]

theorem SignedNumeral.readInt_eq (h : SignedNumeral base cs v) (hle : base ≤ 16) :
    readInt base cs = some v := by
  cases h with
  | minus hn => exact readInt_minus_eq_some_iff.2 ⟨_, hn.readNat_eq hle, rfl⟩
  | plus hn => exact readInt_plus_eq_some_iff.2 ⟨_, hn.readNat_eq hle, rfl⟩
  | bare hn =>
    cases cs with
    | nil => exact absurd rfl hn.ne_nil
    | cons c cs =>
      obtain ⟨hminus, hplus⟩ := hn.head_ne_sign hle
      exact (readInt_bare_eq_some_iff hminus hplus).2 ⟨_, hn.readNat_eq hle, rfl⟩

theorem readInt_eq_some_iff (hle : base ≤ 16) :
    readInt base cs = some v ↔ SignedNumeral base cs v := by
  refine ⟨?_, fun h => h.readInt_eq hle⟩
  intro h
  cases cs with
  | nil => cases h
  | cons c cs =>
    by_cases hminus : c = '-'
    · subst hminus
      obtain ⟨n, hn, rfl⟩ := readInt_minus_eq_some_iff.1 h
      exact .minus ((readNat_eq_some_iff hle).1 hn)
    by_cases hplus : c = '+'
    · subst hplus
      obtain ⟨n, hn, rfl⟩ := readInt_plus_eq_some_iff.1 h
      exact .plus ((readNat_eq_some_iff hle).1 hn)
    · obtain ⟨n, hn, rfl⟩ := (readInt_bare_eq_some_iff hminus hplus).1 h
      exact .bare ((readNat_eq_some_iff hle).1 hn)

theorem readSigned_eq_some_iff (hle : base ≤ 16) :
    readSigned base cs = some v ↔ SignedNumeral base cs v ∧ minSigned ≤ v ∧ v ≤ maxSigned := by
  unfold readSigned
  rw [Option.filter_eq_some_iff, readInt_eq_some_iff hle, Bool.and_eq_true, decide_eq_true_eq,
    decide_eq_true_eq]

end CodeLift.Text
