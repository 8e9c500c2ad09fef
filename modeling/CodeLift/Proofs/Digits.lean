import CodeLift.Address
import CodeLift.Text.Piece

/-!
# Digits can be read back

Numbers in base ten and in base sixteen are told apart by their digits, and so are addresses and
bytes by their texts. Where a decimal number stands in front of something that is not a digit, it is
also known where the number ends.
-/

namespace CodeLift

namespace Text

/-- The number that a hexadecimal digit stands for. -/
def digitValue (c : Char) : Nat :=
  if c.isDigit then c.toNat - '0'.toNat else c.toNat - 'a'.toNat + 10

theorem digitValue_digitChar : ∀ d < 16, digitValue (Nat.digitChar d) = d := by decide

theorem digitChar_inj {d e : Nat} (hd : d < 16) (he : e < 16)
    (h : Nat.digitChar d = Nat.digitChar e) : d = e := by
  rw [← digitValue_digitChar d hd, h, digitValue_digitChar e he]

theorem toDigits_inj {base m n : Nat} (hbase : 1 < base) (hle : base ≤ 16)
    (h : Nat.toDigits base m = Nat.toDigits base n) : m = n := by
  have hlast : ∀ k, k % base < 16 := fun k => Nat.lt_of_lt_of_le (Nat.mod_lt k (by omega)) hle
  -- The last digit is the remainder, and the digits before it are those of the quotient.
  induction m using Nat.strongRecOn generalizing n with
  | ind m ih =>
    have hsingle : m < base ↔ n < base := by
      have hm := Nat.length_toDigits_le_iff (n := m) hbase Nat.one_pos
      have hn := Nat.length_toDigits_le_iff (n := n) hbase Nat.one_pos
      rw [Nat.pow_one] at hm hn
      rw [← hm, ← hn, h]
    by_cases hm : m < base
    · have hn : n < base := hsingle.1 hm
      rw [Nat.toDigits_of_lt_base hm, Nat.toDigits_of_lt_base hn] at h
      exact digitChar_inj (by omega) (by omega) (List.singleton_inj.1 h)
    · have hn : ¬ n < base := fun hn => hm (hsingle.2 hn)
      rw [Nat.toDigits_of_base_le hbase (Nat.le_of_not_lt hm),
        Nat.toDigits_of_base_le hbase (Nat.le_of_not_lt hn)] at h
      obtain ⟨hinit, hchar⟩ := List.append_inj' h rfl
      have hdiv : m / base = n / base := ih (m / base) (Nat.div_lt_self (by omega) hbase) hinit
      have hmod : m % base = n % base :=
        digitChar_inj (hlast m) (hlast n) (List.singleton_inj.1 hchar)
      rw [← Nat.div_add_mod m base, hdiv, hmod, Nat.div_add_mod]

theorem hex_inj {m n : Nat} (h : hex m = hex n) : m = n := by
  have hdigits : hexDigits m = hexDigits n := by
    have hlist := congrArg String.toList h
    rw [hex, hex, String.toList_append, String.toList_append] at hlist
    exact String.toList_inj.1 (List.append_cancel_left hlist)
  exact toDigits_inj (by decide) (by decide) (String.ofList_injective hdigits)

theorem beq_of_isAlphanum {c d : Char} (hc : c.isAlphanum = true) (hd : d.isAlphanum = false) :
    (c == d) = false := by
  rw [beq_eq_false_iff_ne]
  rintro rfl
  exact absurd (hc.symm.trans hd) (by decide)

theorem isAlphanum_digitChar : ∀ d < 16, (Nat.digitChar d).isAlphanum = true := by decide

theorem isAlphanum_of_mem_toDigits {base n : Nat} {c : Char} (hbase : 1 < base) (hle : base ≤ 16)
    (h : c ∈ Nat.toDigits base n) : c.isAlphanum = true := by
  induction n using Nat.strongRecOn with
  | ind n ih =>
    by_cases hn : n < base
    · rw [Nat.toDigits_of_lt_base hn, List.mem_singleton] at h
      rw [h]
      exact isAlphanum_digitChar n (by omega)
    · rw [Nat.toDigits_of_base_le hbase (Nat.le_of_not_lt hn), List.mem_append,
        List.mem_singleton] at h
      rcases h with h | h
      · exact ih (n / base) (Nat.div_lt_self (by omega) hbase) h
      · have hlast := Nat.mod_lt n (y := base) (by omega)
        rw [h]
        exact isAlphanum_digitChar _ (by omega)

theorem isAlphanum_of_mem_hex {n : Nat} {c : Char} (h : c ∈ (hex n).toList) :
    c.isAlphanum = true := by
  rw [hex, String.toList_append, List.mem_append] at h
  rcases h with h | h
  · have hstart : "0x".toList.all Char.isAlphanum = true := by decide
    exact List.all_eq_true.1 hstart c h
  · rw [hexDigits, String.toList_ofList] at h
    exact isAlphanum_of_mem_toDigits (by decide) (by decide) h

theorem isDigit_of_mem_decimal {n : Nat} {c : Char} (h : c ∈ (decimal n).toList) : c.isDigit := by
  rw [decimal, String.toList_ofList] at h
  exact Nat.isDigit_of_mem_toDigits (by decide) (by decide) h

theorem decimal_ne_nil (n : Nat) : (decimal n).toList ≠ [] := by
  rw [decimal, String.toList_ofList]
  exact Nat.toDigits_ne_nil

/-- What stands in the text does not go on a number in front of it. -/
def EndsNumber (rest : List Char) : Prop := rest.takeWhile Char.isDigit = []

theorem endsNumber_cons {c : Char} (h : c.isDigit = false) (rest : List Char) :
    EndsNumber (c :: rest) := by
  rw [EndsNumber, List.takeWhile_cons, h]
  rfl

theorem decimal_append_inj {m n : Nat} {r s : List Char} (hr : EndsNumber r) (hs : EndsNumber s)
    (h : (decimal m).toList ++ r = (decimal n).toList ++ s) : m = n ∧ r = s := by
  have hspan : ∀ {k : Nat} {t : List Char}, EndsNumber t →
      ((decimal k).toList ++ t).takeWhile Char.isDigit = (decimal k).toList := by
    intro k t ht
    rw [List.takeWhile_append_of_pos fun c hc => isDigit_of_mem_decimal hc, ht, List.append_nil]
  have hdigits : (decimal m).toList = (decimal n).toList := by rw [← hspan hr, h, hspan hs]
  rw [hdigits] at h
  refine ⟨?_, List.append_cancel_left h⟩
  rw [decimal, decimal, String.toList_ofList, String.toList_ofList] at hdigits
  exact toDigits_inj (by decide) (by decide) hdigits

/-! ## Bytes -/

theorem hexByte_inj {b c : UInt8} (h : hexByte b = hexByte c) : b = c := by
  have hb := b.toNat_lt
  have hc := c.toNat_lt
  have hdigits := String.ofList_injective h
  simp only [List.cons.injEq, and_true] at hdigits
  have hhigh := digitChar_inj (by omega) (by omega) hdigits.1
  have hlow := digitChar_inj (by omega) (by omega) hdigits.2
  apply UInt8.toNat_inj.1
  omega

theorem isAlphanum_of_mem_hexByte {b : UInt8} {c : Char} (h : c ∈ (hexByte b).toList) :
    c.isAlphanum = true := by
  have hb := b.toNat_lt
  simp only [hexByte, String.toList_ofList, List.mem_cons, List.not_mem_nil, or_false] at h
  rcases h with rfl | rfl
  · exact isAlphanum_digitChar _ (by omega)
  · exact isAlphanum_digitChar _ (by omega)

theorem pieces_intercalate_hexByte {bs : List UInt8} (hne : bs ≠ []) :
    pieces (· == ' ') (" ".intercalate (bs.map hexByte)).toList =
      bs.map fun b => (hexByte b).toList := by
  rw [String.toList_intercalate, List.map_map]
  refine pieces_intercalate rfl (by simpa using hne) ?_
  intro w hw c hc
  obtain ⟨b, -, rfl⟩ := List.mem_map.1 hw
  exact beq_of_isAlphanum (isAlphanum_of_mem_hexByte hc) (by decide)

/-- Bytes that are written with blanks between them can be read back. -/
theorem intercalate_hexByte_inj {bs cs : List UInt8}
    (h : " ".intercalate (bs.map hexByte) = " ".intercalate (cs.map hexByte)) : bs = cs := by
  have hsome : ∀ b bs, " ".intercalate ((b :: bs).map hexByte) ≠ " ".intercalate [] := by
    intro b bs hnil
    have hpieces := pieces_intercalate_hexByte (List.cons_ne_nil b bs)
    rw [hnil] at hpieces
    simp [pieces, hexByte] at hpieces
  cases bs with
  | nil =>
    cases cs with
    | nil => rfl
    | cons c cs => exact absurd h.symm (hsome c cs)
  | cons b bs =>
    cases cs with
    | nil => exact absurd h (hsome b bs)
    | cons c cs =>
      have hwords := pieces_intercalate_hexByte (List.cons_ne_nil b bs)
      rw [h, pieces_intercalate_hexByte (List.cons_ne_nil c cs)] at hwords
      have hinj : ∀ b c, (hexByte b).toList = (hexByte c).toList → b = c :=
        fun b c hbc => hexByte_inj (String.toList_inj.1 hbc)
      exact ((List.map_inj_right hinj).1 hwords).symm

end Text

theorem Address.text_inj {a b : Address} (h : a.text = b.text) : a = b :=
  UInt64.toNat_inj.1 (Text.hex_inj h)

end CodeLift
