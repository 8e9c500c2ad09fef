import CodeLift.Proofs.Numerals
import CodeLift.Proofs.OperandLists

/-!
# Immediate operands

The last operand of a text is read as a signed number. Which texts are numbers, and what they stand
for, is stated as a grammar (`Operands.Immediate`): a literal, decimal or hexadecimal, which may
have a sign of its own, and in front of it at most one minus sign that negates it. A text that
begins with a minus sign is always read as negated. The reader finds the value that the grammar
gives, faults where the literal is the least number of the word and is to be negated, and finds
nothing otherwise. So a number that is written with its sign in front is read back, whatever
operands precede it.
-/

namespace CodeLift

namespace Text

variable {c : Char} {cs : List Char}

theorem trim_of_not_blank (h : ∀ c ∈ cs, isBlank c = false) : trim cs = cs := by
  have hfront : cs.dropWhile isBlank = cs := by
    rw [List.dropWhile_eq_self_iff]
    intro hpos
    rw [h _ (List.getElem_mem hpos)]
    exact Bool.false_ne_true
  have hback : cs.rdropWhile isBlank = cs := by
    rw [List.rdropWhile_eq_self_iff]
    intro hne
    rw [h _ (List.getLast_mem hne)]
    exact Bool.false_ne_true
  unfold trim
  rw [hfront]
  exact hback

/-- Letters and digits are neither blanks nor marks of an operand. -/
theorem plain_of_range (h : 48 ≤ c.toNat ∧ c.toNat ≤ 122) :
    isBlank c = false ∧ c ≠ ',' ∧ c ≠ '-' ∧ c ≠ '#' := by
  have hne (m : Char) (hm : m.toNat < 48) : c ≠ m := by
    rintro rfl
    omega
  refine ⟨?_, hne ',' (by decide), hne '-' (by decide), hne '#' (by decide)⟩
  rw [Bool.eq_false_iff]
  intro hblank
  simp only [isBlank, Bool.or_eq_true, Bool.and_eq_true, decide_eq_true_eq, beq_iff_eq] at hblank
  omega

end Text

namespace Operands

variable {cs digits d : List Char} {v w : Int} {f : Fault} {operands text : String}

/-! ## The grammar -/

/-- `cs` is a literal for `w`: decimal, or hexadecimal after `0x`. -/
inductive Literal : List Char → Int → Prop where
  | decimal {cs : List Char} {w : Int} (h : Text.SignedNumeral 10 cs w) : Literal cs w
  | hex {cs : List Char} {w : Int} (h : Text.SignedNumeral 16 cs w) : Literal ('0' :: 'x' :: cs) w

/-- `cs` is an immediate with the value `v`. A minus sign in front of a literal negates it, and a
text that has one is read in no other way. -/
inductive Immediate : List Char → Int → Prop where
  | negated {digits : List Char} {w : Int} (hw : Literal digits w) (hmin : Text.minSigned < w)
      (hmax : w ≤ Text.maxSigned) : Immediate ('-' :: digits) (-w)
  | plain {cs : List Char} {w : Int} (hsign : cs.head? ≠ some '-') (hw : Literal cs w)
      (hmin : Text.minSigned ≤ w) (hmax : w ≤ Text.maxSigned) : Immediate cs w

/-- `cs` negates the least number of the word. -/
def Overflows (cs : List Char) : Prop :=
  ∃ digits, cs = '-' :: digits ∧ Literal digits Text.minSigned

/-- `d` is the last operand of a text, without the number signs in front of it. -/
def LastOperand (operands : String) (d : List Char) : Prop :=
  ∃ last, (split operands).getLast? = some last ∧ d = last.toList.dropWhile (· == '#')

/-! ## Reading follows the grammar -/

theorem readLiteral_hex (cs : List Char) :
    readLiteral ('0' :: 'x' :: cs) = Text.readSigned 16 cs := rfl

theorem readLiteral_decimal (h : ∀ rest, cs ≠ '0' :: 'x' :: rest) :
    readLiteral cs = Text.readSigned 10 cs := by
  unfold readLiteral
  split
  · next rest => exact absurd rfl (h rest)
  · rfl

theorem not_signedNumeral_hex (cs : List Char) (w : Int) :
    ¬ Text.SignedNumeral 10 ('0' :: 'x' :: cs) w := by
  intro h
  have hread := h.readInt_eq (by decide)
  cases hread

theorem readLiteral_eq_some_iff :
    readLiteral cs = some w ↔ Literal cs w ∧ Text.minSigned ≤ w ∧ w ≤ Text.maxSigned := by
  constructor
  · intro h
    by_cases hhex : ∃ rest, cs = '0' :: 'x' :: rest
    · obtain ⟨rest, rfl⟩ := hhex
      rw [readLiteral_hex, Text.readSigned_eq_some_iff (by decide)] at h
      exact ⟨.hex h.1, h.2⟩
    · rw [readLiteral_decimal (not_exists.1 hhex), Text.readSigned_eq_some_iff (by decide)] at h
      exact ⟨.decimal h.1, h.2⟩
  · rintro ⟨hw, hrange⟩
    cases hw with
    | hex hnum =>
      rw [readLiteral_hex, Text.readSigned_eq_some_iff (by decide)]
      exact ⟨hnum, hrange⟩
    | decimal hnum =>
      have hhex (rest : List Char) : cs ≠ '0' :: 'x' :: rest := by
        rintro rfl
        exact not_signedNumeral_hex rest w hnum
      rw [readLiteral_decimal hhex, Text.readSigned_eq_some_iff (by decide)]
      exact ⟨hnum, hrange⟩

theorem readImmediate_plain (h : cs.head? ≠ some '-') :
    readImmediate cs = .ok (readLiteral cs) := by
  unfold readImmediate
  split
  · exact absurd rfl h
  · rfl

theorem readImmediate_minus_of_none (h : readLiteral digits = none) :
    readImmediate ('-' :: digits) = .ok none := by
  simp only [readImmediate, h]

theorem readImmediate_minus_of_some (h : readLiteral digits = some w) :
    readImmediate ('-' :: digits) =
      if w = Text.minSigned then .error .negationOverflow else .ok (some (-w)) := by
  simp only [readImmediate, h, beq_iff_eq]

theorem Immediate.readImmediate_eq (h : Immediate cs v) : readImmediate cs = .ok (some v) := by
  cases h with
  | negated hw hmin hmax =>
    have hlit := readLiteral_eq_some_iff.2 ⟨hw, by omega, hmax⟩
    rw [readImmediate_minus_of_some hlit, if_neg (by omega)]
  | plain hsign hw hmin hmax =>
    rw [readImmediate_plain hsign, readLiteral_eq_some_iff.2 ⟨hw, hmin, hmax⟩]

theorem Overflows.readImmediate_eq (h : Overflows cs) :
    readImmediate cs = .error .negationOverflow := by
  obtain ⟨digits, rfl, hw⟩ := h
  have hlit := readLiteral_eq_some_iff.2 ⟨hw, Int.le_refl _, by decide⟩
  rw [readImmediate_minus_of_some hlit, if_pos rfl]

/-- What reading an operand can give, and why. -/
theorem readImmediate_cases (cs : List Char) :
    (∃ v, readImmediate cs = .ok (some v) ∧ Immediate cs v) ∨
      readImmediate cs = .error .negationOverflow ∧ Overflows cs ∨
        readImmediate cs = .ok none := by
  by_cases hsign : cs.head? = some '-'
  · obtain ⟨digits, rfl⟩ := List.head?_eq_some_iff.1 hsign
    cases hlit : readLiteral digits with
    | none => exact .inr (.inr (readImmediate_minus_of_none hlit))
    | some w =>
      obtain ⟨hw, hmin, hmax⟩ := readLiteral_eq_some_iff.1 hlit
      have hread := readImmediate_minus_of_some hlit
      by_cases hleast : w = Text.minSigned
      · rw [if_pos hleast] at hread
        exact .inr (.inl ⟨hread, digits, rfl, hleast ▸ hw⟩)
      · rw [if_neg hleast] at hread
        exact .inl ⟨-w, hread, .negated hw (by omega) hmax⟩
  · have hread := readImmediate_plain hsign
    cases hlit : readLiteral cs with
    | none =>
      rw [hlit] at hread
      exact .inr (.inr hread)
    | some w =>
      obtain ⟨hw, hmin, hmax⟩ := readLiteral_eq_some_iff.1 hlit
      rw [hlit] at hread
      exact .inl ⟨w, hread, .plain hsign hw hmin hmax⟩

theorem readImmediate_eq_some_iff : readImmediate cs = .ok (some v) ↔ Immediate cs v := by
  refine ⟨?_, Immediate.readImmediate_eq⟩
  intro h
  rcases readImmediate_cases cs with ⟨u, hread, hu⟩ | ⟨hread, -⟩ | hread
  · cases h.symm.trans hread
    exact hu
  · cases h.symm.trans hread
  · cases h.symm.trans hread

theorem readImmediate_eq_error_iff :
    readImmediate cs = .error f ↔ f = .negationOverflow ∧ Overflows cs := by
  constructor
  · intro h
    rcases readImmediate_cases cs with ⟨u, hread, -⟩ | ⟨hread, hover⟩ | hread
    · cases h.symm.trans hread
    · cases h.symm.trans hread
      exact ⟨rfl, hover⟩
    · cases h.symm.trans hread
  · rintro ⟨rfl, hover⟩
    exact hover.readImmediate_eq

theorem readImmediate_eq_none_iff :
    readImmediate cs = .ok none ↔ (∀ v, ¬ Immediate cs v) ∧ ¬ Overflows cs := by
  constructor
  · intro h
    refine ⟨?_, ?_⟩
    · intro v hv
      cases h.symm.trans hv.readImmediate_eq
    · intro hover
      cases h.symm.trans hover.readImmediate_eq
  · rintro ⟨hval, hover⟩
    rcases readImmediate_cases cs with ⟨v, -, hv⟩ | ⟨-, hov⟩ | hread
    · exact absurd hv (hval v)
    · exact absurd hov hover
    · exact hread

/-! ## The last operand -/

theorem lastImmediate_of_last {last : String} (h : (split operands).getLast? = some last) :
    lastImmediate operands = readImmediate (last.toList.dropWhile (· == '#')) := by
  rw [split, List.getLast?_map] at h
  obtain ⟨chars, hchars, rfl⟩ := Option.map_eq_some_iff.1 h
  unfold lastImmediate
  rw [hchars, String.toList_ofList]

theorem lastImmediate_of_none (h : (split operands).getLast? = none) :
    lastImmediate operands = .ok none := by
  rw [split, List.getLast?_map, Option.map_eq_none_iff] at h
  unfold lastImmediate
  rw [h]

/-- Either the text has a last operand, which is read, or it has no operands. -/
theorem lastImmediate_cases (operands : String) :
    (∃ d, lastImmediate operands = readImmediate d ∧ ∀ e, LastOperand operands e ↔ e = d) ∨
      lastImmediate operands = .ok none ∧ ∀ e, ¬ LastOperand operands e := by
  cases hlast : (split operands).getLast? with
  | none =>
    refine .inr ⟨lastImmediate_of_none hlast, ?_⟩
    rintro e ⟨last, hsome, -⟩
    cases hlast.symm.trans hsome
  | some last =>
    refine .inl ⟨last.toList.dropWhile (· == '#'), lastImmediate_of_last hlast, ?_⟩
    intro e
    constructor
    · rintro ⟨other, hother, rfl⟩
      cases hlast.symm.trans hother
      rfl
    · rintro rfl
      exact ⟨last, hlast, rfl⟩

theorem lastImmediate_eq_some_iff :
    lastImmediate operands = .ok (some v) ↔ ∃ d, LastOperand operands d ∧ Immediate d v := by
  rcases lastImmediate_cases operands with ⟨d, hread, hlast⟩ | ⟨hread, hlast⟩
  · rw [hread, readImmediate_eq_some_iff]
    simp only [hlast, exists_eq_left]
  · rw [hread]
    simp [hlast]

theorem lastImmediate_eq_error_iff :
    lastImmediate operands = .error f ↔
      f = .negationOverflow ∧ ∃ d, LastOperand operands d ∧ Overflows d := by
  rcases lastImmediate_cases operands with ⟨d, hread, hlast⟩ | ⟨hread, hlast⟩
  · rw [hread, readImmediate_eq_error_iff]
    simp only [hlast, exists_eq_left]
  · rw [hread]
    simp [hlast]

theorem lastImmediate_eq_none_iff :
    lastImmediate operands = .ok none ↔
      ∀ d, LastOperand operands d → (∀ v, ¬ Immediate d v) ∧ ¬ Overflows d := by
  rcases lastImmediate_cases operands with ⟨d, hread, hlast⟩ | ⟨hread, hlast⟩
  · rw [hread, readImmediate_eq_none_iff]
    simp only [hlast, forall_eq]
  · rw [hread]
    simp [hlast]

/-! ## Numbers that are written down -/

/-- The text after as many number signs. -/
def marked (marks : Nat) (text : String) : String :=
  String.ofList (List.replicate marks '#') ++ text

/-- The text is the number `v` in decimal or hexadecimal, its sign in front. -/
def Renders (text : String) (v : Int) : Prop :=
  ∃ digits, (digits = Text.decimal v.natAbs ∨ digits = Text.hex v.natAbs) ∧
    text = (if v < 0 then "-" else "") ++ digits

theorem toList_hex (n : Nat) : (Text.hex n).toList = '0' :: 'x' :: Nat.toDigits 16 n := by
  have hmark : "0x".toList = ['0', 'x'] := rfl
  rw [Text.hex, Text.hexDigits, String.toList_append, hmark, String.toList_ofList,
    List.cons_append, List.singleton_append]

/-- A number without its sign is a literal of letters and digits. -/
theorem written_unsigned {s : String} {n : Nat} (h : s = Text.decimal n ∨ s = Text.hex n) :
    Literal s.toList n ∧ ∀ c ∈ s.toList, 48 ≤ c.toNat ∧ c.toNat ≤ 122 := by
  rcases h with rfl | rfl
  · have hnum : Text.Numeral 10 (Nat.toDigits 10 n) n := Text.numeral_toDigits (by decide) n
    rw [Text.decimal, String.toList_ofList]
    refine ⟨.decimal (.bare hnum), ?_⟩
    intro c hc
    have hrange := hnum.range (by decide) c hc
    omega
  · have hnum : Text.Numeral 16 (Nat.toDigits 16 n) n := Text.numeral_toDigits (by decide) n
    rw [toList_hex]
    refine ⟨.hex (.bare hnum), ?_⟩
    intro c hc
    rcases List.mem_cons.1 hc with rfl | hc
    · decide
    rcases List.mem_cons.1 hc with rfl | hc
    · decide
    · have hrange := hnum.range (by decide) c hc
      omega

theorem Literal.ne_nil (h : Literal cs w) : cs ≠ [] := by
  cases h with
  | hex hnum => exact List.cons_ne_nil _ _
  | decimal hnum =>
    cases hnum with
    | bare hn => exact hn.ne_nil
    | plus hn => exact List.cons_ne_nil _ _
    | minus hn => exact List.cons_ne_nil _ _

namespace Renders

theorem toList_cases (h : Renders text v) :
    ∃ digits, Literal digits v.natAbs ∧ (∀ c ∈ digits, 48 ≤ c.toNat ∧ c.toNat ≤ 122) ∧
      text.toList = if v < 0 then '-' :: digits else digits := by
  obtain ⟨s, hs, rfl⟩ := h
  obtain ⟨hlit, hrange⟩ := written_unsigned hs
  refine ⟨s.toList, hlit, hrange, ?_⟩
  rw [String.toList_append]
  split
  · rfl
  · rfl

theorem immediate (h : Renders text v) (hmin : Text.minSigned < v) (hmax : v ≤ Text.maxSigned) :
    Immediate text.toList v := by
  have hle : Text.maxSigned = -Text.minSigned - 1 := by decide
  obtain ⟨digits, hlit, hrange, htext⟩ := h.toList_cases
  rw [htext]
  by_cases hneg : v < 0
  · have habs : v = -(v.natAbs : Int) := by omega
    rw [if_pos hneg]
    conv_rhs => rw [habs]
    exact .negated hlit (by omega) (by omega)
  · have habs : (v.natAbs : Int) = v := by omega
    rw [habs] at hlit
    rw [if_neg hneg]
    refine .plain ?_ hlit (by omega) hmax
    intro hhead
    exact (Text.plain_of_range (hrange '-' (List.mem_of_head? hhead))).2.2.1 rfl

theorem plain (h : Renders text v) :
    ∀ c ∈ text.toList, Text.isBlank c = false ∧ c ≠ ',' ∧ c ≠ '#' := by
  obtain ⟨digits, -, hrange, htext⟩ := h.toList_cases
  have hdigits (c : Char) (hc : c ∈ digits) : Text.isBlank c = false ∧ c ≠ ',' ∧ c ≠ '#' := by
    obtain ⟨hblank, hcomma, -, hmark⟩ := Text.plain_of_range (hrange c hc)
    exact ⟨hblank, hcomma, hmark⟩
  intro c hc
  rw [htext] at hc
  split at hc
  · rcases List.mem_cons.1 hc with rfl | hc
    · decide
    · exact hdigits c hc
  · exact hdigits c hc

theorem ne_nil (h : Renders text v) : text.toList ≠ [] := by
  obtain ⟨digits, hlit, -, htext⟩ := h.toList_cases
  rw [htext]
  split
  · exact List.cons_ne_nil _ _
  · exact hlit.ne_nil

end Renders

/-! ## Operands before the last -/

variable {as : List (List Char)} {last : List Char}

theorem not_openComma_of_not_mem {d : Nat} (h : ',' ∉ cs) : ¬ OpenComma d cs := by
  rintro ⟨before, after, rfl, -⟩
  exact h (by simp)

theorem join_concat (has : as ≠ []) (last : List Char) :
    [',', ' '].intercalate (as ++ [last]) =
      [',', ' '].intercalate as ++ ',' :: ' ' :: last := by
  induction as with
  | nil => exact absurd rfl has
  | cons a as ih =>
    by_cases hnil : as = []
    · subst hnil
      simp
    · have hcons : as ++ [last] ≠ [] := by simp
      rw [List.cons_append, List.intercalate_cons_of_ne_nil hcons,
        List.intercalate_cons_of_ne_nil hnil, ih hnil, List.append_assoc _ _ (',' :: _)]

theorem depthFrom_join (h : ∀ a ∈ as, depthFrom 0 a = 0) :
    depthFrom 0 ([',', ' '].intercalate as) = 0 := by
  induction as with
  | nil => rfl
  | cons a as ih =>
    obtain ⟨ha, has⟩ := List.forall_mem_cons.1 h
    by_cases hnil : as = []
    · subst hnil
      rw [List.intercalate_singleton]
      exact ha
    · have hsep : depthFrom 0 [',', ' '] = 0 := by decide
      rw [List.intercalate_cons_of_ne_nil hnil, depthFrom_append, depthFrom_append, ha, hsep,
        ih has]

/-- The last operand stands alone if those before it close their brackets. -/
theorem exists_cut_join (has : ∀ a ∈ as, depthFrom 0 a = 0) (hlast : ¬ OpenComma 0 last) :
    ∃ us w, cut 0 ([',', ' '].intercalate (as ++ [last])) = us ++ [w] ∧
      Text.trim w = Text.trim last := by
  by_cases hnil : as = []
  · subst hnil
    refine ⟨[], last, ?_, rfl⟩
    rw [List.nil_append, List.intercalate_singleton, cut_of_not_openComma hlast]
  · have hspace : ¬ OpenComma 0 (' ' :: last) := by
      rw [openComma_cons, not_or, depthAfter_of_blank rfl]
      exact ⟨by decide, hlast⟩
    refine ⟨cut 0 ([',', ' '].intercalate as), ' ' :: last, ?_, Text.trim_cons_of_blank rfl last⟩
    rw [join_concat hnil, cut_append (depthFrom_join has), cut_of_not_openComma hspace]

theorem getLast?_splitChars_join (has : ∀ a ∈ as, depthFrom 0 a = 0)
    (hclosed : ¬ OpenComma 0 last) (htrim : Text.trim last = last) (hne : last ≠ []) :
    (splitChars ([',', ' '].intercalate (as ++ [last]))).getLast? = some last := by
  obtain ⟨us, w, hcut, hw⟩ := exists_cut_join has hclosed
  rw [splitChars, hcut, List.map_append, List.map_singleton, hw, htrim, dropEmptyLast_concat,
    if_neg hne, List.getLast?_concat]

theorem toList_marked (marks : Nat) (text : String) :
    (marked marks text).toList = List.replicate marks '#' ++ text.toList := by
  rw [marked, String.toList_append, String.toList_ofList]

theorem lastOperand_of_renders {marks : Nat} (h : Renders text v)
    (hlast : (split operands).getLast? = some (marked marks text)) :
    LastOperand operands text.toList := by
  refine ⟨marked marks text, hlast, ?_⟩
  have hmarks : ∀ c ∈ List.replicate marks '#', (c == '#') = true := by
    intro c hc
    rw [List.eq_of_mem_replicate hc]
    rfl
  rw [toList_marked, List.dropWhile_append_of_pos hmarks]
  cases htext : text.toList with
  | nil => rfl
  | cons c cs =>
    have hc : c ≠ '#' := (h.plain c (htext ▸ List.mem_cons_self)).2.2
    rw [List.dropWhile_cons_of_neg (by simpa using hc)]

theorem getLast?_split_join {args : List String} (hargs : ∀ a ∈ args, depthFrom 0 a.toList = 0)
    (h : Renders text v) (marks : Nat) :
    (split (", ".intercalate (args ++ [marked marks text]))).getLast? =
      some (marked marks text) := by
  have hplain : ∀ c ∈ (marked marks text).toList, Text.isBlank c = false ∧ c ≠ ',' := by
    intro c hc
    rw [toList_marked] at hc
    rcases List.mem_append.1 hc with hc | hc
    · rw [List.eq_of_mem_replicate hc]
      decide
    · exact ⟨(h.plain c hc).1, (h.plain c hc).2.1⟩
  have hne : (marked marks text).toList ≠ [] := by
    rw [toList_marked]
    exact List.append_ne_nil_of_right_ne_nil _ h.ne_nil
  have hlevel : ∀ a ∈ args.map String.toList, depthFrom 0 a = 0 := by
    intro a ha
    obtain ⟨s, hs, rfl⟩ := List.mem_map.1 ha
    exact hargs s hs
  have hlast := getLast?_splitChars_join hlevel
    (not_openComma_of_not_mem fun hmem => (hplain ',' hmem).2 rfl)
    (Text.trim_of_not_blank fun c hc => (hplain c hc).1) hne
  have hsep : ", ".toList = [',', ' '] := rfl
  rw [split, List.getLast?_map, String.toList_intercalate, hsep, List.map_append,
    List.map_singleton, hlast, Option.map_some, String.ofList_toList]

/-- The last operand is read by the grammar and by nothing else. There is a value exactly where the
grammar gives one, a fault exactly where the least number is negated, and no value in all other
texts. So a number other than the least one, in decimal or hexadecimal with its sign in front, is
read back as it was written, with or without number signs, wherever it is the last operand; behind
any operands that close their brackets it is. -/
theorem lastImmediate_accepts_grammar :
    (∀ operands : String,
      (∀ v, lastImmediate operands = .ok (some v) ↔
          ∃ d, LastOperand operands d ∧ Immediate d v) ∧
        (∀ f, lastImmediate operands = .error f ↔
          f = .negationOverflow ∧ ∃ d, LastOperand operands d ∧ Overflows d) ∧
        (lastImmediate operands = .ok none ↔
          ∀ d, LastOperand operands d → (∀ v, ¬ Immediate d v) ∧ ¬ Overflows d)) ∧
      ∀ (v : Int) (text : String) (marks : Nat) (args : List String),
        Renders text v → Text.minSigned < v → v ≤ Text.maxSigned →
        (∀ operands, split operands = args ++ [marked marks text] →
          lastImmediate operands = .ok (some v)) ∧
          ((∀ a ∈ args, depthFrom 0 a.toList = 0) →
            lastImmediate (", ".intercalate (args ++ [marked marks text])) = .ok (some v)) := by
  refine ⟨?_, ?_⟩
  · intro operands
    exact ⟨fun v => lastImmediate_eq_some_iff, fun f => lastImmediate_eq_error_iff,
      lastImmediate_eq_none_iff⟩
  · intro v text marks args h hmin hmax
    have hread (operands : String)
        (hlast : (split operands).getLast? = some (marked marks text)) :
        lastImmediate operands = .ok (some v) :=
      lastImmediate_eq_some_iff.2
        ⟨text.toList, lastOperand_of_renders h hlast, h.immediate hmin hmax⟩
    refine ⟨?_, ?_⟩
    · intro operands hsplit
      refine hread operands ?_
      rw [hsplit, List.getLast?_concat]
    · intro hargs
      exact hread _ (getLast?_split_join hargs h marks)

/-- The least number that can be read stands behind a memory operand, and a number with two number
signs right after a comma. The least number of the word cannot be read, and negating it faults. -/
theorem lastImmediate_accepts_grammar_extremes :
    Renders "-0x7fffffffffffffff" (-0x7fffffffffffffff) ∧
      lastImmediate "a0, [sp, 4], #-0x7fffffffffffffff" = .ok (some (-0x7fffffffffffffff)) ∧
      lastImmediate "a0 ,##42" = .ok (some 42) ∧
      (∃ d, LastOperand "--9223372036854775808" d ∧ Overflows d) ∧
      ∀ d, LastOperand "-9223372036854775808" d → (∀ v, ¬ Immediate d v) ∧ ¬ Overflows d := by
  obtain ⟨hgrammar, hwritten⟩ := lastImmediate_accepts_grammar
  have hleast : Renders "-0x7fffffffffffffff" (-0x7fffffffffffffff) := ⟨_, .inr rfl, by decide⟩
  have hlevel : ∀ a ∈ ["a0", "[sp, 4]"], depthFrom 0 a.toList = 0 := by decide
  have hanswer : Renders "42" 42 := ⟨_, .inl rfl, by decide⟩
  have hsplit : split "a0 ,##42" = ["a0"] ++ [marked 2 "42"] := by decide
  have hfault : lastImmediate "--9223372036854775808" = .error .negationOverflow := by decide
  have hnone : lastImmediate "-9223372036854775808" = .ok none := by decide
  exact ⟨hleast, (hwritten _ _ 1 _ hleast (by decide) (by decide)).2 hlevel,
    (hwritten _ _ 2 _ hanswer (by decide) (by decide)).1 _ hsplit,
    (((hgrammar _).2.1 _).1 hfault).2, (hgrammar _).2.2.1 hnone⟩

end Operands

end CodeLift
