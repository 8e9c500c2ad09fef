import CodeLift.Json
import CodeLift.Proofs.Digits
import Mathlib.Data.String.Basic

/-!
# Values on one line can be read back

A value that is written on one line holds no line feed, whatever its strings are, and it can be read
back from the front of a longer text: the text tells which value stands there and where it ends.
The one thing to rule out is a digit right after a number. So a sequence of records, one on each
line, is known from its text.
-/

namespace CodeLift.Json

/-- A property of all values, from what it says on their parts. -/
@[elab_as_elim]
theorem induct {P : Json → Prop} (null : P null) (bool : ∀ b, P (bool b)) (num : ∀ n, P (num n))
    (str : ∀ s, P (str s)) (arr : ∀ items, (∀ v ∈ items, P v) → P (arr items))
    (obj : ∀ fields, (∀ f ∈ fields, P f.2) → P (obj fields)) (v : Json) : P v :=
  @Json.rec P (fun items => ∀ v ∈ items, P v) (fun fields => ∀ f ∈ fields, P f.2)
    (fun f => P f.2) null bool num str arr obj (List.forall_mem_nil _)
    (fun _ _ head tail => List.forall_mem_cons.2 ⟨head, tail⟩) (List.forall_mem_nil _)
    (fun _ _ head tail => List.forall_mem_cons.2 ⟨head, tail⟩) (fun _ _ h => h) v

/-! ## Strings -/

/-- The characters that are escaped with a letter of their own, after that letter. -/
def shortEscapes : List (Char × Char) :=
  [('"', '"'), ('\\', '\\'), ('b', '\x08'), ('f', '\x0c'), ('n', '\n'), ('r', '\r'), ('t', '\t')]

theorem escapeChar_cases (c : Char) :
    (∃ letter, (letter, c) ∈ shortEscapes ∧ escapeChar c = ['\\', letter]) ∨
    (c.toNat < 0x20 ∧ escapeChar c =
      ['\\', 'u', '0', '0', Nat.digitChar (c.toNat / 16), Nat.digitChar (c.toNat % 16)]) ∨
    (c ≠ '"' ∧ c ≠ '\\' ∧ c ≠ '\n' ∧ escapeChar c = [c]) := by
  by_cases hshort : c ∈ shortEscapes.map Prod.snd
  · left
    simp only [shortEscapes, List.map_cons, List.map_nil, List.mem_cons, List.not_mem_nil,
      or_false] at hshort
    rcases hshort with rfl | rfl | rfl | rfl | rfl | rfl | rfl <;>
      exact ⟨_, by decide, rfl⟩
  · right
    simp only [shortEscapes, List.map_cons, List.map_nil, List.mem_cons, List.not_mem_nil,
      or_false, not_or] at hshort
    obtain ⟨h₁, h₂, h₃, h₄, h₅, h₆, h₇⟩ := hshort
    simp only [escapeChar, beq_iff_eq, h₁, h₂, h₃, h₄, h₅, h₆, h₇, if_false]
    by_cases hcontrol : c.toNat < 0x20
    · exact .inl ⟨hcontrol, if_pos hcontrol⟩
    · exact .inr ⟨h₁, h₂, h₅, if_neg hcontrol⟩

/-- The character that begins a text inside a string, and what follows it. There is none at the
closing quote. -/
def unescape : List Char → Option (Char × List Char)
  | '\\' :: 'u' :: _ :: _ :: high :: low :: rest =>
    some (Char.ofNat (16 * Text.digitValue high + Text.digitValue low), rest)
  | '\\' :: letter :: rest => (shortEscapes.lookup letter).map (·, rest)
  | '"' :: _ => none
  | c :: rest => some (c, rest)
  | [] => none

theorem unescape_cons {c : Char} (hquote : c ≠ '"') (hslash : c ≠ '\\') (rest : List Char) :
    unescape (c :: rest) = some (c, rest) := by
  unfold unescape
  split <;> simp_all

theorem unescape_escapeChar (c : Char) (rest : List Char) :
    unescape (escapeChar c ++ rest) = some (c, rest) := by
  obtain ⟨letter, hmem, h⟩ | ⟨hcontrol, h⟩ | ⟨hquote, hslash, -, h⟩ := escapeChar_cases c
  · rw [h]
    simp only [shortEscapes, List.mem_cons, Prod.mk.injEq, List.not_mem_nil, or_false] at hmem
    rcases hmem with ⟨rfl, rfl⟩ | ⟨rfl, rfl⟩ | ⟨rfl, rfl⟩ | ⟨rfl, rfl⟩ | ⟨rfl, rfl⟩ | ⟨rfl, rfl⟩ |
      ⟨rfl, rfl⟩ <;> rfl
  · have hvalue : Char.ofNat (16 * (c.toNat / 16) + c.toNat % 16) = c := by
      rw [Nat.div_add_mod, Char.ofNat_toNat]
    rw [h]
    simp only [List.cons_append, List.nil_append, unescape]
    rw [Text.digitValue_digitChar _ (by omega), Text.digitValue_digitChar _ (by omega), hvalue]
  · rw [h, List.singleton_append, unescape_cons hquote hslash]

theorem flatMap_escapeChar_inj {cs ds r s : List Char}
    (h : cs.flatMap escapeChar ++ '"' :: r = ds.flatMap escapeChar ++ '"' :: s) :
    cs = ds ∧ r = s := by
  induction cs generalizing ds with
  | nil =>
    cases ds with
    | nil => exact ⟨rfl, (List.cons.inj h).2⟩
    | cons d ds =>
      -- A quote inside a string is escaped, so the closing one is not taken for it.
      have hread := congrArg unescape h
      rw [List.flatMap_cons, List.append_assoc, unescape_escapeChar] at hread
      cases hread
  | cons c cs ih =>
    have hread := congrArg unescape h
    rw [List.flatMap_cons, List.append_assoc, unescape_escapeChar] at hread
    cases ds with
    | nil => cases hread
    | cons d ds =>
      rw [List.flatMap_cons, List.append_assoc, unescape_escapeChar] at hread
      obtain ⟨hchar, hrest⟩ := Prod.mk.inj (Option.some.inj hread)
      obtain ⟨hchars, htail⟩ := ih hrest
      exact ⟨by rw [hchar, hchars], htail⟩

theorem quote_inj {k l : String} {r s : List Char} (h : quote r k = quote s l) : k = l ∧ r = s := by
  obtain ⟨hchars, hrest⟩ := flatMap_escapeChar_inj (List.cons.inj h).2
  exact ⟨String.toList_inj.1 hchars, hrest⟩

theorem newline_notMem_escapeChar (c : Char) : '\n' ∉ escapeChar c := by
  obtain ⟨letter, hmem, h⟩ | ⟨-, h⟩ | ⟨-, -, hnewline, h⟩ := escapeChar_cases c
  · have hletter : ∀ e ∈ shortEscapes, '\n' ∉ ['\\', e.1] := by decide
    rw [h]
    exact hletter _ hmem
  · rw [h]
    simp
  · rw [h, List.mem_singleton]
    exact Ne.symm hnewline

theorem newline_mem_quote {k : String} {r : List Char} (h : '\n' ∈ quote r k) : '\n' ∈ r := by
  simp only [quote, List.mem_cons, List.mem_append, List.mem_flatMap] at h
  rcases h with h | ⟨c, -, hc⟩ | h | h
  · cases h
  · exact absurd hc (newline_notMem_escapeChar c)
  · cases h
  · exact h

theorem quote_append (r s : List Char) (k : String) : quote (r ++ s) k = quote r k ++ s := by
  simp [quote]

/-! ## Sequences -/

/-- Things with a comma between any two, in front of `rest`. -/
def separated {α : Type} (write : List Char → α → List Char) (rest : List Char) :
    List α → List Char
  | [] => rest
  | [a] => write rest a
  | a :: as => write (',' :: separated write rest as) a

/-- A field on one line, in front of `rest`. -/
def field (rest : List Char) (f : String × Json) : List Char := quote (':' :: compact rest f.2) f.1

theorem compactItems_eq (rest : List Char) (items : List Json) :
    compactItems rest items = separated compact rest items := by
  fun_induction separated compact rest items with
  | case1 => rfl
  | case2 v => rfl
  | case3 v vs hvs ih =>
    rw [compactItems, ih]
    exact hvs

theorem compactFields_eq (rest : List Char) (fields : List (String × Json)) :
    compactFields rest fields = separated field rest fields := by
  fun_induction separated field rest fields with
  | case1 => rfl
  | case2 f => rfl
  | case3 f fs hfs ih =>
    rw [compactFields, ih]
    · rfl
    · exact hfs

section Separated

variable {α : Type} {write : List Char → α → List Char}

theorem separated_append {as : List α}
    (h : ∀ a ∈ as, ∀ r s, write (r ++ s) a = write r a ++ s) (r s : List Char) :
    separated write (r ++ s) as = separated write r as ++ s := by
  fun_induction separated write r as with
  | case1 => rfl
  | case2 a => exact h a List.mem_cons_self r s
  | case3 a as has ih =>
    rw [separated, ih fun b hb => h b (List.mem_cons_of_mem _ hb), ← List.cons_append,
      h a List.mem_cons_self]
    exact has

theorem newline_mem_separated {as : List α}
    (h : ∀ a ∈ as, ∀ r, '\n' ∈ write r a → '\n' ∈ r) {r : List Char}
    (hmem : '\n' ∈ separated write r as) : '\n' ∈ r := by
  fun_induction separated write r as with
  | case1 => exact hmem
  | case2 a => exact h a List.mem_cons_self r hmem
  | case3 a as has ih =>
    have hrest : '\n' ∈ ',' :: separated write r as := h a List.mem_cons_self _ hmem
    refine ih (fun b hb => h b (List.mem_cons_of_mem _ hb)) ?_
    simpa using hrest

/-- What is written for `a` can be read back from the front of a text. -/
def Reads (write : List Char → α → List Char) (a : α) : Prop :=
  ∀ b r s, Text.EndsNumber r → Text.EndsNumber s → write r a = write s b → a = b ∧ r = s

theorem separated_cons (rest : List Char) (a : α) (as : List α) :
    separated write rest (a :: as) =
      write (if as.isEmpty then rest else ',' :: separated write rest as) a := by
  cases as with
  | nil => rfl
  | cons b bs => rfl

/-- A bracket that no item begins with tells where the items end. -/
theorem separated_inj {stop : Char} (hdigit : stop.isDigit = false) (hcomma : stop ≠ ',')
    (hstop : ∀ r a, (write r a).head? ≠ some stop) {as bs : List α}
    (hreads : ∀ a ∈ as, Reads write a) {r s : List Char}
    (h : separated write (stop :: r) as = separated write (stop :: s) bs) : as = bs ∧ r = s := by
  have hends : ∀ (cs : List α) (t : List Char), Text.EndsNumber
      (if cs.isEmpty then stop :: t else ',' :: separated write (stop :: t) cs) := by
    intro cs t
    split
    · exact Text.endsNumber_cons hdigit _
    · exact Text.endsNumber_cons rfl _
  induction as generalizing bs with
  | nil =>
    cases bs with
    | nil => exact ⟨rfl, (List.cons.inj h).2⟩
    | cons b bs =>
      rw [separated_cons] at h
      exact absurd (congrArg List.head? h.symm) (hstop _ b)
  | cons a as ih =>
    rw [separated_cons] at h
    cases bs with
    | nil => exact absurd (congrArg List.head? h) (hstop _ a)
    | cons b bs =>
      rw [separated_cons] at h
      obtain ⟨rfl, hrest⟩ := hreads a List.mem_cons_self b _ _ (hends as r) (hends bs s) h
      -- Either both sequences end here or both go on after a comma.
      cases as with
      | nil =>
        cases bs with
        | nil => exact ⟨rfl, (List.cons.inj hrest).2⟩
        | cons c cs => exact absurd (List.cons.inj hrest).1 hcomma
      | cons d ds =>
        cases bs with
        | nil => exact absurd (List.cons.inj hrest).1.symm hcomma
        | cons c cs =>
          obtain ⟨htail, hr⟩ :=
            ih (fun e he => hreads e (List.mem_cons_of_mem _ he)) (List.cons.inj hrest).2
          exact ⟨by rw [htail], hr⟩

end Separated

/-! ## Values -/

/-- A character that a value may begin with, up to the choice of a digit or of a truth value. -/
def initial (c : Char) : Char := if c.isDigit then '0' else if c == 'f' then 't' else c

/-- What a value begins with, up to the choice of a digit or of a truth value. -/
def lead : Json → Char
  | null => 'n'
  | bool _ => 't'
  | num _ => '0'
  | str _ => '"'
  | arr _ => '['
  | obj _ => '{'

theorem head_compact (r : List Char) (v : Json) :
    (compact r v).head?.map initial = some v.lead := by
  cases v with
  | bool b =>
    cases b with
    | true => rfl
    | false => rfl
  | num n =>
    obtain ⟨c, cs, hn⟩ := List.exists_cons_of_ne_nil (Text.decimal_ne_nil n)
    have hc : c.isDigit := Text.isDigit_of_mem_decimal (by rw [hn]; exact List.mem_cons_self)
    show ((Text.decimal n).toList ++ r).head?.map initial = some '0'
    rw [hn, List.cons_append, List.head?_cons, Option.map_some, initial, if_pos hc]
  | _ => rfl

theorem lead_eq_of_compact_eq {v w : Json} {r s : List Char} (h : compact r v = compact s w) :
    v.lead = w.lead := by
  rw [← Option.some_inj, ← head_compact r v, h, head_compact]

theorem head_compact_ne_bracket (r : List Char) (v : Json) : (compact r v).head? ≠ some ']' := by
  intro h
  have hlead : some (initial ']') = some v.lead := by rw [← head_compact r v, h, Option.map_some]
  cases v <;> cases hlead

theorem compact_append (v : Json) (r s : List Char) : compact (r ++ s) v = compact r v ++ s := by
  induction v using induct generalizing r s with
  | null => rfl
  | bool b =>
    cases b with
    | true => rfl
    | false => rfl
  | num n => exact (List.append_assoc _ _ _).symm
  | str t => exact quote_append r s t
  | arr items ih =>
    rw [compact, compact, compactItems_eq, compactItems_eq, ← List.cons_append,
      separated_append ih, List.cons_append]
  | obj fields ih =>
    have hfield : ∀ f ∈ fields, ∀ r s, field (r ++ s) f = field r f ++ s := by
      intro f hf r s
      rw [field, ih f hf, ← List.cons_append, quote_append, field]
    rw [compact, compact, compactFields_eq, compactFields_eq, ← List.cons_append,
      separated_append hfield, List.cons_append]

theorem newline_mem_compact {v : Json} {r : List Char} (h : '\n' ∈ compact r v) : '\n' ∈ r := by
  induction v using induct generalizing r with
  | null => exact (List.mem_append.1 h).resolve_left (by decide)
  | bool b =>
    cases b with
    | true => exact (List.mem_append.1 h).resolve_left (by decide)
    | false => exact (List.mem_append.1 h).resolve_left (by decide)
  | num n =>
    have hdigits : '\n' ∉ (Text.decimal n).toList :=
      fun hdigit => absurd (Text.isDigit_of_mem_decimal hdigit) (by decide)
    exact (List.mem_append.1 h).resolve_left hdigits
  | str t => exact newline_mem_quote h
  | arr items ih =>
    rw [compact, compactItems_eq] at h
    have hmem : '\n' ∈ ']' :: r := newline_mem_separated (fun v hv r => ih v hv) (by simpa using h)
    simpa using hmem
  | obj fields ih =>
    have hfield : ∀ f ∈ fields, ∀ r, '\n' ∈ field r f → '\n' ∈ r := by
      intro f hf r hmem
      have hvalue : '\n' ∈ ':' :: compact r f.2 := newline_mem_quote hmem
      exact ih f hf (by simpa using hvalue)
    rw [compact, compactFields_eq] at h
    have hmem : '\n' ∈ '}' :: r := newline_mem_separated hfield (by simpa using h)
    simpa using hmem

theorem reads_field {f : String × Json} (h : Reads compact f.2) : Reads field f := by
  intro g r s hr hs heq
  obtain ⟨hkey, hrest⟩ := quote_inj heq
  obtain ⟨hvalue, hrest⟩ := h g.2 r s hr hs (List.cons.inj hrest).2
  exact ⟨Prod.ext hkey hvalue, hrest⟩

theorem reads_compact (v : Json) : Reads compact v := by
  -- What a text begins with leaves one constructor for the value that is read from it.
  induction v using induct with
  | null =>
    intro w r s _ _ h
    have hlead := lead_eq_of_compact_eq h
    cases w with
    | null => exact ⟨rfl, List.append_cancel_left h⟩
    | _ => cases hlead
  | bool b =>
    intro w r s _ _ h
    have hlead := lead_eq_of_compact_eq h
    cases w with
    | bool c =>
      cases b with
      | true =>
        cases c with
        | true => exact ⟨rfl, List.append_cancel_left h⟩
        | false => cases (List.cons.inj h).1
      | false =>
        cases c with
        | true => cases (List.cons.inj h).1
        | false => exact ⟨rfl, List.append_cancel_left h⟩
    | _ => cases hlead
  | num n =>
    intro w r s hr hs h
    have hlead := lead_eq_of_compact_eq h
    cases w with
    | num m =>
      obtain ⟨rfl, hrest⟩ := Text.decimal_append_inj hr hs h
      exact ⟨rfl, hrest⟩
    | _ => cases hlead
  | str t =>
    intro w r s _ _ h
    have hlead := lead_eq_of_compact_eq h
    cases w with
    | str u =>
      obtain ⟨rfl, hrest⟩ := quote_inj h
      exact ⟨rfl, hrest⟩
    | _ => cases hlead
  | arr items ih =>
    intro w r s _ _ h
    have hlead := lead_eq_of_compact_eq h
    cases w with
    | arr others =>
      rw [compact, compact, compactItems_eq, compactItems_eq] at h
      obtain ⟨rfl, hrest⟩ :=
        separated_inj (by decide) (by decide) head_compact_ne_bracket ih (List.cons.inj h).2
      exact ⟨rfl, hrest⟩
    | _ => cases hlead
  | obj fields ih =>
    intro w r s _ _ h
    have hlead := lead_eq_of_compact_eq h
    cases w with
    | obj others =>
      rw [compact, compact, compactFields_eq, compactFields_eq] at h
      have hquote : ∀ r f, (field r f).head? ≠ some '}' := fun _ _ hquote => by cases hquote
      obtain ⟨rfl, hrest⟩ := separated_inj (by decide) (by decide) hquote
        (fun f hf => reads_field (ih f hf)) (List.cons.inj h).2
      exact ⟨rfl, hrest⟩
    | _ => cases hlead

/-! ## Records -/

/-- A value as one line, without the line feed. -/
def line (v : Json) : String := String.ofList (v.compact [])

theorem newline_notMem_line (v : Json) : '\n' ∉ v.line.toList := by
  rw [line, String.toList_ofList]
  exact fun h => List.not_mem_nil (newline_mem_compact h)

theorem record_eq (v : Json) : v.record = v.line ++ "\n" := by
  rw [record, line, ← List.nil_append ['\n'], compact_append, String.ofList_append]

theorem compact_ne_nil (r : List Char) (v : Json) : compact r v ≠ [] := by
  intro h
  have hlead := head_compact r v
  rw [h] at hlead
  cases hlead

theorem flatMap_compact_inj {vs ws : List Json}
    (h : vs.flatMap (compact ['\n']) = ws.flatMap (compact ['\n'])) : vs = ws := by
  have hends : ∀ us : List Json, Text.EndsNumber (['\n'] ++ us.flatMap (compact ['\n'])) :=
    fun us => Text.endsNumber_cons rfl _
  induction vs generalizing ws with
  | nil =>
    cases ws with
    | nil => rfl
    | cons w ws => exact absurd (List.append_eq_nil_iff.1 h.symm).1 (compact_ne_nil _ w)
  | cons v vs ih =>
    cases ws with
    | nil => exact absurd (List.append_eq_nil_iff.1 h).1 (compact_ne_nil _ v)
    | cons w ws =>
      rw [List.flatMap_cons, List.flatMap_cons, ← compact_append, ← compact_append] at h
      obtain ⟨rfl, hrest⟩ := reads_compact v w _ _ (hends vs) (hends ws) h
      rw [ih (List.append_cancel_left hrest)]

/-- Records in a row are known from their text. -/
theorem join_record_inj {vs ws : List Json}
    (h : String.join (vs.map record) = String.join (ws.map record)) : vs = ws := by
  have hjoin : ∀ us : List Json,
      String.join (us.map record) = String.ofList (us.flatMap (compact ['\n'])) := by
    intro us
    simp [String.join_eq, List.flatMap, record, Function.comp_def]
  rw [hjoin, hjoin] at h
  exact flatMap_compact_inj (String.ofList_injective h)

end CodeLift.Json
