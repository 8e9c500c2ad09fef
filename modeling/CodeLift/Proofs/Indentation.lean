import CodeLift.Proofs.Json

/-!
# Values over several lines

A value that is written over several lines differs from the same value on one line only in blanks
and line feeds that stand outside its strings. They can be taken out again, whatever the strings
are: a string goes on to the first quote that is not escaped. So a value is known from its document,
since it is known from its line.
-/

namespace CodeLift.Json

/-! ## Blanks outside strings -/

mutual

/-- A text that begins outside a string, without the blanks and line feeds outside strings. -/
def squeeze : List Char → List Char
  | [] => []
  | '"' :: cs => '"' :: squeezeString cs
  | ' ' :: cs => squeeze cs
  | '\n' :: cs => squeeze cs
  | c :: cs => c :: squeeze cs

/-- A text that begins inside a string, without the blanks and line feeds outside strings. -/
def squeezeString : List Char → List Char
  | [] => []
  | '"' :: cs => '"' :: squeeze cs
  | '\\' :: c :: cs => '\\' :: c :: squeezeString cs
  | c :: cs => c :: squeezeString cs

end

/-- Outside strings the character stays. -/
def Solid (c : Char) : Prop := c ≠ '"' ∧ c ≠ ' ' ∧ c ≠ '\n'

instance (c : Char) : Decidable (Solid c) :=
  inferInstanceAs (Decidable (c ≠ '"' ∧ c ≠ ' ' ∧ c ≠ '\n'))

theorem squeeze_cons {c : Char} (h : Solid c) (cs : List Char) :
    squeeze (c :: cs) = c :: squeeze cs := by
  obtain ⟨hquote, hblank, hnewline⟩ := h
  rw [squeeze]
  · exact hquote
  · exact hblank
  · exact hnewline

theorem squeeze_append {cs : List Char} (h : ∀ c ∈ cs, Solid c) (rest : List Char) :
    squeeze (cs ++ rest) = cs ++ squeeze rest := by
  induction cs with
  | nil => rfl
  | cons c cs ih =>
    rw [List.cons_append, squeeze_cons (h c List.mem_cons_self),
      ih fun d hd => h d (List.mem_cons_of_mem _ hd), List.cons_append]

theorem squeezeString_cons {c : Char} (hquote : c ≠ '"') (hslash : c ≠ '\\') (cs : List Char) :
    squeezeString (c :: cs) = c :: squeezeString cs := by
  rw [squeezeString]
  · exact hquote
  · exact fun _ _ h _ => hslash h

theorem squeezeString_escapeChar (c : Char) (rest : List Char) :
    squeezeString (escapeChar c ++ rest) = escapeChar c ++ squeezeString rest := by
  obtain ⟨letter, -, h⟩ | ⟨hcontrol, h⟩ | ⟨hquote, hslash, -, h⟩ := escapeChar_cases c
  · rw [h]
    simp [squeezeString]
  · have hdigit : ∀ d < 16, Nat.digitChar d ≠ '"' ∧ Nat.digitChar d ≠ '\\' := by decide
    obtain ⟨hq₁, hs₁⟩ := hdigit (c.toNat / 16) (by omega)
    obtain ⟨hq₂, hs₂⟩ := hdigit (c.toNat % 16) (by omega)
    rw [h]
    simp [squeezeString, squeezeString_cons, hq₁, hs₁, hq₂, hs₂]
  · rw [h]
    exact squeezeString_cons hquote hslash rest

theorem squeezeString_flatMap (cs rest : List Char) :
    squeezeString (cs.flatMap escapeChar ++ '"' :: rest) =
      cs.flatMap escapeChar ++ '"' :: squeeze rest := by
  induction cs with
  | nil => rfl
  | cons c cs ih =>
    rw [List.flatMap_cons, List.append_assoc, squeezeString_escapeChar, ih, List.append_assoc]

theorem squeeze_quote (rest : List Char) (k : String) :
    squeeze (quote rest k) = quote (squeeze rest) k := by
  rw [quote, squeeze, squeezeString_flatMap, quote]

theorem squeeze_newline (level : Nat) (rest : List Char) :
    squeeze (newline level rest) = squeeze rest := by
  have hblanks : ∀ n, squeeze (List.replicate n ' ' ++ rest) = squeeze rest := by
    intro n
    induction n with
    | zero => rfl
    | succ n ih => rw [List.replicate_succ, List.cons_append, squeeze, ih]
  rw [newline, squeeze, hblanks]

theorem squeeze_closing {α : Type} (level : Nat) (items : List α) (rest : List Char) :
    squeeze (closing level items rest) = squeeze rest := by
  unfold closing
  split
  · rfl
  · exact squeeze_newline level rest

theorem squeeze_scalar (rest : List Char) (v : Json) :
    squeeze (scalar rest v) = scalar (squeeze rest) v := by
  have hword : ∀ cs : List Char, (∀ c ∈ cs, Solid c) → squeeze (cs ++ rest) = cs ++ squeeze rest :=
    fun cs h => squeeze_append h rest
  cases v with
  | null => exact hword _ (by simp [Solid])
  | bool b =>
    cases b with
    | true => exact hword _ (by simp [Solid])
    | false => exact hword _ (by simp [Solid])
  | num n =>
    refine hword _ fun c hc => ?_
    have hdigit := Text.isDigit_of_mem_decimal hc
    refine ⟨?_, ?_, ?_⟩
    all_goals
      rintro rfl
      exact absurd hdigit (by decide)
  | str s => exact squeeze_quote rest s
  | arr items => rfl
  | obj fields => rfl

/-! ## Documents -/

/-- An item on lines of its own, in front of `rest`. -/
def ownLine (level : Nat) (rest : List Char) (v : Json) : List Char :=
  newline level (pretty level rest v)

/-- A field on lines of its own, in front of `rest`. -/
def ownLineField (level : Nat) (rest : List Char) (f : String × Json) : List Char :=
  newline level (quote (':' :: ' ' :: pretty level rest f.2) f.1)

theorem prettyItems_eq (level : Nat) (rest : List Char) (items : List Json) :
    prettyItems level rest items = separated (ownLine level) rest items := by
  fun_induction separated (ownLine level) rest items with
  | case1 => rfl
  | case2 v => rfl
  | case3 v vs hvs ih =>
    rw [prettyItems, ih]
    · rfl
    · exact hvs

theorem prettyFields_eq (level : Nat) (rest : List Char) (fields : List (String × Json)) :
    prettyFields level rest fields = separated (ownLineField level) rest fields := by
  fun_induction separated (ownLineField level) rest fields with
  | case1 => rfl
  | case2 f => rfl
  | case3 f fs hfs ih =>
    rw [prettyFields, ih]
    · rfl
    · exact hfs

theorem squeeze_separated {α : Type} {write write' : List Char → α → List Char} {as : List α}
    (h : ∀ a ∈ as, ∀ r, squeeze (write r a) = write' (squeeze r) a) (rest : List Char) :
    squeeze (separated write rest as) = separated write' (squeeze rest) as := by
  fun_induction separated write rest as with
  | case1 => rfl
  | case2 a => exact h a List.mem_cons_self rest
  | case3 a as has ih =>
    rw [separated, h a List.mem_cons_self, squeeze_cons (by decide),
      ih fun b hb => h b (List.mem_cons_of_mem _ hb)]
    exact has

/-- A value over several lines is the value on one line, but for blanks and line feeds outside
strings. -/
theorem squeeze_pretty (level : Nat) (rest : List Char) (v : Json) :
    squeeze (pretty level rest v) = compact (squeeze rest) v := by
  induction v using induct generalizing level rest with
  | null => exact squeeze_scalar rest null
  | bool b => exact squeeze_scalar rest (bool b)
  | num n => exact squeeze_scalar rest (num n)
  | str s => exact squeeze_scalar rest (str s)
  | arr items ih =>
    have hitem : ∀ v ∈ items, ∀ r, squeeze (ownLine (level + 1) r v) = compact (squeeze r) v := by
      intro v hv r
      rw [ownLine, squeeze_newline, ih v hv]
    rw [pretty, compact, prettyItems_eq, compactItems_eq, squeeze_cons (by decide),
      squeeze_separated hitem, squeeze_closing, squeeze_cons (by decide)]
  | obj fields ih =>
    have hfield : ∀ f ∈ fields, ∀ r,
        squeeze (ownLineField (level + 1) r f) = field (squeeze r) f := by
      intro f hf r
      rw [ownLineField, squeeze_newline, squeeze_quote, squeeze_cons (by decide), squeeze,
        ih f hf, field]
    rw [pretty, compact, prettyFields_eq, compactFields_eq, squeeze_cons (by decide),
      squeeze_separated hfield, squeeze_closing, squeeze_cons (by decide)]

/-- A value is known from its document. -/
theorem document_inj {v w : Json} (h : v.document = w.document) : v = w := by
  have hcompact : compact [] v = compact [] w := by
    have hsqueeze := congrArg squeeze (String.ofList_injective h)
    rwa [squeeze_pretty, squeeze_pretty] at hsqueeze
  exact (reads_compact v w [] [] rfl rfl hcompact).1

end CodeLift.Json
