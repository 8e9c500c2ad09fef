import CodeLift.Operands
import Mathlib.Data.List.DropRight
import Mathlib.Tactic.Common

/-!
# Operand lists

Cutting an operand text at its commas and joining operands with commas undo each other. What a cut
has to give is stated as a grammar, `Operands.Lists`: a text is an operand, or an operand at whose
end all brackets are closed, a comma, and such a text. The cut gives the one way to read a text so.
Blanks around operands do not matter to brackets or commas, so they can be trimmed afterwards.
-/

namespace CodeLift

/-! ## Trimming -/

namespace Text

variable {c : Char} {cs : List Char}

/-- The text without its blanks. -/
def unblanked (cs : List Char) : List Char := cs.filter (!isBlank ·)

theorem unblanked_append (as bs : List Char) :
    unblanked (as ++ bs) = unblanked as ++ unblanked bs :=
  List.filter_append as bs

theorem unblanked_eq_nil (h : ∀ c ∈ cs, isBlank c = true) : unblanked cs = [] := by
  rw [unblanked, List.filter_eq_nil_iff]
  intro c hc
  simp [h c hc]

theorem exists_trim (cs : List Char) :
    ∃ front back, cs = front ++ (trim cs ++ back) ∧ (∀ c ∈ front, isBlank c = true) ∧
      ∀ c ∈ back, isBlank c = true := by
  have hfront := List.takeWhile_append_dropWhile (p := isBlank) (l := cs)
  have hback := List.takeWhile_append_dropWhile (p := isBlank) (l := (cs.dropWhile isBlank).reverse)
  refine ⟨cs.takeWhile isBlank, ((cs.dropWhile isBlank).reverse.takeWhile isBlank).reverse,
    ?_, ?_, ?_⟩
  · have hrest : trim cs ++ ((cs.dropWhile isBlank).reverse.takeWhile isBlank).reverse =
        cs.dropWhile isBlank := by
      unfold trim dropEndWhile
      rw [← List.reverse_append, hback, List.reverse_reverse]
    rw [hrest, hfront]
  · exact List.all_eq_true.1 List.all_takeWhile
  · intro c hc
    exact List.all_eq_true.1 List.all_takeWhile c (List.mem_reverse.1 hc)

theorem trim_eq_nil_iff : trim cs = [] ↔ ∀ c ∈ cs, isBlank c = true := by
  constructor
  · intro h c hc
    obtain ⟨front, back, hcs, hfront, hback⟩ := exists_trim cs
    rw [hcs, h, List.nil_append, List.mem_append] at hc
    exact hc.elim (hfront c) (hback c)
  · intro h
    have hnil : cs.dropWhile isBlank = [] := List.dropWhile_eq_nil_iff.2 h
    unfold trim
    rw [hnil]
    rfl

theorem trim_cons_of_blank (h : isBlank c = true) (cs : List Char) : trim (c :: cs) = trim cs := by
  unfold trim
  rw [List.dropWhile_cons_of_pos h]

theorem trim_trim (cs : List Char) : trim (trim cs) = trim cs := by
  have hself : (trim cs).dropWhile isBlank = trim cs := by
    have hpart : trim cs <+: cs.dropWhile isBlank := List.rdropWhile_prefix isBlank _
    have hhead := List.head?_dropWhile_not isBlank cs
    cases htrim : trim cs with
    | nil => rfl
    | cons c rest =>
      obtain ⟨back, hback⟩ := htrim ▸ hpart
      rw [← hback] at hhead
      exact List.dropWhile_cons_of_neg (by simpa using hhead)
  calc trim (trim cs) = dropEndWhile isBlank ((trim cs).dropWhile isBlank) := rfl
    _ = dropEndWhile isBlank (trim cs) := by rw [hself]
    _ = trim cs := List.rdropWhile_idempotent isBlank _

theorem unblanked_trim (cs : List Char) : unblanked (trim cs) = unblanked cs := by
  obtain ⟨front, back, hcs, hfront, hback⟩ := exists_trim cs
  conv_rhs => rw [hcs]
  rw [unblanked_append, unblanked_append, unblanked_eq_nil hfront, unblanked_eq_nil hback,
    List.nil_append, List.append_nil]

end Text

namespace Operands

/-! ## Brackets and commas -/

variable {d : Nat} {c : Char} {cs w before after : List Char} {ws as : List (List Char)}

/-- The bracket depth after a text that begins at depth `d`. -/
def depthFrom (d : Nat) (cs : List Char) : Nat := cs.foldl depthAfter d

/-- The text, which begins at depth `d`, has a comma outside all brackets. -/
def OpenComma (d : Nat) (cs : List Char) : Prop :=
  ∃ before after, cs = before ++ ',' :: after ∧ depthFrom d before = 0

theorem depthFrom_append (d : Nat) (as bs : List Char) :
    depthFrom d (as ++ bs) = depthFrom (depthFrom d as) bs :=
  List.foldl_append

theorem depthAfter_comma (d : Nat) : depthAfter d ',' = d := rfl

theorem depthAfter_of_blank (h : Text.isBlank c = true) (d : Nat) : depthAfter d c = d := by
  have hother : c ∉ ['[', '{', '(', ']', '}', ')'] := by
    intro hc
    have hall : (['[', '{', '(', ']', '}', ')'].all fun b => !Text.isBlank b) = true := by decide
    simpa [h] using List.all_eq_true.1 hall c hc
  simp only [List.mem_cons, List.not_mem_nil, or_false, not_or] at hother
  simp [depthAfter, hother]

theorem depthFrom_of_blank (h : ∀ c ∈ cs, Text.isBlank c = true) (d : Nat) :
    depthFrom d cs = d := by
  induction cs with
  | nil => rfl
  | cons c cs ih =>
    obtain ⟨hc, hcs⟩ := List.forall_mem_cons.1 h
    have hstep : depthFrom d (c :: cs) = depthFrom (depthAfter d c) cs := rfl
    rw [hstep, depthAfter_of_blank hc, ih hcs]

theorem openComma_cons :
    OpenComma d (c :: cs) ↔ c = ',' ∧ d = 0 ∨ OpenComma (depthAfter d c) cs := by
  constructor
  · rintro ⟨before, after, hcs, hdepth⟩
    cases before with
    | nil =>
      obtain ⟨rfl, rfl⟩ := List.cons.inj hcs
      exact .inl ⟨rfl, hdepth⟩
    | cons b before =>
      obtain ⟨rfl, rfl⟩ := List.cons.inj hcs
      exact .inr ⟨before, after, rfl, hdepth⟩
  · rintro (⟨rfl, rfl⟩ | ⟨before, after, rfl, hdepth⟩)
    · exact ⟨[], cs, rfl, rfl⟩
    · exact ⟨c :: before, after, rfl, hdepth⟩

instance decidableOpenComma (d : Nat) : (cs : List Char) → Decidable (OpenComma d cs)
  | [] => isFalse fun ⟨_, _, hcs, _⟩ => by simp at hcs
  | c :: cs =>
    have := decidableOpenComma (depthAfter d c) cs
    decidable_of_iff _ openComma_cons.symm

theorem not_openComma_of_blank (h : ∀ c ∈ cs, Text.isBlank c = true) : ¬ OpenComma d cs := by
  rintro ⟨before, after, rfl, -⟩
  have hcomma := h ',' (by simp)
  cases hcomma

theorem depthFrom_trim (d : Nat) (cs : List Char) :
    depthFrom d (Text.trim cs) = depthFrom d cs := by
  obtain ⟨front, back, hcs, hfront, hback⟩ := Text.exists_trim cs
  conv_rhs => rw [hcs]
  rw [depthFrom_append, depthFrom_append, depthFrom_of_blank hfront, depthFrom_of_blank hback]

theorem openComma_of_trim (h : OpenComma d (Text.trim cs)) : OpenComma d cs := by
  obtain ⟨front, back, hcs, hfront, -⟩ := Text.exists_trim cs
  obtain ⟨before, after, htrim, hdepth⟩ := h
  refine ⟨front ++ before, after ++ back, ?_, ?_⟩
  · rw [hcs, htrim]
    simp
  · rw [depthFrom_append, depthFrom_of_blank hfront, hdepth]

/-! ## Cutting at commas -/

/-- `ws` are the pieces of the text between its open commas. -/
inductive Lists : List Char → List (List Char) → Prop where
  | single {w : List Char} (hw : ¬ OpenComma 0 w) : Lists w [w]
  | cons {w cs : List Char} {ws : List (List Char)} (hw : ¬ OpenComma 0 w)
      (hlevel : depthFrom 0 w = 0) (hrest : Lists cs ws) : Lists (w ++ ',' :: cs) (w :: ws)

theorem cut_cons_of_not (h : ¬ (c = ',' ∧ d = 0)) (cs : List Char) :
    cut d (c :: cs) = Text.consHead c (cut (depthAfter d c) cs) := by
  have hcomma : (c == ',' && d == 0) = false := by
    rw [Bool.eq_false_iff]
    simpa using h
  simp [cut, hcomma]

theorem cut_ne_nil (d : Nat) (cs : List Char) : cut d cs ≠ [] := by
  cases cs with
  | nil => simp [cut]
  | cons c cs =>
    by_cases h : c = ',' ∧ d = 0
    · simp [cut, h]
    · rw [cut_cons_of_not h]
      cases cut (depthAfter d c) cs with
      | nil => simp [Text.consHead]
      | cons w ws => simp [Text.consHead]

theorem cut_of_not_openComma (h : ¬ OpenComma d cs) : cut d cs = [cs] := by
  induction cs generalizing d with
  | nil => rfl
  | cons c cs ih =>
    rw [openComma_cons, not_or] at h
    rw [cut_cons_of_not h.1, ih h.2]
    rfl

/-- A comma outside all brackets cuts the text in two, whatever comes before and after. -/
theorem cut_append (h : depthFrom d before = 0) (after : List Char) :
    cut d (before ++ ',' :: after) = cut d before ++ cut 0 after := by
  induction before generalizing d with
  | nil =>
    obtain rfl : d = 0 := h
    simp [cut]
  | cons c before ih =>
    have hrest := ih (d := depthAfter d c) h
    by_cases hcut : c = ',' ∧ d = 0
    · obtain ⟨rfl, rfl⟩ := hcut
      rw [depthAfter_comma] at hrest
      simp [cut, hrest]
    · rw [List.cons_append, cut_cons_of_not hcut, cut_cons_of_not hcut, hrest]
      cases hfirst : cut (depthAfter d c) before with
      | nil => exact absurd hfirst (cut_ne_nil _ _)
      | cons w ws => rfl

/-- The first open comma. -/
theorem exists_first_comma (h : OpenComma d cs) :
    ∃ before after, cs = before ++ ',' :: after ∧ depthFrom d before = 0 ∧
      ¬ OpenComma d before := by
  induction cs generalizing d with
  | nil =>
    obtain ⟨before, after, hcs, -⟩ := h
    simp at hcs
  | cons c cs ih =>
    by_cases hcut : c = ',' ∧ d = 0
    · obtain ⟨rfl, rfl⟩ := hcut
      refine ⟨[], cs, rfl, rfl, ?_⟩
      rintro ⟨before, after, hcs, -⟩
      simp at hcs
    · obtain ⟨before, after, rfl, hdepth, hclosed⟩ := ih ((openComma_cons.1 h).resolve_left hcut)
      refine ⟨c :: before, after, rfl, hdepth, ?_⟩
      rw [openComma_cons]
      exact not_or.2 ⟨hcut, hclosed⟩

theorem Lists.cut_eq (h : Lists cs ws) : cut 0 cs = ws := by
  induction h with
  | single hw => exact cut_of_not_openComma hw
  | cons hw hlevel hrest ih =>
    rw [cut_append hlevel, cut_of_not_openComma hw, ih, List.singleton_append]

theorem lists_cut (cs : List Char) : Lists cs (cut 0 cs) := by
  induction hn : cs.length using Nat.strong_induction_on generalizing cs with
  | _ n ih =>
    by_cases hopen : OpenComma 0 cs
    · obtain ⟨before, after, rfl, hdepth, hclosed⟩ := exists_first_comma hopen
      have hshorter : after.length < n := by
        rw [List.length_append, List.length_cons] at hn
        omega
      rw [cut_append hdepth, cut_of_not_openComma hclosed]
      exact .cons hclosed hdepth (ih after.length hshorter after rfl)
    · rw [cut_of_not_openComma hopen]
      exact .single hopen

theorem cut_eq_iff : cut 0 cs = ws ↔ Lists cs ws :=
  ⟨fun h => h ▸ lists_cut cs, Lists.cut_eq⟩

namespace Lists

theorem ne_nil (h : Lists cs ws) : ws ≠ [] := by
  cases h with
  | single hw => exact List.cons_ne_nil _ _
  | cons hw hlevel hrest => exact List.cons_ne_nil _ _

theorem intercalate_eq (h : Lists cs ws) : [','].intercalate ws = cs := by
  induction h with
  | single hw => exact List.intercalate_singleton
  | cons hw hlevel hrest ih =>
    rw [List.intercalate_cons_of_ne_nil hrest.ne_nil, ih, List.append_assoc, List.singleton_append]

theorem not_openComma (h : Lists cs ws) : ∀ w ∈ ws, ¬ OpenComma 0 w := by
  induction h with
  | single hw =>
    intro v hv
    rwa [List.mem_singleton.1 hv]
  | cons hw hlevel hrest ih =>
    intro v hv
    rcases List.mem_cons.1 hv with rfl | hv
    · exact hw
    · exact ih v hv

theorem level (h : Lists cs ws) : ∀ w ∈ ws.dropLast, depthFrom 0 w = 0 := by
  induction h with
  | single hw =>
    intro v hv
    simp at hv
  | cons hw hlevel hrest ih =>
    intro v hv
    rw [List.dropLast_cons_of_ne_nil hrest.ne_nil] at hv
    rcases List.mem_cons.1 hv with rfl | hv
    · exact hlevel
    · exact ih v hv

/-- What stands before the last piece ends in a comma outside all brackets. -/
theorem exists_before {us : List (List Char)} {r : List Char} (h : Lists cs (us ++ [r]))
    (hne : us ≠ []) :
    ∃ before, cs = before ++ ',' :: r ∧ depthFrom 0 before = 0 ∧ Lists before us := by
  generalize hws : us ++ [r] = ws at h
  induction h generalizing us with
  | single hw =>
    cases us with
    | nil => exact absurd rfl hne
    | cons v us => simp at hws
  | @cons w cs ws hw hlevel hrest ih =>
    cases us with
    | nil => exact absurd rfl hne
    | cons v us =>
      rw [List.cons_append] at hws
      obtain ⟨rfl, rfl⟩ := List.cons.inj hws
      by_cases hus : us = []
      · have hcs := hrest.intercalate_eq
        rw [hus, List.nil_append, List.intercalate_singleton] at hcs
        rw [hus, hcs]
        exact ⟨v, rfl, hlevel, .single hw⟩
      · obtain ⟨before, rfl, hdepth, hbefore⟩ := ih hus rfl
        refine ⟨v ++ ',' :: before, ?_, ?_, .cons hw hlevel hbefore⟩
        · rw [List.append_assoc, List.cons_append]
        · rw [depthFrom_append, hlevel]
          exact hdepth

theorem cons_blank (h : Lists cs (w :: ws)) (hc : Text.isBlank c = true) :
    Lists (c :: cs) ((c :: w) :: ws) := by
  have hcomma : ¬ (c = ',' ∧ (0 : Nat) = 0) := by
    rintro ⟨rfl, -⟩
    cases hc
  have hclosed : ¬ OpenComma 0 w → ¬ OpenComma 0 (c :: w) := by
    intro hw
    rw [openComma_cons, depthAfter_of_blank hc]
    exact not_or.2 ⟨hcomma, hw⟩
  have hdepth : depthFrom 0 (c :: w) = depthFrom 0 w := by
    show depthFrom (depthAfter 0 c) w = depthFrom 0 w
    rw [depthAfter_of_blank hc]
  cases h with
  | single hw => exact .single (hclosed hw)
  | cons hw hlevel hrest => exact .cons (hclosed hw) (hdepth.trans hlevel) hrest

end Lists

/-! ## Operands without the blanks around them -/

/-- Operands that can be told apart when they stand in a list. -/
structure Separable (as : List (List Char)) : Prop where
  trimmed : ∀ a ∈ as, Text.trim a = a
  /-- No comma of an operand is outside its brackets. -/
  closed : ∀ a ∈ as, ¬ OpenComma 0 a
  /-- Every operand but the last closes its brackets. -/
  level : ∀ a ∈ as.dropLast, depthFrom 0 a = 0

theorem dropEmptyLast_concat (vs : List (List Char)) (w : List Char) :
    dropEmptyLast (vs ++ [w]) = if w = [] then vs else vs ++ [w] := by
  induction vs with
  | nil => simp [dropEmptyLast]
  | cons v vs ih =>
    have hstep : dropEmptyLast (v :: (vs ++ [w])) = v :: dropEmptyLast (vs ++ [w]) := by
      cases vs with
      | nil => rfl
      | cons u vs => rfl
    rw [List.cons_append, hstep, ih]
    split
    · rfl
    · rfl

theorem Separable.tail {a : List Char} (h : Separable (a :: as)) : Separable as where
  trimmed b hb := h.trimmed b (List.mem_cons_of_mem _ hb)
  closed b hb := h.closed b (List.mem_cons_of_mem _ hb)
  level b hb := by
    cases as with
    | nil => simp at hb
    | cons a' as => exact h.level b (List.mem_cons_of_mem _ hb)

theorem Separable.of_concat {a : List Char} (h : Separable (as ++ [a])) : Separable as where
  trimmed b hb := h.trimmed b (List.mem_append_left _ hb)
  closed b hb := h.closed b (List.mem_append_left _ hb)
  level b hb := by
    have hmem : b ∈ (as ++ [a]).dropLast := by
      rw [List.dropLast_concat]
      exact List.dropLast_subset as hb
    exact h.level b hmem

theorem Lists.separable (h : Lists cs ws) : Separable (ws.map Text.trim) where
  trimmed a ha := by
    obtain ⟨w, -, rfl⟩ := List.mem_map.1 ha
    exact Text.trim_trim w
  closed a ha := by
    obtain ⟨w, hw, rfl⟩ := List.mem_map.1 ha
    exact fun hopen => h.not_openComma w hw (openComma_of_trim hopen)
  level a ha := by
    rw [← List.map_dropLast] at ha
    obtain ⟨w, hw, rfl⟩ := List.mem_map.1 ha
    rw [depthFrom_trim]
    exact h.level w hw

/-- The operands are the pieces without the blanks around them. A blank last piece is none. -/
theorem exists_pieces (cs : List Char) :
    ∃ us r, Lists cs (us ++ [r]) ∧
      splitChars cs =
        if Text.trim r = [] then us.map Text.trim else us.map Text.trim ++ [Text.trim r] := by
  have hlists : Lists cs (cut 0 cs) := cut_eq_iff.1 rfl
  obtain hnil | ⟨us, r, hpieces⟩ := (cut 0 cs).eq_nil_or_concat'
  · exact absurd hnil hlists.ne_nil
  · refine ⟨us, r, hpieces ▸ hlists, ?_⟩
    rw [splitChars, hpieces, List.map_append, List.map_singleton, dropEmptyLast_concat]

theorem separable_splitChars (cs : List Char) : Separable (splitChars cs) := by
  obtain ⟨us, r, hlists, hsplit⟩ := exists_pieces cs
  have hall := hlists.separable
  rw [List.map_append, List.map_singleton] at hall
  rw [hsplit]
  split
  · exact hall.of_concat
  · exact hall

/-! ## Splitting what was joined -/

theorem lists_join {a : List Char} (h : Separable (a :: as)) :
    Lists ([',', ' '].intercalate (a :: as)) (a :: as.map (' ' :: ·)) := by
  induction as generalizing a with
  | nil =>
    rw [List.intercalate_singleton]
    exact .single (h.closed a List.mem_cons_self)
  | cons b as ih =>
    have hrest := (ih h.tail).cons_blank (c := ' ') rfl
    have hjoin : [',', ' '].intercalate (a :: b :: as) =
        a ++ ',' :: ' ' :: [',', ' '].intercalate (b :: as) := by
      rw [List.intercalate_cons_cons, List.append_assoc]
      rfl
    rw [hjoin]
    exact .cons (h.closed a List.mem_cons_self) (h.level a List.mem_cons_self) hrest

theorem splitChars_join (h : Separable as) (hlast : as.getLast? ≠ some []) :
    splitChars ([',', ' '].intercalate as) = as := by
  cases as with
  | nil => rfl
  | cons a as =>
    have htrim : (a :: as.map (' ' :: ·)).map Text.trim = a :: as := by
      have hblank (b : List Char) (hb : b ∈ as) : Text.trim (' ' :: b) = b := by
        rw [Text.trim_cons_of_blank rfl]
        exact h.trimmed b (List.mem_cons_of_mem _ hb)
      rw [List.map_cons, List.map_map, h.trimmed a List.mem_cons_self]
      congr 1
      calc as.map (Text.trim ∘ (' ' :: ·)) = as.map id := List.map_congr_left hblank
        _ = as := List.map_id as
    obtain hnil | ⟨bs, b, hb⟩ := (a :: as).eq_nil_or_concat'
    · cases hnil
    · rw [hb, List.getLast?_concat] at hlast
      rw [splitChars, cut_eq_iff.2 (lists_join h), htrim, hb, dropEmptyLast_concat, if_neg]
      exact fun hnil => hlast (congrArg some hnil)

/-! ## Joining what was split -/

/-- The text has an open comma, and what follows the last one is blank. -/
def EndsInComma (cs : List Char) : Prop :=
  ∃ before after, cs = before ++ ',' :: after ∧ depthFrom 0 before = 0 ∧
    ∀ c ∈ after, Text.isBlank c = true

theorem endsInComma_iff {us : List (List Char)} {r : List Char} (h : Lists cs (us ++ [r])) :
    EndsInComma cs ↔ us ≠ [] ∧ Text.trim r = [] := by
  constructor
  · rintro ⟨before, after, rfl, hdepth, hblank⟩
    have hcut := cut_eq_iff.2 h
    rw [cut_append hdepth, cut_of_not_openComma (not_openComma_of_blank hblank)] at hcut
    obtain ⟨rfl, hr⟩ := List.append_inj' hcut rfl
    obtain rfl := List.singleton_inj.1 hr
    exact ⟨cut_ne_nil 0 before, Text.trim_eq_nil_iff.2 hblank⟩
  · rintro ⟨hne, hblank⟩
    obtain ⟨before, hcs, hdepth, -⟩ := h.exists_before hne
    exact ⟨before, r, hcs, hdepth, Text.trim_eq_nil_iff.1 hblank⟩

theorem Lists.unblanked_eq (h : Lists cs ws) :
    Text.unblanked ([','].intercalate (ws.map Text.trim)) = Text.unblanked cs := by
  induction h with
  | single hw => rw [List.map_singleton, List.intercalate_singleton, Text.unblanked_trim]
  | cons hw hlevel hrest ih =>
    have hne := hrest.ne_nil
    rw [List.map_cons, List.intercalate_cons_of_ne_nil (by simpa using hne), Text.unblanked_append,
      Text.unblanked_append, Text.unblanked_trim, ih, ← Text.unblanked_append,
      ← Text.unblanked_append, List.append_assoc, List.singleton_append]

theorem unblanked_of_endsInComma (h : EndsInComma cs) :
    Text.unblanked cs = Text.unblanked ([','].intercalate (splitChars cs)) ++ [','] := by
  obtain ⟨us, r, hlists, hsplit⟩ := exists_pieces cs
  obtain ⟨hne, hblank⟩ := (endsInComma_iff hlists).1 h
  obtain ⟨before, hcs, -, hbefore⟩ := hlists.exists_before hne
  have hr : Text.unblanked (',' :: r) = [','] := by
    show ',' :: Text.unblanked r = [',']
    rw [Text.unblanked_eq_nil (Text.trim_eq_nil_iff.1 hblank)]
  rw [hsplit, if_pos hblank, hbefore.unblanked_eq, hcs, Text.unblanked_append, hr]

theorem unblanked_of_not_endsInComma (h : ¬ EndsInComma cs) :
    Text.unblanked cs = Text.unblanked ([','].intercalate (splitChars cs)) := by
  obtain ⟨us, r, hlists, hsplit⟩ := exists_pieces cs
  rw [endsInComma_iff hlists] at h
  by_cases hblank : Text.trim r = []
  · -- the text has no comma and is blank
    obtain rfl : us = [] := not_not.1 fun hne => h ⟨hne, hblank⟩
    obtain rfl : r = cs := by
      rw [← hlists.intercalate_eq, List.nil_append, List.intercalate_singleton]
    rw [hsplit, if_pos hblank, Text.unblanked_eq_nil (Text.trim_eq_nil_iff.1 hblank)]
    rfl
  · have hmap : us.map Text.trim ++ [Text.trim r] = (us ++ [r]).map Text.trim := by
      rw [List.map_append, List.map_singleton]
    rw [hsplit, if_neg hblank, hmap, hlists.unblanked_eq]

/-- Splitting takes apart what was joined: operands that can be told apart, of which the last is not
empty, are found again. Whatever the text, the operands found can be told apart, and joined they are
the text but for blanks and for a comma that no operand follows. -/
theorem split_undoes_join :
    (∀ args : List String, Separable (args.map String.toList) → args.getLast? ≠ some "" →
      split (", ".intercalate args) = args) ∧
      (∀ s : String, Separable ((split s).map String.toList)) ∧
      ∀ s : String,
        (EndsInComma s.toList →
          Text.unblanked s.toList = Text.unblanked (",".intercalate (split s)).toList ++ [',']) ∧
          (¬ EndsInComma s.toList →
            Text.unblanked s.toList = Text.unblanked (",".intercalate (split s)).toList) := by
  have hchars (s : String) : (split s).map String.toList = splitChars s.toList := by
    simp [split, Function.comp_def]
  have hjoin (s : String) :
      (",".intercalate (split s)).toList = [','].intercalate (splitChars s.toList) := by
    rw [String.toList_intercalate, hchars]
    rfl
  refine ⟨?_, ?_, ?_⟩
  · intro args hargs hlast
    have hne : (args.map String.toList).getLast? ≠ some [] := by
      rw [List.getLast?_map]
      intro h
      obtain ⟨a, ha, hnil⟩ := Option.map_eq_some_iff.1 h
      rw [String.toList_eq_nil_iff.1 hnil] at ha
      exact hlast ha
    have hsep : ", ".toList = [',', ' '] := rfl
    rw [split, String.toList_intercalate, hsep, splitChars_join hargs hne, List.map_map]
    simp [Function.comp_def]
  · intro s
    rw [hchars]
    exact separable_splitChars s.toList
  · intro s
    rw [hjoin]
    exact ⟨unblanked_of_endsInComma, unblanked_of_not_endsInComma⟩

/-- Commas in brackets, an empty operand, a bracket that stays open, and a comma at the end. -/
theorem split_undoes_join_sample :
    split "[eax, 1], , (r4," = ["[eax, 1]", "", "(r4,"] ∧
      EndsInComma " a ,b ,\t".toList ∧
      Text.unblanked " a ,b ,\t".toList =
        Text.unblanked (",".intercalate (split " a ,b ,\t")).toList ++ [','] := by
  have hargs : Separable (["[eax, 1]", "", "(r4,"].map String.toList) :=
    ⟨by decide, by decide, by decide⟩
  have hends : EndsInComma " a ,b ,\t".toList :=
    ⟨" a ,b ".toList, ['\t'], rfl, rfl, List.forall_mem_singleton.2 rfl⟩
  obtain ⟨hjoin, -, hsplit⟩ := split_undoes_join
  exact ⟨hjoin ["[eax, 1]", "", "(r4,"] hargs (by decide), hends, (hsplit " a ,b ,\t").1 hends⟩

end Operands

end CodeLift
