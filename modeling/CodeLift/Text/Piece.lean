/-!
# Pieces of a text

Cutting a text at separators, into lines, and testing how it begins. Everything is stated on lists
of characters, where recursion and its lemmas are simplest.
-/

namespace CodeLift.Text

/-- Put `c` in front of the first piece. -/
def consHead (c : Char) : List (List Char) → List (List Char)
  | [] => [[c]]
  | w :: ws => (c :: w) :: ws

/-- The pieces between the characters that satisfy `p`; there is always at least one. -/
def pieces (p : Char → Bool) : List Char → List (List Char)
  | [] => [[]]
  | c :: cs => if p c then [] :: pieces p cs else consHead c (pieces p cs)

/-- A text without separators is one piece. -/
theorem pieces_of_forall {p : Char → Bool} {w : List Char} (h : ∀ c ∈ w, p c = false) :
    pieces p w = [w] := by
  induction w with
  | nil => rfl
  | cons c w ih =>
    obtain ⟨hc, hw⟩ := List.forall_mem_cons.1 h
    simp [pieces, hc, ih hw, consHead]

/-- The first piece is what stands before the first separator. -/
theorem pieces_append {p : Char → Bool} {w : List Char} {c : Char} (h : ∀ c ∈ w, p c = false)
    (hc : p c = true) (rest : List Char) : pieces p (w ++ c :: rest) = w :: pieces p rest := by
  induction w with
  | nil => simp [pieces, hc]
  | cons d w ih =>
    obtain ⟨hd, hw⟩ := List.forall_mem_cons.1 h
    simp [pieces, hd, ih hw, consHead]

/-- Words that were joined by a separator are found again, if they have none themselves. -/
theorem pieces_intercalate {p : Char → Bool} {c : Char} (hc : p c = true) {ws : List (List Char)}
    (hne : ws ≠ []) (h : ∀ w ∈ ws, ∀ d ∈ w, p d = false) :
    pieces p ([c].intercalate ws) = ws := by
  induction ws with
  | nil => exact absurd rfl hne
  | cons w ws ih =>
    obtain ⟨hw, hws⟩ := List.forall_mem_cons.1 h
    cases ws with
    | nil =>
      rw [List.intercalate_singleton]
      exact pieces_of_forall hw
    | cons v ws =>
      rw [List.intercalate_cons_cons, List.append_assoc, List.singleton_append,
        pieces_append hw hc, ih (List.cons_ne_nil v ws) hws]

theorem pieces_ne_nil (p : Char → Bool) (cs : List Char) : pieces p cs ≠ [] := by
  cases cs with
  | nil => simp [pieces]
  | cons c cs =>
    rw [pieces]
    split
    · simp
    · cases pieces p cs <;> simp [consHead]

/-- Whether `s` begins with `start`. -/
def startsWith (s start : String) : Bool := start.toList.isPrefixOf s.toList

/-- `s` without `start` in front, if it begins so. -/
def dropStart? (s start : String) : Option String :=
  if startsWith s start then some (String.ofList (s.toList.drop start.toList.length)) else none

/-- Whether `part` occurs in `cs`. -/
def occursIn (part : List Char) : List Char → Bool
  | [] => part.isEmpty
  | c :: cs => part.isPrefixOf (c :: cs) || occursIn part cs

/-- A line as it stood before its line feed: one carriage return at the end goes too. -/
def dropReturn (cs : List Char) : List Char :=
  match cs.reverse with
  | '\r' :: rest => rest.reverse
  | _ => cs

theorem dropReturn_concat (cs : List Char) : dropReturn (cs ++ ['\r']) = cs := by
  simp [dropReturn]

theorem dropReturn_of_getLast?_ne {cs : List Char} (h : cs.getLast? ≠ some '\r') :
    dropReturn cs = cs := by
  unfold dropReturn
  split
  · next rest hr => simp [List.getLast?_eq_head?_reverse, hr] at h
  · rfl

/-- The lines of a text that was cut at its line feeds. A last piece without a line feed is a line
only if it is not empty, and keeps its carriage return. -/
def closeLines : List (List Char) → List (List Char)
  | [] => []
  | [w] => if w.isEmpty then [] else [w]
  | w :: ws => dropReturn w :: closeLines ws

/-- The lines of `s`, each without its line feed and the carriage return before that. -/
def lines (s : String) : List String :=
  (closeLines (pieces (· == '\n') s.toList)).map String.ofList

/-- The first line is what stands before the first line feed, without a carriage return at its
end. -/
theorem lines_append {w : String} (h : '\n' ∉ w.toList) (rest : String) :
    lines (w ++ "\n" ++ rest) = String.ofList (dropReturn w.toList) :: lines rest := by
  have hw : ∀ c ∈ w.toList, (c == '\n') = false :=
    fun c hc => beq_eq_false_iff_ne.2 (ne_of_mem_of_not_mem hc h)
  have htext : (w ++ "\n" ++ rest).toList = w.toList ++ '\n' :: rest.toList := by
    simp
  obtain ⟨v, vs, hrest⟩ := List.exists_cons_of_ne_nil (pieces_ne_nil (· == '\n') rest.toList)
  rw [lines, lines, htext, pieces_append hw rfl, hrest, closeLines, List.map_cons]
  exact List.cons_ne_nil v vs

/-- A text without line feeds is one line as it stands, and none if it is empty. -/
theorem lines_of_not_mem {s : String} (h : '\n' ∉ s.toList) :
    lines s = if s = "" then [] else [s] := by
  have hs : ∀ c ∈ s.toList, (c == '\n') = false :=
    fun c hc => beq_eq_false_iff_ne.2 (ne_of_mem_of_not_mem hc h)
  rw [lines, pieces_of_forall hs, closeLines]
  by_cases he : s = ""
  · simp [he]
  · simp [he]

example : lines "a\r\n\nb\r" = ["a", "", "b\r"] := by decide

/-- `s` with every line feed followed by `margin`. -/
def indentAfterBreaks (margin s : String) : String :=
  String.ofList (s.toList.flatMap fun c => if c == '\n' then c :: margin.toList else [c])

end CodeLift.Text
