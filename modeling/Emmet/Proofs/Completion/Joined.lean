import Emmet.Engine.Lookup
import Emmet.Proofs.Abbreviation.Range
import Emmet.Proofs.Completion.Origin

/-!
# A document as a text and as a list of lines

A document is one text or a list of lines, and both are asked for lines by number. Where a text is
put together from lines, it has the same lines but for the last one: if nothing stands behind its
last line feed, the text has no line there, while the list still has an empty one.

* `Text.lines_intercalate` : the lines of a text that was put together from lines;
* `Document.line?_joined_cases` : so the text and the list have the same line at a number, or the
  list has an empty line at its end and the text has none;
* `Extraction.value_ofLine_empty` : in an empty line there is nothing to complete;
* `Completion.value_complete_joined` : so completions are the same for both.
-/

namespace Emmet

/-! ### Lines that are put together -/

namespace Text

/-- A text that stands between two lines. -/
def IsLineBreak (sep : String) : Prop := sep = "\n" ∨ sep = "\r\n"

/-- A line that is not broken in two when it is read as a part of a text, and does not lose its last
character to the line break behind it. -/
structure IsLine (line : String) : Prop where
  newline_not_mem : '\n' ∉ line.toList
  getLast?_ne : line.toList.getLast? ≠ some '\r'

/-- The lines without an empty one at the end. -/
def dropEmptyEnd : List String → List String
  | [] => []
  | [line] => if line = "" then [] else [line]
  | line :: next :: rest => line :: dropEmptyEnd (next :: rest)

variable {line sep : String} {texts : List String} {cs : List Char}

theorem linesAfter_of_not_mem {before : List Char} (h : '\n' ∉ cs) (hne : before ++ cs ≠ []) :
    linesAfter before cs = [before.reverse ++ cs] := by
  induction cs generalizing before with
  | nil =>
    cases before with
    | nil => exact absurd rfl hne
    | cons c before => rw [linesAfter, List.append_nil]; exact nofun
  | cons c cs ih =>
    obtain ⟨hc, hcs⟩ := List.ne_and_not_mem_of_not_mem_cons h
    rw [linesAfter, if_neg (Ne.symm hc), ih hcs (by simp)]
    simp

theorem linesAfter_append {before : List Char} (h : '\n' ∉ cs) (rest : List Char) :
    linesAfter before (cs ++ '\n' :: rest) =
      (dropReturn (cs.reverse ++ before)).reverse :: lines rest := by
  induction cs generalizing before with
  | nil => rw [List.nil_append, linesAfter, if_pos rfl]; rfl
  | cons c cs ih =>
    obtain ⟨hc, hcs⟩ := List.ne_and_not_mem_of_not_mem_cons h
    rw [List.cons_append, linesAfter, if_neg (Ne.symm hc), ih hcs]
    simp

theorem dropReturn_eq_self (h : cs.head? ≠ some '\r') : dropReturn cs = cs := by
  unfold dropReturn
  split
  · exact absurd rfl h
  · rfl

/-- A line is read up to the line break behind it. -/
theorem lines_append (hline : IsLine line) (hsep : IsLineBreak sep) (rest : List Char) :
    lines (line.toList ++ (sep.toList ++ rest)) = line.toList :: lines rest := by
  rcases hsep with rfl | rfl
  · have hreturn : dropReturn line.toList.reverse = line.toList.reverse :=
      dropReturn_eq_self (by rw [List.head?_reverse]; exact hline.getLast?_ne)
    have hread := @linesAfter_append line.toList [] hline.newline_not_mem rest
    rw [List.append_nil, hreturn, List.reverse_reverse] at hread
    exact hread
  · -- the carriage return counts as the end of the line until it is dropped
    have hnot : '\n' ∉ line.toList ++ ['\r'] := by simp [hline.newline_not_mem]
    have hread := @linesAfter_append (line.toList ++ ['\r']) [] hnot rest
    rw [List.append_nil, List.reverse_append, List.append_assoc] at hread
    exact hread.trans (congrArg (· :: lines rest) (List.reverse_reverse line.toList))

/-- The lines of a text that was put together from lines are these lines, but for an empty one at
the end. -/
theorem lines_intercalate (hsep : IsLineBreak sep) (h : ∀ s ∈ texts, IsLine s) :
    lines (sep.intercalate texts).toList = (dropEmptyEnd texts).map String.toList := by
  induction texts with
  | nil => rfl
  | cons s texts ih =>
    obtain ⟨hs, htexts⟩ := List.forall_mem_cons.1 h
    cases texts with
    | nil =>
      by_cases hempty : s = ""
      · rw [String.intercalate_singleton, dropEmptyEnd, if_pos hempty, hempty]
        rfl
      · rw [String.intercalate_singleton, dropEmptyEnd, if_neg hempty]
        exact linesAfter_of_not_mem hs.newline_not_mem (by simpa using hempty)
    | cons next texts =>
      rw [String.intercalate_cons_cons, String.toList_append, String.toList_append,
        List.append_assoc, lines_append hs hsep, ih htexts]
      rfl

/-- Dropping an empty line at the end leaves the other lines in their places. -/
theorem getElem?_dropEmptyEnd_cases (texts : List String) (n : Nat) :
    (dropEmptyEnd texts)[n]? = texts[n]? ∨
      (dropEmptyEnd texts)[n]? = none ∧ texts[n]? = some "" ∧ n + 1 = texts.length := by
  induction texts using dropEmptyEnd.induct generalizing n with
  | case1 => exact .inl rfl
  | case2 =>
    rw [dropEmptyEnd, if_pos rfl]
    cases n with
    | zero => exact .inr ⟨rfl, rfl, rfl⟩
    | succ n => exact .inl rfl
  | case3 line hline =>
    rw [dropEmptyEnd, if_neg hline]
    exact .inl rfl
  | case4 line next rest ih =>
    rw [dropEmptyEnd]
    cases n with
    | zero => exact .inl rfl
    | succ n => simpa using ih n

end Text

variable {sep : String} {texts : List String}

theorem Document.line?_joined_cases (hsep : Text.IsLineBreak sep)
    (h : ∀ s ∈ texts, Text.IsLine s) (n : Nat) :
    (Document.text (sep.intercalate texts)).line? n = (Document.lines texts).line? n ∨
      (Document.text (sep.intercalate texts)).line? n = none ∧
        (Document.lines texts).line? n = some "" := by
  have htext : (Document.text (sep.intercalate texts)).line? n =
      (Text.dropEmptyEnd texts)[n]? := by
    rw [Document.line?, Text.lines_intercalate hsep h, List.getElem?_map, Option.map_map]
    simp [Function.comp_def]
  rw [htext]
  obtain hsame | ⟨hnone, hempty, -⟩ := Text.getElem?_dropEmptyEnd_cases texts n
  · exact .inl hsame
  · exact .inr ⟨hnone, hempty⟩

/-! ### Empty lines -/

theorem Filter.peel_nil (limit : Nat) : Filter.peel limit [] = ([], []) := by
  cases limit <;> rfl

theorem Abbreviation.find?_empty (offset : Nat) (o : ScanOptions) :
    Abbreviation.find? "" offset o = none := by
  have hreach : Abbreviation.reach [] offset o = [] := by
    rw [Abbreviation.reach_eq]
    simp [Abbreviation.ahead, Abbreviation.closersAhead, Text.cut]
  rw [Abbreviation.find?, Abbreviation.scan, String.toList_empty, hreach]
  rfl

theorem Extraction.value_ofLine_empty (position : Position) (o : ScanOptions) (maxFilters : Nat) :
    (Extraction.ofLine Abbreviation.find? "" position o maxFilters).value = none := by
  rw [Extraction.value_ofLine]
  simp [Extraction.ofChars, Filter.peel_nil, Abbreviation.find?_empty]

namespace Completion

variable {engine : Engine}

/-- A text that was put together from lines is completed in the context in which the list of these
lines is. -/
theorem contextAt?_joined (hfind : engine.find = Abbreviation.find?) (hsep : Text.IsLineBreak sep)
    (h : ∀ s ∈ texts, Text.IsLine s) (position : Position) (language : String)
    (settings : Settings) (library : Library) (tuning : Tuning) :
    contextAt? engine (.text (sep.intercalate texts)) position language settings library tuning =
      contextAt? engine (.lines texts) position language settings library tuning := by
  unfold contextAt?
  obtain hsame | ⟨hnone, hempty⟩ := Document.line?_joined_cases hsep h position.line
  · rw [hsame]
  · rw [hnone, hempty, hfind]
    simp [Extraction.value_ofLine_empty]

/-- **A text and the list of its lines are completed alike**, at every position and in every
language, for all lines that a line feed, or a carriage return and a line feed, can stand
between. -/
theorem value_complete_joined (hfind : engine.find = Abbreviation.find?)
    (hsep : Text.IsLineBreak sep) (h : ∀ s ∈ texts, Text.IsLine s) (position : Position)
    (language : String) (settings : Settings) (library : Library) (tuning : Tuning) :
    (complete engine (.text (sep.intercalate texts)) position language settings library
      tuning).value =
      (complete engine (.lines texts) position language settings library tuning).value := by
  rw [value_complete, value_complete, contextAt?_joined hfind hsep h]

/-- An engine that expands one list. -/
def oneList : Engine :=
  Lookup.engine { expansions := [("ul>li", some "<ul><li>$\x7b1\x7d</li></ul>")] }

/-- A carriage return inside of a line, a list behind it, and a line break at the end. -/
theorem value_complete_joined_brokenEnd :
    let texts := ["a\rb", "ul>li", ""]
    oneList.find = Abbreviation.find? ∧ Text.IsLineBreak "\r\n" ∧ (∀ s ∈ texts, Text.IsLine s) ∧
      "\r\n".intercalate texts = "a\rb\r\nul>li\r\n" ∧
      (complete oneList (.text "a\rb\r\nul>li\r\n") ⟨1, 5⟩ "html" {} {} {}).value =
        (complete oneList (.lines texts) ⟨1, 5⟩ "html" {} {} {}).value ∧
      allShown (complete oneList (.lines texts) ⟨1, 5⟩ "html" {} {} {}).value =
        [("ul>li", "<ul><li>$\x7b0\x7d</li></ul>")] ∧
      (complete oneList (.text "a\rb\r\nul>li\r\n") ⟨2, 0⟩ "html" {} {} {}).value =
        (complete oneList (.lines texts) ⟨2, 0⟩ "html" {} {} {}).value := by
  have hsep : Text.IsLineBreak "\r\n" := .inr rfl
  have htexts : ∀ s ∈ ["a\rb", "ul>li", ""], Text.IsLine s := by
    simp only [List.forall_mem_cons, List.not_mem_nil, false_imp_iff, implies_true, and_true]
    exact ⟨⟨by decide, by decide⟩, ⟨by decide, by decide⟩, ⟨by decide, by decide⟩⟩
  have hjoin : "\r\n".intercalate ["a\rb", "ul>li", ""] = "a\rb\r\nul>li\r\n" := by decide
  have hsame := fun position =>
    @value_complete_joined _ ["a\rb", "ul>li", ""] oneList rfl hsep htexts position "html" {} {} {}
  rw [hjoin] at hsame
  exact ⟨rfl, hsep, htexts, hjoin, hsame ⟨1, 5⟩, by decide +kernel, hsame ⟨2, 0⟩⟩

end Completion

end Emmet
