import Emmet.Abbreviation.Validity
import Emmet.Proofs.Abbreviation.Nesting
import Emmet.Proofs.Abbreviation.Range

/-!
# A word at the end of a line

The simplest abbreviation is a word: a letter, and letters and digits behind it. Where a line ends
in one, behind a blank or at the start of the line, all steps agree that this word is what is typed.

* `EndsInWord.walk_reverse` : the walk to the left takes just the word;
* `EndsInWord.peel_eq` : no filter is taken off the line;
* `EndsInWord.ofChars_eq` : so the word is extracted, and nothing else;
* `IsWord.isValid` : it is a plausible abbreviation of markup.
-/

namespace Emmet.Abbreviation

/-- A letter, and letters and digits behind it. -/
structure IsWord (word : List Char) : Prop where
  head : ∃ c ∈ word.head?, c.isAlpha = true
  isAlphanum : ∀ c ∈ word, c.isAlphanum = true

/-- A line ends in a word, and before the word stands a blank or nothing. -/
structure EndsInWord (line front word : List Char) : Prop where
  eq_append : line = front ++ word
  isWord : IsWord word
  isBlank : ∀ c ∈ front.getLast?, Text.isAsciiBlank c = true

variable {f : Family} {line front word left : List Char} {c : Char}

theorem IsWord.ne_nil (h : IsWord word) : word ≠ [] := by
  obtain ⟨c, hc, -⟩ := h.head
  rintro rfl
  cases hc

theorem IsWord.not_mem (h : IsWord word) (hc : c.isAlphanum = false) : c ∉ word := by
  intro hmem
  rw [h.isAlphanum c hmem] at hc
  cases hc

/-- A word does not begin with an operator that joins two parts. -/
theorem IsWord.dropWhile_isJoining (h : IsWord word) : word.dropWhile isJoining = word := by
  refine dropWhile_append_of_head (List.forall_mem_nil _) fun c hc => ?_
  have hchar := h.isAlphanum c (List.mem_of_mem_head? hc)
  by_contra hjoining
  simp only [isJoining, Bool.not_eq_false, Bool.or_eq_true, beq_iff_eq] at hjoining
  rcases hjoining with ((rfl | rfl) | rfl) | rfl <;> cases hchar

/-! ### Steps -/

theorem isAlphanum_eq_false_of_isAsciiBlank (hc : Text.isAsciiBlank c = true) :
    c.isAlphanum = false := by
  simp only [Text.isAsciiBlank, Bool.or_eq_true, beq_iff_eq] at hc
  rcases hc with (((rfl | rfl) | rfl) | rfl) | rfl <;> rfl

theorem step_of_isAsciiBlank (hc : Text.isAsciiBlank c = true) :
    step f [] c left = .stop [] := by
  simp only [Text.isAsciiBlank, Bool.or_eq_true, beq_iff_eq] at hc
  rcases hc with (((rfl | rfl) | rfl) | rfl) | rfl <;> cases f <;> rfl

theorem takes_of_isAlphanum {cs : List Char} (h : ∀ c ∈ cs, c.isAlphanum = true) :
    Takes f [] cs [] left := by
  refine takes_of_isAbbreviationChar fun c hc => ⟨?_, ?_⟩
  · rw [isAbbreviationChar, h c hc, Bool.true_or]
  · rintro rfl
    cases h _ hc

namespace EndsInWord

variable (h : EndsInWord line front word)
include h

theorem reverse_eq : line.reverse = word.reverse ++ front.reverse := by
  rw [h.eq_append, List.reverse_append]

/-- The character before the word, if there is one. -/
theorem isBlank_of_head? (hc : c ∈ front.reverse.head?) : Text.isAsciiBlank c = true := by
  rw [List.head?_reverse] at hc
  exact h.isBlank c hc

/-- The walk takes the word and stops at the blank. -/
theorem walk_reverse : walk f [] line.reverse = ⟨word.reverse, []⟩ := by
  have hword : Takes f [] word.reverse [] front.reverse :=
    takes_of_isAlphanum fun c hc => h.isWord.isAlphanum c (List.mem_reverse.1 hc)
  have hfront : walk f [] front.reverse = ⟨[], []⟩ := by
    cases hreverse : front.reverse with
    | nil => rfl
    | cons c left =>
      have hc : c ∈ front.reverse.head? := by rw [hreverse]; rfl
      exact walk_cons_stop (step_of_isAsciiBlank (h.isBlank_of_head? hc))
  rw [h.reverse_eq, hword, hfront, Walk.after, List.append_nil]

theorem scan_eq (o : ScanOptions) :
    scan line (Text.bytes line) o = some (word, Text.bytes front) := by
  rw [scan_end h.walk_reverse (by simp [h.isWord.ne_nil]), List.reverse_reverse,
    h.isWord.dropWhile_isJoining]
  rw [h.eq_append, Text.bytes, Text.size_append, Nat.add_sub_cancel]

/-! ### The extraction -/

/-- The bar of a filter would stand before the word, where a blank is. -/
theorem peel_eq (limit : Nat) : Filter.peel limit line = (line, []) := by
  rw [h.eq_append]
  refine Filter.peel_of_not_isSuffix
    (Filter.not_isSuffix_append (h.isWord.not_mem rfl) fun c hc => ⟨?_, ?_⟩)
  · rintro rfl
    cases h.isBlank _ hc
  · exact isAlphanum_eq_false_of_isAsciiBlank (h.isBlank c hc)

/-- The word is extracted from the line. -/
theorem ofChars_eq {position : Position} (hcolumn : line.length ≤ position.column)
    (o : ScanOptions) (maxFilters : Nat) :
    Extraction.ofChars (fun stop => find? (String.ofList line) stop o) line position maxFilters =
      some ⟨String.ofList word, Range.onLine position.line front.length
        (front.length + word.length), []⟩ := by
  unfold Extraction.ofChars
  simp only [List.take_of_length_le hcolumn, h.peel_eq, find?, String.toList_ofList, h.scan_eq,
    Option.map_some]
  rw [Text.columnAt_bytes h.eq_append, Nat.sub_self, Nat.add_zero]

end EndsInWord

/-! ### The rules -/

/-- No rule of markup has anything against a word. -/
theorem IsWord.isValid (h : IsWord word) {dialect : String}
    (hfamily : Dialect.family dialect = .markup) :
    isValid dialect (String.ofList word) = true := by
  have hnot : ∀ c : Char, c.isAlphanum = false → word.contains c = false := by
    intro c hc
    simpa using h.not_mem hc
  obtain ⟨c, hc, halpha⟩ := h.head
  obtain ⟨cs, rfl⟩ := List.head?_eq_some_iff.1 hc
  unfold isValid
  rw [hfamily, String.toList_ofList, decideBy, if_neg (List.cons_ne_nil c cs)]
  simp only [rules, firstDecision, doctypeBang, hnot '!' rfl, grouping, hnot '(' rfl, hnot ')' rfl,
    markupStart, hasWord, List.any_cons, halpha]
  rfl

end Emmet.Abbreviation
