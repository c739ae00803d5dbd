import Emmet.Abbreviation.Extract
import Emmet.Engine.Basic
import Emmet.Proofs.Abbreviation.Filters
import Emmet.Proofs.Abbreviation.Walk

/-!
# The range that a completion replaces

An extraction names a range of columns, while the scan counts bytes and the filters are taken off
the end of the line before the scan. `Extraction.Exact` says that the range holds just what was
extracted, and `Extraction.exact_of_ofLine` proves it for the scan to the left: from the start of
the range to its end the line reads the abbreviation and then its filters.
-/

namespace Emmet

/-! ### Filters in a line -/

namespace Filter

@[simp] theorem suffixes_nil : suffixes [] = [] := rfl

@[simp] theorem suffixes_cons (f : Filter) (fs : List Filter) :
    suffixes (f :: fs) = '|' :: (f.code.toList ++ suffixes fs) := by
  simp [suffixes, suffix]

/-- Filters are written in characters of one byte. -/
theorem bytes_suffixes (fs : List Filter) : Text.bytes (suffixes fs) = (suffixes fs).length := by
  induction fs with
  | nil => rfl
  | cons f fs ih =>
    have hf : Text.bytes ('|' :: f.code.toList) = ('|' :: f.code.toList).length := by
      cases f <;> decide
    rw [suffixes_cons, ← List.cons_append, Text.bytes, Text.size_append, List.length_append]
    exact congrArg₂ (· + ·) hf ih

end Filter

namespace Extraction

/-- The range of an extraction holds what was extracted from the line: it stands around the cursor
in the line of the cursor, and its text is the abbreviation with its filters. -/
structure Exact (e : Extraction) (line : List Char) (position : Position) : Prop where
  start_line : e.range.start.line = position.line
  stop_line : e.range.stop.line = position.line
  start_le : e.range.start.column ≤ min position.column line.length
  le_stop : min position.column line.length ≤ e.range.stop.column
  stop_le : e.range.stop.column ≤ line.length
  text : (line.take e.range.stop.column).drop e.range.start.column =
    e.abbreviation.toList ++ Filter.suffixes e.filters
  /-- Nothing right of the cursor is replaced behind filters. -/
  stop_eq : e.filters ≠ [] → e.range.stop.column = min position.column line.length

/-! ### What is found left of the filters -/

variable {line : List Char} {position : Position} {maxFilters : Nat} {e : Extraction}

/-- The line as the extraction takes it apart: what stands left of the range, what was typed of the
abbreviation, its filters, and what the scan takes right of the cursor, which is nothing behind
filters. -/
structure Parts (e : Extraction) (line : List Char) (position : Position)
    (front typed ahead : List Char) : Prop where
  take_eq : line.take position.column = front ++ typed ++ Filter.suffixes e.filters
  ahead_isPrefix : ahead <+: line.drop position.column
  ahead_eq : e.filters ≠ [] → ahead = []
  abbreviation_eq : e.abbreviation = String.ofList (typed ++ ahead)
  range_eq : e.range = Range.onLine position.line front.length
    (front.length + (typed ++ ahead).length + (Filter.suffixes e.filters).length)

theorem Parts.exact {front typed ahead : List Char} (h : Parts e line position front typed ahead) :
    Exact e line position := by
  obtain ⟨rest, hrest⟩ := h.ahead_isPrefix
  have hcursor : min position.column line.length =
      front.length + typed.length + (Filter.suffixes e.filters).length := by
    rw [← List.length_take, h.take_eq, List.length_append, List.length_append]
  have hline : line = front ++ typed ++ Filter.suffixes e.filters ++ (ahead ++ rest) := by
    rw [← h.take_eq, hrest, List.take_append_drop]
  have hstop : e.range.stop.column =
      front.length + (typed ++ ahead).length + (Filter.suffixes e.filters).length := by
    rw [h.range_eq]; rfl
  have hstart : e.range.start.column = front.length := by rw [h.range_eq]; rfl
  -- behind filters there is nothing ahead, and without them nothing stands between
  have htext : line = front ++ ((typed ++ ahead ++ Filter.suffixes e.filters) ++ rest) := by
    by_cases hf : e.filters = []
    · rw [hline, hf]; simp
    · rw [hline, h.ahead_eq hf]; simp
  refine ⟨by rw [h.range_eq]; rfl, by rw [h.range_eq]; rfl, by omega, ?_, ?_, ?_, fun hf => ?_⟩
  · rw [hcursor, hstop, List.length_append]; omega
  · rw [hstop, htext]; simp only [List.length_append]; omega
  · rw [hstart, hstop, h.abbreviation_eq, String.toList_ofList, List.drop_take, htext,
      List.drop_left, Nat.add_assoc, Nat.add_sub_cancel_left, ← List.length_append, List.take_left]
  · rw [hstop, hcursor, h.ahead_eq hf, List.append_nil]

/-- A bar is not typed ahead of the cursor by an editor. -/
theorem ahead_eq_nil_of_suffixes {fs : List Filter} (hfs : fs ≠ []) {offset : Nat} {o : ScanOptions}
    {rest : List Char} (h : (Text.cut Text.utf8 line offset).2 = Filter.suffixes fs ++ rest) :
    Abbreviation.ahead line offset o = [] := by
  obtain ⟨f, fs, rfl⟩ := List.exists_cons_of_ne_nil hfs
  have hprefix := Abbreviation.ahead_isPrefix line offset o
  rw [h, Filter.suffixes_cons, List.cons_append] at hprefix
  rcases List.prefix_cons_iff.1 hprefix with hnil | ⟨more, hcons, -⟩
  · exact hnil
  · have hbar := Abbreviation.mem_ahead (c := '|') (hcons ▸ List.mem_cons_self)
    generalize o.family = f at hbar
    cases f <;> exact absurd hbar (by decide)

/-- The filters fill the bytes between the end of the abbreviation and the cursor. -/
theorem bytes_sub_of_take_eq {body : List Char} {fs : List Filter}
    (htake : line.take position.column = body ++ Filter.suffixes fs) :
    Text.bytes (line.take position.column) - Text.bytes body = (Filter.suffixes fs).length := by
  rw [htake, Text.bytes, Text.size_append, Nat.add_sub_cancel_left]
  exact Filter.bytes_suffixes fs

theorem eq_append_of_take_eq {body : List Char} {fs : List Filter}
    (htake : line.take position.column = body ++ Filter.suffixes fs) :
    line = body ++ (Filter.suffixes fs ++ line.drop position.column) := by
  rw [← List.append_assoc, ← htake, List.take_append_drop]

/-- The parts of a line in which the scan finds something left of the filters. -/
theorem exists_parts_of_scan {body a : List Char} {fs : List Filter} {start : Nat} {o : ScanOptions}
    (htake : line.take position.column = body ++ Filter.suffixes fs)
    (hscan : Abbreviation.scan line (Text.bytes body) o = some (a, start)) :
    ∃ front typed ahead, Parts ⟨String.ofList a, Range.onLine position.line
      (Text.columnAt Text.utf8 line start) (Text.columnAt Text.utf8 line start + a.length +
        (Text.bytes (line.take position.column) - Text.bytes body)), fs⟩
      line position front typed ahead := by
  have hline := eq_append_of_take_eq htake
  have hcut := Text.cut_bytes hline
  obtain ⟨front, typed, hbody, rfl, rfl⟩ := Abbreviation.scan_eq_some hscan
  replace hbody : body = front ++ typed := by rwa [hcut] at hbody
  have hcolumn : Text.columnAt Text.utf8 line (Text.bytes front) = front.length := by
    rw [hbody, List.append_assoc] at hline
    exact Text.columnAt_bytes hline
  refine ⟨front, typed, Abbreviation.ahead line (Text.bytes body) o, ?_, ?_, fun hfs => ?_, rfl, ?_⟩
  · rw [htake, hbody]
  · by_cases hfs : fs = []
    · have hprefix := Abbreviation.ahead_isPrefix line (Text.bytes body) o
      rwa [hcut, hfs, Filter.suffixes_nil, List.nil_append] at hprefix
    · rw [ahead_eq_nil_of_suffixes hfs (by rw [hcut])]
      exact List.nil_prefix
  · exact ahead_eq_nil_of_suffixes hfs (by rw [hcut])
  · rw [hcolumn, bytes_sub_of_take_eq htake]

/-- The parts of a line with filters but nothing in front of them. -/
theorem parts_of_filters {body : List Char} {fs : List Filter}
    (htake : line.take position.column = body ++ Filter.suffixes fs) :
    Parts ⟨"", Range.onLine position.line (Text.columnAt Text.utf8 line (Text.bytes body))
      (Text.columnAt Text.utf8 line (Text.bytes body) + 0 +
        (Text.bytes (line.take position.column) - Text.bytes body)), fs⟩
      line position body [] [] := by
  refine ⟨by rw [htake, List.append_nil], List.nil_prefix, fun _ => rfl, rfl, ?_⟩
  rw [Text.columnAt_bytes (eq_append_of_take_eq htake), bytes_sub_of_take_eq htake]
  rfl

theorem exists_parts {o : ScanOptions} (h : ofChars
    (fun stop => Abbreviation.find? (String.ofList line) stop o) line position maxFilters =
      some e) : ∃ front typed ahead, Parts e line position front typed ahead := by
  obtain ⟨found, hfound, rfl⟩ := Option.map_eq_some_iff.1 h
  have htake := (Filter.peel_append maxFilters (line.take position.column)).symm
  split at hfound
  · next hfind =>
    obtain rfl := Option.some.inj hfound
    obtain ⟨⟨a, start⟩, hscan, rfl⟩ := Option.map_eq_some_iff.1 hfind
    rw [String.toList_ofList] at hscan
    simpa only [String.toList_ofList] using exists_parts_of_scan htake hscan
  · split at hfound
    · cases hfound
    · obtain rfl := Option.some.inj hfound
      exact ⟨_, [], [], parts_of_filters htake⟩

/-! ### The range is exact -/

theorem value_ofLine (find : String → Nat → ScanOptions → Option Found) (line : String)
    (position : Position) (o : ScanOptions) (maxFilters : Nat) :
    (ofLine find line position o maxFilters).value =
      ofChars (fun stop => find line stop o) line.toList position maxFilters := by
  unfold ofLine
  split
  · next h => rw [h]; rfl
  · next h => rw [h]; rfl

/-- **The range of an extraction is exact**, whatever stands in the line: with an engine that finds
abbreviations by the scan to the left, the text between its columns is the abbreviation and its
filters, and it holds the cursor, moved back to the end of the line if it is past it. -/
theorem exact_of_ofLine {engine : Engine} (hfind : engine.find = Abbreviation.find?)
    {line : String} {position : Position} {o : ScanOptions} {maxFilters : Nat} {e : Extraction}
    (h : (ofLine engine.find line position o maxFilters).value = some e) :
    Exact e line.toList position := by
  rw [value_ofLine, hfind] at h
  have hchars : ofChars (fun stop => Abbreviation.find? (String.ofList line.toList) stop o)
      line.toList position maxFilters = some e := by
    rwa [String.ofList_toList]
  obtain ⟨front, typed, ahead, hparts⟩ := exists_parts hchars
  exact hparts.exact

/-- Behind a tag and a character of two bytes, with a quotation mark and a bracket right of the
cursor that are replaced, too. -/
theorem exact_beyond_cursor :
    let line := "é <p>ul>li[a=\"é\"]"
    let e : Extraction := ⟨"ul>li[a=\"é\"]", Range.onLine 0 5 17, []⟩
    Engine.scanOnly.find = Abbreviation.find? ∧
      (ofLine Engine.scanOnly.find line ⟨0, 15⟩ ⟨.markup, true⟩ 3).value = some e ∧
      Exact e line.toList ⟨0, 15⟩ := by
  have h : (ofLine Engine.scanOnly.find "é <p>ul>li[a=\"é\"]" ⟨0, 15⟩ ⟨.markup, true⟩ 3).value =
      some ⟨"ul>li[a=\"é\"]", Range.onLine 0 5 17, []⟩ := by decide +kernel
  exact ⟨rfl, h, exact_of_ofLine rfl h⟩

end Extraction

end Emmet
