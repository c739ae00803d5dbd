import Emmet.Abbreviation.Extract
import Emmet.Proofs.Abbreviation.Range
import Emmet.Proofs.Offset.Checked
import Emmet.Proofs.Text.Rounding

/-!
# The abbreviation at the cursor by offsets

The column of the cursor is an offset of the line; filters are peeled off by moving a second offset
to the left, and the columns of the range are numbers of 32 bits again.

* `peel_eq` : peeling by offsets peels the same filters;
* `Fits` : line, abbreviation and filters are short enough for columns;
* `extract_eq` : then the same abbreviation is found, without a fault.
-/

namespace Emmet.Checked

open Text

/-! ### Filters -/

/-- The code of a filter stands at the end of a text, behind its sign. -/
def endsWith (text : List Char) (f : Filter) : Bool :=
  (f.code.toList.isSuffixOf? text).any fun rest => rest.getLast? == some '|'

/-- Takes at most `limit` filters off a text before an offset. -/
def peel (text : List Char) : (limit stop : Nat) → List Filter → Checked (Nat × List Filter)
  | 0, stop, filters => return (stop, filters)
  | limit + 1, stop, filters => do
    let front ← slice text 0 stop
    match Filter.all.find? (endsWith front) with
    | some f =>
      let stop ← sub stop (bytes f.code.toList + utf8 '|')
      peel text limit stop (f :: filters)
    | none => return (stop, filters)

theorem endsWith_iff {text : List Char} {f : Filter} :
    endsWith text f = true ↔ (f.suffix.isSuffixOf? text).isSome = true := by
  simp only [endsWith, Option.any_eq_true, Option.isSome_iff_exists,
    List.isSuffixOf?_eq_some_iff_append_eq, beq_iff_eq, List.getLast?_eq_some_iff, Filter.suffix]
  constructor
  · rintro ⟨_, rfl, body, rfl⟩
    exact ⟨body, List.append_cons ..⟩
  · rintro ⟨body, rfl⟩
    exact ⟨body ++ ['|'], (List.append_cons ..).symm, body, rfl⟩

theorem find?_endsWith (text : List Char) :
    Filter.all.find? (endsWith text) = (Filter.last? text).map Prod.fst := by
  have hends (f : Filter) : endsWith text f = (f.suffix.isSuffixOf? text).isSome :=
    Bool.eq_iff_iff.2 endsWith_iff
  rw [Filter.last?]
  induction Filter.all with
  | nil => rfl
  | cons f fs ih =>
    rw [List.find?_cons, List.findSome?_cons, hends f]
    cases f.suffix.isSuffixOf? text with
    | none => exact ih
    | some body => rfl

theorem bytes_suffix (f : Filter) : bytes f.suffix = bytes f.code.toList + utf8 '|' :=
  Nat.add_comm ..

/-- Peeling by offsets ends behind what peeling leaves. -/
theorem peel_eq {text front back : List Char} (h : text = front ++ back) (limit : Nat)
    (filters : List Filter) : peel text limit (bytes front) filters =
      .ok (bytes (Filter.peel limit front).1, (Filter.peel limit front).2 ++ filters) := by
  induction limit generalizing front back filters with
  | zero => rfl
  | succ limit ih =>
    rw [peel, slice_front h, ok_bind, find?_endsWith, Filter.peel]
    cases hlast : Filter.last? front with
    | none => rfl
    | some p =>
      obtain ⟨f, body⟩ := p
      have hfront := Filter.last?_eq_some hlast
      have hbody : text = body ++ (f.suffix ++ back) := by rw [h, hfront, List.append_assoc]
      have hsub : sub (bytes front) (bytes f.code.toList + utf8 '|') = .ok (bytes body) := by
        rw [hfront, bytes_append, bytes_suffix, sub_add_right]
      simp only [Option.map_some, hsub, ok_bind, ih hbody, List.append_assoc,
        List.singleton_append]

/-! ### Columns -/

/-- A line, an abbreviation that is found in it and the filters behind it have together fewer
characters than a column can count. -/
def Fits (line : String) (e : Extraction) : Prop :=
  line.toList.length + e.abbreviation.toList.length + (Filter.suffixes e.filters).length <
    UInt32.size

instance (line : String) (e : Extraction) : Decidable (Fits line e) :=
  inferInstanceAs (Decidable (_ < _))

/-- The abbreviation left of a column, found by a given search. -/
def extract (find : String → Nat → ScanOptions → Checked (Option Found)) (line : String)
    (position : Position) (o : ScanOptions) (maxFilters : Nat) : Checked (Option Extraction) := do
  let cursor := offsetOf utf8 line.toList position.column
  let left ← slice line.toList 0 cursor
  let (stop, filters) ← peel left maxFilters (min cursor (bytes left)) []
  let behind ← sub cursor stop
  match (← find line stop o).or (if filters.isEmpty then none else some ⟨"", stop⟩) with
  | none => return none
  | some found =>
    let start := columnAt utf8 line.toList found.start % UInt32.size
    let column ← add32 start (found.abbreviation.toList.length % UInt32.size)
    let column ← add32 column (behind % UInt32.size)
    return some ⟨found.abbreviation, Range.onLine position.line start column, filters⟩

/-- Columns that are small enough are not changed by the step to 32 bits. -/
theorem columns_eq {start n m : Nat} (h : start + n + m < UInt32.size) :
    start % UInt32.size = start ∧ add32 start (n % UInt32.size) = .ok (start + n) ∧
      add32 (start + n) (m % UInt32.size) = .ok (start + n + m) := by
  have hn : n % UInt32.size = n := Nat.mod_eq_of_lt (by omega)
  have hm : m % UInt32.size = m := Nat.mod_eq_of_lt (by omega)
  rw [hn, hm]
  exact ⟨Nat.mod_eq_of_lt (by omega), add32_of_lt (by omega), add32_of_lt h⟩

theorem ofChars_eq (find : Nat → Option Found) (line : List Char) (position : Position)
    (maxFilters : Nat) : Extraction.ofChars find line position maxFilters =
      let left := line.take position.column
      let stop := bytes (Filter.peel maxFilters left).1
      let filters := (Filter.peel maxFilters left).2
      ((find stop).or (if filters.isEmpty then none else some ⟨"", stop⟩)).map fun found =>
        let start := columnAt utf8 line found.start
        ⟨found.abbreviation, Range.onLine position.line start
          (start + found.abbreviation.toList.length + (bytes left - stop)), filters⟩ := by
  simp only [Extraction.ofChars]
  cases find (bytes (Filter.peel maxFilters (line.take position.column)).1) <;> rfl

/-- **The abbreviation left of a column is found by offsets.** -/
theorem extract_eq {find : String → Nat → ScanOptions → Option Found}
    {find' : String → Nat → ScanOptions → Checked (Option Found)} {line : String}
    {position : Position} {o : ScanOptions} {maxFilters : Nat}
    (hfind : ∀ offset, find' line offset o = .ok (find line offset o))
    (hfits : ∀ e, (Extraction.ofLine find line position o maxFilters).value = some e →
      Fits line e) :
    extract find' line position o maxFilters =
      .ok (Extraction.ofLine find line position o maxFilters).value := by
  have hleft := slice_front (List.take_append_drop position.column line.toList).symm
  rw [Extraction.value_ofLine] at hfits ⊢
  set left := line.toList.take position.column with hcursor
  have hpeel := peel_eq (List.append_nil left).symm maxFilters []
  have htake := (Filter.peel_append maxFilters left).symm
  have hbehind : sub (bytes left) (bytes (Filter.peel maxFilters left).1) =
      .ok (bytes left - bytes (Filter.peel maxFilters left).1) :=
    sub_of_le (bytes_le_of_isPrefix ⟨_, htake.symm⟩)
  have hlength := Extraction.bytes_sub_of_take_eq htake
  rw [List.append_nil] at hpeel
  simp only [extract, offsetOf, ← hcursor, hleft, ok_bind, Nat.min_self, hpeel, hbehind, hfind]
  simp only [ofChars_eq, ← hcursor] at hfits ⊢
  cases hfound : (find line (bytes (Filter.peel maxFilters left).1) o).or
      (if (Filter.peel maxFilters left).2.isEmpty = true then none
        else some ⟨"", bytes (Filter.peel maxFilters left).1⟩) with
  | none => rfl
  | some found =>
    rw [hfound] at hfits
    -- the columns are so small that no step to 32 bits changes them
    have hsum := hfits _ rfl
    have hstart := columnAt_le_length utf8 line.toList found.start
    have hcolumns : columnAt utf8 line.toList found.start + found.abbreviation.toList.length +
        (bytes left - bytes (Filter.peel maxFilters left).1) < UInt32.size := by
      simp only [Fits, ← hlength, ← hcursor] at hsum
      omega
    obtain ⟨hmod, hend, hbehind⟩ := columns_eq hcolumns
    simp only [hmod, hend, hbehind, ok_bind]
    rfl

end Emmet.Checked
