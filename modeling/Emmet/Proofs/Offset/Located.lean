import Emmet.Proofs.Offset.Scanner
import Mathlib.Order.Bounds.Basic

/-!
# Where an abbreviation stands in the bytes of a line

What the scan finds comes with an offset into the bytes of the line. Wide characters are passed byte
by byte in text nodes and attribute sets, but the offset never points into one.

* `isValid_iff` : an offset is valid where a front part of the line ends;
* `isCursor_cut` : the line is cut at the last valid offset;
* `isPastClosers_ahead` : what counts as typed is one quotation mark and the brackets behind it;
* `Located` : an abbreviation is the part of the line at its offset, and ends at the cursor or past
  what counts as typed;
* `find?_located` : so it is with every abbreviation that is found.
-/

namespace Emmet.Abbreviation

open Text Checked

/-! ### Bytes of a string -/

theorem utf8ByteSize_ofList (cs : List Char) : (String.ofList cs).utf8ByteSize = bytes cs := by
  induction cs with
  | nil => rfl
  | cons c cs ih =>
    rw [← List.singleton_append, String.ofList_append, String.utf8ByteSize_append, ih, bytes_append]
    simp [bytes, utf8]

theorem utf8ByteSize_eq (s : String) : s.utf8ByteSize = bytes s.toList := by
  rw [← utf8ByteSize_ofList, String.ofList_toList]

variable {line : String} {offset n : Nat} {o : ScanOptions} {f : Family}
  {front mid back right : List Char}

/-- An offset is valid if a front part of the line ends there. -/
theorem isValid_iff : String.Pos.Raw.IsValid line ⟨n⟩ ↔
    ∃ front back, line.toList = front ++ back ∧ bytes front = n := by
  rw [String.Pos.Raw.isValid_iff_exists_append]
  constructor
  · rintro ⟨front, back, rfl, hn⟩
    refine ⟨front.toList, back.toList, String.toList_append, ?_⟩
    rw [← utf8ByteSize_eq]
    exact (congrArg String.Pos.Raw.byteIdx hn).symm
  · rintro ⟨front, back, hline, rfl⟩
    refine ⟨String.ofList front, String.ofList back, ?_, ?_⟩
    · rw [← String.ofList_append, ← hline, String.ofList_toList]
    · rw [← utf8ByteSize_ofList]
      rfl

theorem isValid_of_eq (h : line.toList = front ++ back) :
    String.Pos.Raw.IsValid line ⟨bytes front⟩ :=
  isValid_iff.2 ⟨front, back, h, rfl⟩

/-- Between the ends of two front parts stands what is in one of them only. -/
theorem extract_eq (h : line.toList = front ++ (mid ++ back)) :
    line.toByteArray.extract (bytes front) (bytes front + bytes mid) =
      (String.ofList mid).toByteArray := by
  have hline : line = String.ofList front ++ (String.ofList mid ++ String.ofList back) := by
    rw [← String.ofList_append, ← String.ofList_append, ← h, String.ofList_toList]
  have hsize (cs : List Char) : bytes cs = (String.ofList cs).toByteArray.size := by
    rw [String.size_toByteArray, utf8ByteSize_ofList]
  have hextract := ByteArray.extract_append_size_add (a := (String.ofList front).toByteArray)
    (b := (String.ofList mid ++ String.ofList back).toByteArray) (i := 0) (j := bytes mid)
  rw [Nat.add_zero] at hextract
  rw [hline, String.toByteArray_append, hsize front, hextract, String.toByteArray_append,
    ByteArray.extract_append_eq_left (hsize mid)]

/-! ### The cursor -/

/-- The cursor at an offset: the last valid offset up to there, so an offset past the line is moved
to its end and an offset inside a character to its start. -/
def IsCursor (line : String) (offset cursor : Nat) : Prop :=
  IsGreatest {n | n ≤ min offset line.utf8ByteSize ∧ String.Pos.Raw.IsValid line ⟨n⟩} cursor

/-- The front part that is cut off is the longest one that fits. -/
theorem bytes_le_bytes_cut (h : bytes front ≤ n) :
    bytes front ≤ bytes (cut utf8 (front ++ back) n).1 := by
  induction front generalizing n with
  | nil => exact Nat.zero_le _
  | cons c front ih =>
    have hsum : utf8 c + bytes front ≤ n := h
    have hrest := ih (n := n - utf8 c) (by omega)
    rw [List.cons_append, cut, if_pos (by omega)]
    exact Nat.add_le_add_left hrest _

theorem isCursor_cut (line : String) (offset : Nat) :
    IsCursor line offset (bytes (cut utf8 line.toList offset).1) := by
  have hline := (cut_append utf8 line.toList offset).symm
  constructor
  · refine ⟨Nat.le_min.2 ⟨size_cut_le utf8 line.toList offset, ?_⟩, isValid_of_eq hline⟩
    rw [utf8ByteSize_eq]
    exact bytes_le_of_isPrefix ⟨_, hline.symm⟩
  · rintro n ⟨hle, hvalid⟩
    obtain ⟨front, back, hfront, rfl⟩ := isValid_iff.1 hvalid
    rw [hfront]
    exact bytes_le_bytes_cut (Nat.le_min.1 hle).1

/-! ### What counts as typed -/

/-- A text is cut behind what counts as typed: behind one quotation mark, if it starts with one, and
behind all closing brackets that follow. -/
structure Closers (f : Family) (right quote brackets rest : List Char) : Prop where
  right_eq : right = quote ++ (brackets ++ rest)
  quote_eq : quote = (right.take 1).filter isQuote
  closes : ∀ c ∈ brackets, closesGroup f c = true
  maximal : ∀ c ∈ rest.head?, closesGroup f c = false

theorem of_mem_head?_dropWhile {p : Char → Bool} {cs : List Char} {c : Char}
    (h : c ∈ (cs.dropWhile p).head?) : p c = false := by
  have hhead := List.head?_dropWhile_not p cs
  rwa [Option.mem_def.1 h] at hhead

theorem closers_dropWhile {quote : List Char} (rest : List Char) (h : right = quote ++ rest)
    (hquote : quote = (right.take 1).filter isQuote) :
    Closers f right quote (rest.takeWhile (closesGroup f)) (rest.dropWhile (closesGroup f)) where
  right_eq := by rw [List.takeWhile_append_dropWhile, h]
  quote_eq := hquote
  closes _ := List.mem_takeWhile_imp
  maximal _ := of_mem_head?_dropWhile

theorem exists_closers (f : Family) (right : List Char) : ∃ quote brackets rest,
    closersAhead f right = quote ++ brackets ∧ Closers f right quote brackets rest := by
  cases right with
  | nil => exact ⟨[], [], [], rfl, closers_dropWhile [] rfl rfl⟩
  | cons c right =>
    cases hc : isQuote c with
    | true =>
      have hquote : [c] = ((c :: right).take 1).filter isQuote := by simp [hc]
      exact ⟨[c], _, _, by simp [closersAhead, hc], closers_dropWhile right rfl hquote⟩
    | false =>
      have hquote : [] = ((c :: right).take 1).filter isQuote := by simp [hc]
      exact ⟨[], _, _, by simp [closersAhead, hc], closers_dropWhile (c :: right) rfl hquote⟩

/-- An offset lies behind what counts as typed right of a cursor. -/
def IsPastClosers (f : Family) (line : String) (cursor stop : Nat) : Prop :=
  ∃ front right quote brackets rest, line.toList = front ++ right ∧ bytes front = cursor ∧
    Closers f right quote brackets rest ∧ bytes (front ++ (quote ++ brackets)) = stop

theorem isPastClosers_ahead (h : line.toList = front ++ right) (f : Family) :
    IsPastClosers f line (bytes front) (bytes (front ++ closersAhead f right)) := by
  obtain ⟨quote, brackets, rest, hahead, hclosers⟩ := exists_closers f right
  exact ⟨front, right, quote, brackets, rest, h, rfl, hclosers, by rw [hahead]⟩

/-! ### Located abbreviations -/

/-- The operators that no abbreviation starts with are dropped. -/
theorem not_isJoining_of_scan {line a : List Char} {start : Nat}
    (h : scan line offset o = some (a, start)) : ∀ c ∈ a.head?, isJoining c = false := by
  simp only [scan] at h
  split at h
  · cases h
  · obtain ⟨rfl, -⟩ := Prod.mk.inj (Option.some.inj h)
    intro c hc
    exact of_mem_head?_dropWhile hc

/-- The offset at which what is found ends. -/
def stopOf (e : Found) : Nat := e.start + e.abbreviation.utf8ByteSize

/-- What is found for an offset of a line stands in the line, from one valid offset to another. It
ends at the cursor or, with the look-ahead, past the brackets that count as typed, and starts with
no operator that joins abbreviations. -/
structure Located (line : String) (offset : Nat) (o : ScanOptions) (e : Found) : Prop where
  start_isValid : String.Pos.Raw.IsValid line ⟨e.start⟩
  stop_isValid : String.Pos.Raw.IsValid line ⟨stopOf e⟩
  extract_eq : line.toByteArray.extract e.start (stopOf e) = e.abbreviation.toByteArray
  head : ∀ c ∈ e.abbreviation.toList.head?, c ∉ ['*', '+', '>', '^']
  stop : ∃ cursor, IsCursor line offset cursor ∧
    if o.lookAhead then IsPastClosers o.family line cursor (stopOf e) else stopOf e = cursor

theorem located_of_scan {a : List Char} {start : Nat}
    (h : scan line.toList offset o = some (a, start)) :
    Located line offset o ⟨String.ofList a, start⟩ := by
  have hhead := not_isJoining_of_scan h
  obtain ⟨front, typed, hcut, ha, rfl⟩ := scan_eq_some h
  obtain ⟨rest, hrest⟩ := ahead_isPrefix line.toList offset o
  have hcursor := isCursor_cut line offset
  have hright := (cut_append utf8 line.toList offset).symm
  rw [hcut] at hcursor hright
  have hline : line.toList = front ++ (a ++ rest) := by
    rw [ha, List.append_assoc, hrest, ← List.append_assoc]
    exact hright
  have hstop : stopOf ⟨String.ofList a, bytes front⟩ = bytes front + bytes a :=
    congrArg (bytes front + ·) (utf8ByteSize_ofList a)
  refine ⟨isValid_of_eq hline, ?_, ?_, ?_, bytes (front ++ typed), hcursor, ?_⟩
  · rw [hstop, ← bytes_append]
    exact isValid_of_eq (hline.trans (List.append_assoc ..).symm)
  · rw [hstop]
    exact extract_eq hline
  · intro c hc
    rw [String.toList_ofList] at hc
    have hjoining := hhead c hc
    simp only [isJoining, Bool.or_eq_false_iff, beq_eq_false_iff_ne] at hjoining
    simp [hjoining]
  · rw [hstop, ← bytes_append, ha, ← List.append_assoc, ahead]
    split
    · exact isPastClosers_ahead hright o.family
    · rw [List.append_nil]

/-! ### All that is found -/

/-- The walk through the bytes goes from one valid offset to another, whatever brackets are open. -/
theorem goBack_isValid {pos : Nat} (f : Family) (pending : List Char)
    (h : String.Pos.Raw.IsValid line ⟨pos⟩) : ∃ pending' stop,
      goBack (encode line.toList) (walkStep (encode line.toList) f) pending pos =
        .ok (pending', stop) ∧ String.Pos.Raw.IsValid line ⟨stop⟩ := by
  obtain ⟨before, after, hline, rfl⟩ := isValid_iff.1 h
  obtain ⟨front, hbefore, hgo⟩ := exists_goBack_walkStep hline f pending
  refine ⟨_, _, hgo, ?_⟩
  rw [hbefore, List.append_assoc] at hline
  exact isValid_of_eq hline

/-- **What is found stands where it is said to stand.** From every valid offset and with whatever
brackets open the walk through the bytes of a line ends at a valid offset, without a fault. For
every offset, past the line or inside a character, too, what the scan by offsets finds is what the
scan finds, and it is located in the line. -/
theorem find?_located (line : String) (offset : Nat) (o : ScanOptions) :
    (∀ (pos : Nat) (pending : List Char), String.Pos.Raw.IsValid line ⟨pos⟩ → ∃ pending' stop,
      goBack (encode line.toList) (walkStep (encode line.toList) o.family) pending pos =
        .ok (pending', stop) ∧ String.Pos.Raw.IsValid line ⟨stop⟩) ∧
    Checked.scan line.toList offset o =
      .ok ((find? line offset o).map fun e => (e.abbreviation.toList, e.start)) ∧
    ∀ e, find? line offset o = some e → Located line offset o e := by
  refine ⟨fun pos pending => goBack_isValid o.family pending, ?_, ?_⟩
  · rw [Checked.scan_eq, find?, Option.map_map]
    simp [Function.comp_def]
  · intro e h
    obtain ⟨⟨a, start⟩, hscan, rfl⟩ := Option.map_eq_some_iff.1 h
    exact located_of_scan hscan

/-- Behind a character of two bytes in an attribute, with a quotation mark and a bracket right of the
cursor. -/
theorem find?_located_beyond_cursor :
    let line := "é <p>ul>li[a=\"é\"]"
    let e : Found := ⟨"ul>li[a=\"é\"]", 6⟩
    String.Pos.Raw.IsValid line ⟨17⟩ ∧
      (∃ pending stop, goBack (encode line.toList) (walkStep (encode line.toList) .markup) [] 17 =
        .ok (pending, stop) ∧ String.Pos.Raw.IsValid line ⟨stop⟩) ∧
      find? line 17 ⟨.markup, true⟩ = some e ∧ Located line 17 ⟨.markup, true⟩ e := by
  intro line e
  have hvalid : String.Pos.Raw.IsValid line ⟨17⟩ :=
    isValid_iff.2 ⟨"é <p>ul>li[a=\"é".toList, "\"]".toList, by decide, by decide⟩
  have hfound : find? line 17 ⟨.markup, true⟩ = some e := by decide +kernel
  obtain ⟨hwalk, -, hlocated⟩ := find?_located line 17 ⟨.markup, true⟩
  exact ⟨hvalid, hwalk 17 [] hvalid, hfound, hlocated e hfound⟩

end Emmet.Abbreviation
