import Emmet.Text.Blank
import Emmet.Text.Digit

/-!
# Templates with tab stops

The text that a completion inserts is a template: in it `${n}` is a tab stop, `${n:text}` one with a
text to write over, `${0}` the place where the cursor ends, and `$` alone starts a variable. A
backslash before a dollar sign makes it plain text.

* `escapeDollars` protects the dollar signs that open no marker;
* `promote` turns the tab stops with the highest number into the final one;
* `preview` and `plainText` remove the markers, with and without a sign for the cursor.

The functions work on lists of characters. Their first argument says whether the character before
the list is a backslash.
-/

namespace Emmet.Template

/-! ### Markers -/

/-- A marker for the tab stop of a number, with the text that is written over. -/
def field (number : Nat) (placeholder : String) : String :=
  if placeholder = "" then "$\x7b" ++ toString number ++ "\x7d"
  else "$\x7b" ++ toString number ++ ":" ++ placeholder ++ "\x7d"

/-- What opens a marker: its digits, the sign after them, and the rest of the text. -/
structure Opener where
  digits : List Char
  /-- The sign is a colon, so a text may follow. -/
  colon : Bool
  rest : List Char
  deriving DecidableEq, Repr

/-- Reads the opener of a marker behind its dollar sign. -/
def opener? : List Char → Option Opener
  | '\x7b' :: cs =>
    match cs.takeWhile Text.isDigit, cs.dropWhile Text.isDigit with
    | d :: digits, c :: rest =>
      if c = ':' ∨ c = '\x7d' then some ⟨d :: digits, c == ':', rest⟩ else none
    | _, _ => none
  | _ => none

/-- The rest of a text behind a marker without text. -/
def bare? (cs : List Char) : Option (List Char) :=
  match opener? cs with
  | some ⟨_, false, rest⟩ => some rest
  | _ => none

/-- The text up to the first closing brace if no marker opens before it, and the rest behind the
brace. -/
def body? : List Char → Option (List Char × List Char)
  | [] => none
  | c :: cs =>
    if c = '\x7d' then some ([], cs)
    else if c = '$' ∧ cs.head? = some '\x7b' then none
    else (body? cs).map fun p => (c :: p.1, p.2)

/-- The text of a marker without markers in its text, and the rest behind it. -/
def placeholder? (cs : List Char) : Option (List Char × List Char) :=
  match opener? cs with
  | some ⟨_, true, rest⟩ => body? rest
  | _ => none

/-- The whole text is one marker without text. -/
def isMarker : List Char → Bool
  | '$' :: cs => bare? cs == some []
  | _ => false

/-- The value of decimal digits; there is none for digits of other scripts and for numbers of more
than 64 bits. -/
def number? (digits : List Char) : Option Nat :=
  match digits.mapM Text.asciiValue? with
  | some ds =>
    let n := ds.foldl (fun n d => 10 * n + d) 0
    if n < UInt64.size then some n else none
  | none => none

/-! ### Lengths for the recursion -/

theorem length_opener {cs : List Char} {o : Opener} (h : opener? cs = some o) :
    o.rest.length + 3 ≤ cs.length := by
  unfold opener? at h
  split at h
  · next cs =>
    have hsplit := congrArg List.length
      (List.takeWhile_append_dropWhile (p := Text.isDigit) (l := cs))
    split at h
    · next d digits c rest ht hd =>
      split at h
      · obtain rfl := Option.some.inj h
        simp only [ht, hd, List.length_append, List.length_cons] at hsplit ⊢
        omega
      · cases h
    · cases h
  · cases h

theorem length_body {cs body rest : List Char} (h : body? cs = some (body, rest)) :
    body.length + rest.length + 1 = cs.length := by
  induction cs generalizing body with
  | nil => cases h
  | cons c cs ih =>
    simp only [body?] at h
    split at h
    · obtain ⟨rfl, rfl⟩ := by simpa using h
      simp
    split at h
    · cases h
    · obtain ⟨⟨b, r⟩, hb, he⟩ := Option.map_eq_some_iff.1 h
      obtain ⟨rfl, rfl⟩ := by simpa using he
      have := ih hb
      simp only [List.length_cons]
      omega

theorem length_bare {cs rest : List Char} (h : bare? cs = some rest) :
    rest.length + 3 ≤ cs.length := by
  unfold bare? at h
  split at h
  · next ho =>
    obtain rfl := Option.some.inj h
    exact length_opener ho
  · cases h

theorem length_placeholder {cs body rest : List Char}
    (h : placeholder? cs = some (body, rest)) : body.length + rest.length + 4 ≤ cs.length := by
  unfold placeholder? at h
  split at h
  · next ho =>
    have := length_opener ho
    have := length_body h
    simp only at *
    omega
  · cases h

/-! ### Dollar signs -/

/-- Puts a backslash before every dollar sign that has none and that no brace follows. -/
def escapeDollarsAfter : Bool → List Char → List Char
  | _, [] => []
  | escaped, c :: cs =>
    if c = '$' ∧ escaped = false ∧ cs.head? ≠ some '\x7b' then
      '\\' :: c :: escapeDollarsAfter false cs
    else c :: escapeDollarsAfter (c == '\\') cs

/-- Protects the dollar signs that open no marker. -/
def escapeDollars (text : String) : String := String.ofList (escapeDollarsAfter false text.toList)

/-! ### The final tab stop -/

/-- A tab stop of a template. -/
structure Stop where
  number : Nat
  /-- The marker has a text that is written over; an empty text counts as none. -/
  hasText : Bool
  deriving DecidableEq, Repr

/-- The tab stop that opens behind a dollar sign. -/
def stop? (cs : List Char) : Option Stop :=
  match opener? cs with
  | some o =>
    (number? o.digits).map fun n => ⟨n, o.colon && o.rest.head? != some '\x7d'⟩
  | none => none

/-- The tab stops of a template, in order. -/
def stopsAfter : Bool → List Char → List Stop
  | _, [] => []
  | escaped, c :: cs =>
    if c = '$' ∧ escaped = false then (stop? cs).toList ++ stopsAfter false cs
    else stopsAfter (c == '\\') cs

/-- Gives the tab stops with one number the number zero. -/
def renumberAfter (number : Nat) : Bool → List Char → List Char
  | _, [] => []
  | escaped, c :: cs =>
    if c = '$' ∧ escaped = false ∧ (stop? cs).map Stop.number = some number then
      '$' :: '\x7b' :: '0' :: renumberAfter number false ((cs.drop 1).dropWhile Text.isDigit)
    else c :: renumberAfter number (c == '\\') cs
  termination_by _ cs => cs.length
  decreasing_by
    · have h1 := (List.dropWhile_sublist Text.isDigit (l := cs.drop 1)).length_le
      have h2 := List.length_drop (i := 1) (l := cs)
      simp only [List.length_cons]
      omega
    · simp

/-- Turns the tab stops with the highest number into the final one, on lists of characters. -/
def promoteChars (cs : List Char) : List Char :=
  let stops := stopsAfter false cs
  match (stops.map Stop.number).max? with
  | none => cs
  | some top =>
    if stops.any (fun s => s.number == 0) || stops.any (fun s => s.number == top && s.hasText)
    then cs
    else renumberAfter top false cs

/-- Turns the tab stops with the highest number into the final one. Nothing changes if there is a
final one already or if one of the highest has a text that is written over. -/
def promote (text : String) : String := String.ofList (promoteChars text.toList)

/-- The template that is inserted for an expansion. -/
def finish (expansion : String) : String := escapeDollars (promote expansion)

/-! ### Display -/

/-- Writes a sign in place of every marker without text. -/
def replaceBareAfter (sign : List Char) : Bool → List Char → List Char
  | _, [] => []
  | escaped, c :: cs =>
    if c = '$' ∧ escaped = false then
      match _h : bare? cs with
      | some rest => sign ++ replaceBareAfter sign false rest
      | none => c :: replaceBareAfter sign false cs
    else c :: replaceBareAfter sign (c == '\\') cs
  termination_by _ cs => cs.length
  decreasing_by
    · have := length_bare _h
      simp only [List.length_cons]
      omega
    · simp
    · simp

/-- Writes its text in place of every marker that has no marker in its text. -/
def unwrapOnceAfter : Bool → List Char → List Char
  | _, [] => []
  | escaped, c :: cs =>
    if c = '$' ∧ escaped = false then
      match _h : placeholder? cs with
      | some (body, rest) => body ++ unwrapOnceAfter false rest
      | none => c :: unwrapOnceAfter false cs
    else c :: unwrapOnceAfter (c == '\\') cs
  termination_by _ cs => cs.length
  decreasing_by
    · have := length_placeholder _h
      simp only [List.length_cons]
      omega
    · simp
    · simp

/-- A pass that changes the text takes at least five characters away. -/
theorem unwrapOnce_eq_or_add_le (escaped : Bool) (cs : List Char) :
    unwrapOnceAfter escaped cs = cs ∨ (unwrapOnceAfter escaped cs).length + 5 ≤ cs.length := by
  fun_induction unwrapOnceAfter escaped cs with
  | case1 => exact .inl rfl
  | case2 escaped c cs hc body rest h ih =>
    have hlength := length_placeholder h
    right
    rw [List.length_append, List.length_cons]
    rcases ih with ih | ih
    · rw [ih]
      omega
    · omega
  | case3 escaped c cs hc h ih =>
    rcases ih with ih | ih
    · exact .inl (by rw [ih])
    · exact .inr (Nat.succ_le_succ ih)
  | case4 escaped c cs hc ih =>
    rcases ih with ih | ih
    · exact .inl (by rw [ih])
    · exact .inr (Nat.succ_le_succ ih)

/-- Repeats passes until one changes nothing, so markers nested in texts are unwrapped, too. -/
def unwrap (cs : List Char) : List Char :=
  let next := unwrapOnceAfter false cs
  if next = cs then cs else unwrap next
  termination_by cs.length
  decreasing_by
    rcases unwrapOnce_eq_or_add_le false cs with h | h
    · contradiction
    · exact Nat.lt_of_lt_of_le (Nat.lt_add_of_pos_right (Nat.succ_pos _)) h

/-- The sign for the cursor in previews. -/
def cursorSign : List Char := ['|']

/-- The template as it is shown, with a sign for every tab stop without text. -/
def preview (text : String) : String :=
  String.ofList (unwrap (replaceBareAfter cursorSign false text.toList))

/-- The template without its markers. -/
def plainText (text : String) : String :=
  String.ofList (unwrap (replaceBareAfter [] false text.toList))

end Emmet.Template
