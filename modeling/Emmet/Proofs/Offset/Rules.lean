import Emmet.Completion.Assembly
import Emmet.Proofs.Offset.Checked
import Mathlib.Data.List.Basic
import Mathlib.Data.List.TakeWhile

/-!
# Rules that cut an abbreviation

Some rules about abbreviations and expansions cut a text where a character was found, or where a
text of other letters would end: tags are cut at `#`, properties before the text between property
and value, vendor prefixes behind their second hyphen, and snippet keys behind what is typed of
them. Every such cut falls between two characters.

* `isValid_eq`, `isNoise_eq` : the rules decide as they do on lists of characters;
* `splitVendors_eq`, `applyVendors_eq` : vendor prefixes are read and written;
* `restOf?_eq` : the rest of a key is cut off behind the typed text in lower case.
-/

namespace Emmet.Checked

open Text

/-! ### Plausible abbreviations -/

section

open Abbreviation

/-- A rule that cuts no text. -/
def plain (r : Rule) (cs : List Char) : Checked Verdict := return r.check cs

/-- A tag with an identifier is a selector. -/
def tagWithHash (cs : List Char) : Checked Verdict := do
  match indexOf? '#' cs with
  | some i =>
    let tag ← slice cs 0 i
    return refuseIf (1 < bytes tag && Tag.isCommon (String.ofList tag))
  | none => return .pass

/-- The rules of a family, in the order in which they are asked. -/
def rules : Family → List (List Char → Checked Verdict)
  | .stylesheet => [plain trailingColon, plain hexColor, tagWithHash, plain propertyHexValue,
      plain stylesheetStart]
  | .markup => [plain doctypeBang, plain grouping, plain markupStart, plain hasWord]

/-- The decision of the first rule with an opinion. -/
def firstDecision (cs : List Char) : List (List Char → Checked Verdict) → Checked Bool
  | [] => return true
  | r :: rs => do
    match ← r cs with
    | .valid => return true
    | .invalid => return false
    | .pass => firstDecision cs rs

/-- Whether a text is a plausible abbreviation in a dialect. -/
def isValid (dialect abbreviation : String) : Checked Bool :=
  if abbreviation.toList = [] then return false
  else firstDecision abbreviation.toList (rules (Dialect.family dialect))

theorem tagWithHash_eq : tagWithHash = plain Abbreviation.tagWithHash := by
  funext cs
  simp only [tagWithHash, plain, Abbreviation.tagWithHash]
  cases hindex : indexOf? '#' cs with
  | none => rw [indexOf?_eq_none_iff.1 hindex]
  | some i =>
    obtain ⟨tag, name, hsplit, hcs, rfl⟩ := indexOf?_eq_some hindex
    simp only [hsplit, slice_front hcs, ok_bind]

theorem rules_eq (f : Family) : rules f = (Abbreviation.rules f).map plain := by
  cases f with
  | stylesheet => rw [rules, tagWithHash_eq]; rfl
  | markup => rfl

theorem firstDecision_map_plain (cs : List Char) (rs : List Rule) :
    firstDecision cs (rs.map plain) = .ok (Abbreviation.firstDecision cs rs).valid := by
  induction rs with
  | nil => rfl
  | cons r rs ih =>
    rw [List.map_cons, firstDecision, Abbreviation.firstDecision, plain, pure_eq_ok, ok_bind]
    cases r.check cs with
    | valid => rfl
    | invalid => rfl
    | pass => exact ih

theorem isValid_eq (dialect abbreviation : String) :
    isValid dialect abbreviation = .ok (Abbreviation.isValid dialect abbreviation) := by
  rw [isValid, Abbreviation.isValid, decideBy]
  split
  · rfl
  · rw [rules_eq, firstDecision_map_plain]

end

/-! ### Noise -/

section

open Noise

/-- The end of the abbreviation without the part that the text between property and value repeats.
The offset where that part is looked for need not be one between characters. -/
def propertyEnd (abbreviation : List Char) : List Char → Checked Nat
  | [] => return bytes abbreviation
  | first :: rest => do
    let start := bytes abbreviation - bytes (first :: rest)
    if IsBoundary abbreviation start then
      let back ← slice abbreviation start (bytes abbreviation)
      match indexOf? first back with
      | some i => return i + start
      | none => return bytes abbreviation
    else return bytes abbreviation

/-- The abbreviation without the part that the text between property and value repeats. -/
def propertyOf (abbreviation between : List Char) : Checked (List Char) := do
  slice abbreviation 0 (← propertyEnd abbreviation between)

/-- The expansion is the property with an empty value, or only repeats the abbreviation. -/
def emptyProperty (s : Subject) : Checked Bool := do
  let abbreviation := s.abbreviation.toList
  let between := s.output.between.toList
  let after := s.output.after.toList
  let property ← propertyOf abbreviation between
  let value := ((property.isPrefixOf? s.expansion.toList).bind between.isPrefixOf?).bind
    after.isSuffixOf?
  let echoes := match value with
    | some value => Template.isMarker value
    | none => false
  return echoes || withoutBlanks s.expansion.toList == withoutBlanks abbreviation ++ after

/-- Whether an expansion is too trivial to be offered. The rules of markup cut no text. -/
def isNoise (s : Subject) : Checked Bool :=
  match Dialect.family s.dialect with
  | .stylesheet => emptyProperty s
  | .markup => return Noise.isNoise s

theorem takeWhile_of_splitOnce {c : Char} {cs before after : List Char}
    (h : splitOnce c cs = some (before, after)) : cs.takeWhile (· != c) = before := by
  obtain ⟨rfl, hc⟩ := splitOnce_eq_some h
  have hne : ∀ d ∈ before, (d != c) = true := fun d hd =>
    bne_iff_ne.2 (ne_of_mem_of_not_mem hd hc)
  rw [List.takeWhile_append_of_pos hne, List.takeWhile_cons_of_neg (by simp), List.append_nil]

theorem propertyOf_eq (abbreviation between : List Char) :
    propertyOf abbreviation between = .ok (Noise.propertyOf abbreviation between) := by
  have hwhole : slice abbreviation 0 (bytes abbreviation) = .ok abbreviation :=
    slice_front (List.append_nil abbreviation).symm
  cases between with
  | nil => exact hwhole
  | cons first rest =>
    simp only [propertyOf, propertyEnd, Noise.propertyOf, IsBoundary]
    have hcut := cut_append utf8 abbreviation (bytes abbreviation - bytes (first :: rest))
    generalize bytes abbreviation - bytes (first :: rest) = start at *
    obtain ⟨front, back, hparts⟩ : ∃ front back, cut utf8 abbreviation start = (front, back) :=
      ⟨_, _, rfl⟩
    simp only [hparts] at hcut ⊢
    -- `front` is shorter than `start` if that is an offset inside of a character
    by_cases hstart : bytes front = start
    · subst hstart
      rw [if_pos rfl, slice_back hcut.symm, ok_bind]
      cases hindex : indexOf? first back with
      | none =>
        have hmem := splitOnce_eq_none_iff.1 (indexOf?_eq_none_iff.1 hindex)
        rw [if_neg fun h => hmem h.2]
        exact hwhole
      | some i =>
        obtain ⟨before, after, hsplit, rfl, rfl⟩ := indexOf?_eq_some hindex
        have hproperty : slice abbreviation 0 (bytes before + bytes front) =
            .ok (front ++ before) := by
          rw [Nat.add_comm, ← bytes_append]
          exact slice_front (by rw [← hcut, List.append_assoc])
        rw [if_pos ⟨rfl, List.mem_append_right _ List.mem_cons_self⟩, takeWhile_of_splitOnce hsplit]
        exact hproperty
    · rw [if_neg hstart, if_neg fun h => hstart h.1]
      exact hwhole

theorem emptyProperty_eq (s : Subject) :
    some <$> emptyProperty s = .ok (Noise.emptyProperty.check s) := by
  rw [emptyProperty, propertyOf_eq]
  rfl

theorem isNoise_eq (s : Subject) : isNoise s = .ok (Noise.isNoise s) := by
  rw [isNoise]
  cases hfamily : Dialect.family s.dialect with
  | markup => rfl
  | stylesheet =>
    have hcheck := emptyProperty_eq s
    cases hproperty : emptyProperty s with
    | error fault => rw [hproperty] at hcheck; cases hcheck
    | ok noise =>
      rw [hproperty, Except.map_ok, Except.ok.injEq] at hcheck
      simp only [Noise.isNoise, decideBy, hfamily, Noise.rules, List.findSome?_cons, ← hcheck,
        Option.map_some, Option.getD_some]

end

/-! ### Vendors -/

section

open Vendor

/-- Letters of vendors stand before a hyphen and one more character of the line. -/
def asksForVendors (cs : List Char) : Bool :=
  match cs.dropWhile isLetter with
  | '-' :: c :: _ => c != '\n'
  | _ => false

/-- Splits an abbreviation into what asks for vendors and the rest. -/
def splitVendors (abbreviation : List Char) : Checked (List Char × List Char) := do
  match abbreviation with
  | '-' :: rest =>
    match if asksForVendors rest then indexOf? '-' rest else none with
    | some dash =>
      -- one byte for the hyphen at the front, and one for the hyphen that closes the letters
      let stop := dash + 2
      return (← slice abbreviation 0 stop, ← slice abbreviation stop (bytes abbreviation))
    | none => return (['-'], rest)
  | _ => return ([], abbreviation)

/-- The vendors that an abbreviation asks for. -/
def askedVendors (lead expansion : List Char) (preferences : Table Json) :
    Checked (List Vendor) := do
  match lead with
  | ['-'] =>
    match indexOf? ':' expansion with
    | some colon =>
      if colon = 0 then return []
      else return forProperty (← slice expansion 0 colon) preferences
    | none => return []
  | lead => return asked lead expansion preferences

/-- An expansion with the copies that are asked for before it. -/
def applyVendors (expansion lead : String) (preferences : Table Json) : Checked String := do
  let vendors ← askedVendors lead.toList expansion.toList preferences
  return String.ofList ((vendors.flatMap fun v => v.copy expansion.toList) ++ expansion.toList)

theorem hyphen_not_mem_letters (cs : List Char) : '-' ∉ cs.takeWhile isLetter :=
  fun h => absurd (List.mem_takeWhile_imp h) (by decide)

theorem indexOf?_hyphen {cs rest : List Char} (h : cs.dropWhile isLetter = '-' :: rest) :
    indexOf? '-' cs = some (bytes (cs.takeWhile isLetter)) := by
  have hsplit := splitOnce_append (hyphen_not_mem_letters cs) rest
  rw [← h, List.takeWhile_append_dropWhile] at hsplit
  rw [indexOf?, hsplit]
  rfl

theorem asksForVendors_iff {cs : List Char} : asksForVendors cs = true ↔
    ∃ c rest, cs.dropWhile isLetter = '-' :: c :: rest ∧ c ≠ '\n' := by
  unfold asksForVendors
  split
  · next c rest hdrop => simp [hdrop]
  · next hdrop =>
    refine iff_of_false Bool.false_ne_true ?_
    rintro ⟨c, rest, h, -⟩
    exact hdrop c rest h

theorem split_of_not_asksForVendors {cs : List Char} (h : asksForVendors cs ≠ true) :
    split ('-' :: cs) = (['-'], cs) := by
  simp only [split]
  split
  · next c rest hdrop =>
    split
    · rfl
    · next hc => exact absurd (asksForVendors_iff.2 ⟨c, rest, hdrop, hc⟩) h
  · rfl

theorem splitVendors_eq (abbreviation : List Char) :
    splitVendors abbreviation = .ok (split abbreviation) := by
  unfold splitVendors
  split
  · next cs =>
    by_cases hasks : asksForVendors cs = true
    · obtain ⟨c, rest, hdrop, hc⟩ := asksForVendors_iff.1 hasks
      have hcs := List.takeWhile_append_dropWhile (p := isLetter) (l := cs)
      have hsplit : split ('-' :: cs) = ('-' :: (cs.takeWhile isLetter ++ ['-']), c :: rest) := by
        simp [split, hdrop, hc]
      have hlead : '-' :: cs = '-' :: (cs.takeWhile isLetter ++ ['-']) ++ (c :: rest) := by
        rw [hdrop] at hcs
        simp [hcs]
      have hstop : bytes (cs.takeWhile isLetter) + 2 =
          bytes ('-' :: (cs.takeWhile isLetter ++ ['-'])) := by
        have hhyphen : bytes ['-'] = 1 := rfl
        rw [← List.singleton_append, bytes_append, bytes_append, hhyphen]
        omega
      simp only [if_pos hasks, indexOf?_hyphen hdrop, hstop, slice_front hlead, slice_back hlead,
        ok_bind, pure_eq_ok, hsplit]
    · rw [split_of_not_asksForVendors hasks]
      simp only [if_neg hasks, pure_eq_ok]
  · next hhyphen =>
    have hsplit : split abbreviation = ([], abbreviation) := by
      unfold split
      split
      · next cs => exact absurd rfl (hhyphen cs)
      · rfl
    rw [hsplit]
    rfl

theorem askedVendors_eq (lead expansion : List Char) (preferences : Table Json) :
    askedVendors lead expansion preferences = .ok (asked lead expansion preferences) := by
  unfold askedVendors
  split
  · simp only [asked]
    cases hindex : indexOf? ':' expansion with
    | none => rw [indexOf?_eq_none_iff.1 hindex]; rfl
    | some colon =>
      obtain ⟨property, value, hsplit, hcs, rfl⟩ := indexOf?_eq_some hindex
      rw [hsplit]
      cases property with
      | nil => rfl
      | cons c property =>
        have hpos := utf8_pos c
        have hne : bytes (c :: property) ≠ 0 := by simp only [bytes, size_cons]; omega
        simp only [if_neg hne, slice_front hcs, ok_bind]
        rfl
  · rfl

theorem applyVendors_eq (expansion lead : String) (preferences : Table Json) :
    applyVendors expansion lead preferences = .ok (Vendor.apply expansion lead preferences) := by
  rw [applyVendors, askedVendors_eq]
  rfl

end

/-! ### Keys -/

section

open Completion

/-- The rest of a key behind what is typed; none if the key is not suggested. -/
def restOf? (q : Query) (key : String) : Checked (Option String) := do
  let lower := lower q.typed.toList
  if !lower.isPrefixOf key.toList || (q.skipFull && key.toList == lower) then return none
  else return some (String.ofList (← slice key.toList (bytes lower) (bytes key.toList)))

theorem restOf?_eq (q : Query) (key : String) : restOf? q key = .ok (q.restOf? key) := by
  unfold restOf? Query.restOf?
  cases hrest : (lower q.typed.toList).isPrefixOf? key.toList with
  | none =>
    have hstarts : (lower q.typed.toList).isPrefixOf key.toList = false := by
      rw [Bool.eq_false_iff, ne_eq, List.isPrefixOf_iff_prefix]
      rintro ⟨rest, h⟩
      rw [List.isPrefixOf?_eq_some_iff_append_eq.2 h] at hrest
      cases hrest
    simp [hstarts]
  | some rest =>
    have hkey := (List.append_eq_of_isPrefixOf?_eq_some hrest).symm
    have hstarts : (lower q.typed.toList).isPrefixOf key.toList = true :=
      List.isPrefixOf_iff_prefix.2 ⟨rest, hkey.symm⟩
    have hfull : key.toList = lower q.typed.toList ↔ rest = [] := by
      rw [hkey, List.append_right_eq_self]
    simp only [hstarts, slice_back hkey, ok_bind, Bool.not_true, Bool.false_or,
      Bool.and_eq_true, beq_iff_eq, hfull]
    split <;> rfl

end

end Emmet.Checked
