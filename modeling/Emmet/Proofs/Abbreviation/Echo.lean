import Emmet.Abbreviation.Noise
import Emmet.Abbreviation.Validity
import Emmet.Proofs.Template.Snippet
import Mathlib.Data.List.Basic

/-!
# Echoed properties

An engine that does not know an abbreviation of a style sheet writes it down as a property without
value. The rule against noise looks for that, but takes the end off the abbreviation first if it may
be the separator between property and value. This file says when the echo is still recognised.

* `CutsTail` : the end of an abbreviation is taken for the separator;
* `propertyOf_cases` : just then something is missing from the property that is looked for;
* `isMarker_iff` : a marker without text has one dollar sign, at its front;
* `isNoise_echo_iff` : an echo is noise iff nothing is taken off its abbreviation.
-/

namespace Emmet.Noise

open Template (Opener)

/-! ### The property that is looked for -/

/-- The end of an abbreviation is taken for the separator: among its last characters, which take as
many bytes as the separator, is the one that the separator starts with. -/
def CutsTail (abbreviation between : List Char) : Prop :=
  ∃ front back, abbreviation = front ++ back ∧
    Text.bytes front = Text.bytes abbreviation - Text.bytes between ∧
      ∃ c ∈ between.head?, c ∈ back

/-- What is looked for is the whole abbreviation, or its end is missing. -/
theorem propertyOf_cases (abbreviation between : List Char) :
    (¬ CutsTail abbreviation between ∧ propertyOf abbreviation between = abbreviation) ∨
      (CutsTail abbreviation between ∧
        ∃ c tail, abbreviation = propertyOf abbreviation between ++ c :: tail) := by
  cases between with
  | nil =>
    refine .inl ⟨?_, rfl⟩
    rintro ⟨front, back, -, -, c, hc, -⟩
    cases hc
  | cons first rest =>
    obtain ⟨front, back, hparts⟩ : ∃ front back, Text.cut Text.utf8 abbreviation
        (Text.bytes abbreviation - Text.bytes (first :: rest)) = (front, back) := ⟨_, _, rfl⟩
    have hcut := Text.cut_append Text.utf8 abbreviation
      (Text.bytes abbreviation - Text.bytes (first :: rest))
    simp only [propertyOf, hparts] at hcut ⊢
    by_cases h : Text.bytes front = Text.bytes abbreviation - Text.bytes (first :: rest) ∧
        first ∈ back
    · rw [if_pos h]
      refine .inr ⟨⟨front, back, hcut.symm, h.1, first, rfl, h.2⟩, ?_⟩
      have hsplit := List.takeWhile_append_dropWhile (p := (· != first)) (l := back)
      cases hdrop : back.dropWhile (· != first) with
      | nil => exact absurd (List.dropWhile_eq_nil_iff.1 hdrop first h.2) (by simp)
      | cons c tail =>
        rw [hdrop] at hsplit
        exact ⟨c, tail, by rw [List.append_assoc, hsplit, hcut]⟩
    · rw [if_neg h]
      refine .inl ⟨?_, rfl⟩
      rintro ⟨front', back', happend, hbytes, c, hc, hback⟩
      obtain rfl := Option.some.inj hc
      rw [← hbytes, Text.cut_bytes happend] at hparts
      obtain ⟨rfl, rfl⟩ := Prod.mk.inj hparts
      exact h ⟨hbytes, hback⟩

instance (abbreviation between : List Char) : Decidable (CutsTail abbreviation between) :=
  decidable_of_iff (propertyOf abbreviation between ≠ abbreviation) <| by
    obtain ⟨hwhole, hsame⟩ | ⟨hcut, c, tail, htail⟩ := propertyOf_cases abbreviation between
    · exact iff_of_false (not_not.2 hsame) hwhole
    · refine iff_of_true (fun hsame => ?_) hcut
      rw [hsame] at htail
      cases List.append_right_eq_self.1 htail.symm

/-! ### Markers without text -/

/-- A marker without text has one dollar sign, at its front. -/
theorem isMarker_iff {cs : List Char} : Template.isMarker cs = true ↔
    ∃ o : Opener, o.IsNumbered ∧ o.colon = false ∧ cs = '$' :: o.head := by
  constructor
  · intro h
    unfold Template.isMarker at h
    split at h
    · obtain ⟨o, ho, hcolon, rfl⟩ := Template.exists_opener_of_bare (beq_iff_eq.1 h)
      exact ⟨o, ho, hcolon, by rw [List.append_nil]⟩
    · cases h
  · rintro ⟨o, ho, hcolon, rfl⟩
    have hbare := Template.bare?_head_append ho []
    rw [List.append_nil, hcolon] at hbare
    exact beq_iff_eq.2 hbare

/-- No marker without text ends in another one. -/
theorem eq_nil_of_append_isMarker {before marker : List Char}
    (hmarker : Template.isMarker marker = true)
    (h : Template.isMarker (before ++ marker) = true) : before = [] := by
  obtain ⟨o, -, -, rfl⟩ := isMarker_iff.1 hmarker
  obtain ⟨p, hp, -, heq⟩ := isMarker_iff.1 h
  cases before with
  | nil => rfl
  | cons c before =>
    obtain ⟨-, htail⟩ := List.cons.inj heq
    have hdollar : '$' ∈ p.head := htail ▸ List.mem_append_right before List.mem_cons_self
    exact absurd rfl (hp.isPlain '$' hdollar).1

theorem isMarker_field (n : Nat) : Template.isMarker (Template.field n "").toList = true := by
  rw [Template.toList_field, if_pos rfl]
  exact isMarker_iff.2 ⟨_, Template.Opener.isNumbered_ofNumber n false, rfl, rfl⟩

/-! ### Echoes -/

/-- An abbreviation written down as a property without value. -/
def echo (output : Output) (abbreviation : String) (n : Nat) : String :=
  abbreviation ++ output.between ++ Template.field n "" ++ output.after

variable {property between marker after tail : List Char} {c : Char}

/-- The rest of an expansion behind a property and the separator, up to what follows the value. -/
def valueOf? (property between after expansion : List Char) : Option (List Char) :=
  ((property.isPrefixOf? expansion).bind between.isPrefixOf?).bind after.isSuffixOf?

theorem valueOf?_eq_some_iff {expansion value : List Char} :
    valueOf? property between after expansion = some value ↔
      expansion = property ++ (between ++ (value ++ after)) := by
  simp only [valueOf?, Option.bind_eq_some_iff, List.isPrefixOf?_eq_some_iff_append_eq,
    List.isSuffixOf?_eq_some_iff_append_eq]
  constructor
  · rintro ⟨_, ⟨_, rfl, rfl⟩, rfl⟩
    rfl
  · rintro rfl
    exact ⟨_, ⟨_, rfl, rfl⟩, rfl⟩

/-- Where something is missing from the property, what is left is no marker without text. -/
theorem not_isMarker_of_valueOf? {value : List Char} (hmarker : Template.isMarker marker = true)
    (h : valueOf? property between after
      (property ++ c :: tail ++ (between ++ (marker ++ after))) = some value) :
    Template.isMarker value = false := by
  have hboth := valueOf?_eq_some_iff.1 h
  rw [List.append_assoc, List.append_right_inj, ← List.append_assoc, ← List.append_assoc,
    ← List.append_assoc, List.append_left_inj] at hboth
  rw [← Bool.not_eq_true]
  intro hvalue
  -- both texts end in a marker, and the one behind the missing part is the shorter one
  obtain ⟨more, hlong, -⟩ | ⟨more, hlong, rfl⟩ := List.append_eq_append_iff.1 hboth
  · have hlength := congrArg List.length hlong
    simp only [List.length_append, List.length_cons] at hlength
    omega
  · have hlength := congrArg List.length hlong
    rw [eq_nil_of_append_isMarker hmarker hvalue] at hlength
    simp only [List.length_append, List.length_cons, List.length_nil] at hlength
    omega

theorem withoutBlanks_append (as bs : List Char) :
    withoutBlanks (as ++ bs) = withoutBlanks as ++ withoutBlanks bs := List.filter_append ..

/-- The blanks do not make up for a marker. -/
theorem withoutBlanks_ne (abbreviation between after : List Char)
    (hmarker : Template.isMarker marker = true) :
    withoutBlanks (abbreviation ++ (between ++ (marker ++ after))) ≠
      withoutBlanks abbreviation ++ after := by
  intro h
  rw [withoutBlanks_append, List.append_right_inj] at h
  -- so what follows the value has no blanks, and nothing stands before it
  have hafter : withoutBlanks after = after := by
    rw [← h]
    exact List.filter_filter.trans (by simp only [Bool.and_self, withoutBlanks])
  rw [withoutBlanks_append, withoutBlanks_append, hafter, ← List.append_assoc] at h
  have hnil := (List.append_eq_nil_iff.1 (List.append_left_eq_self.1 h)).2
  obtain ⟨o, -, -, rfl⟩ := isMarker_iff.1 hmarker
  exact absurd (List.filter_eq_nil_iff.1 hnil '$' List.mem_cons_self) (by decide)

/-- **An echo is noise iff nothing is taken off its abbreviation.** In a style sheet an expansion
that is the abbreviation, the separator, a tab stop and what follows the value is noise unless the
end of the abbreviation is taken for the separator. -/
theorem isNoise_echo_iff {dialect : String} (hfamily : Dialect.family dialect = .stylesheet)
    (abbreviation : String) (output : Output) (n : Nat) (keys : List String) :
    isNoise ⟨dialect, abbreviation, echo output abbreviation n, output, keys⟩ = true ↔
      ¬ CutsTail abbreviation.toList output.between.toList := by
  have hexpansion : (echo output abbreviation n).toList = abbreviation.toList ++
      (output.between.toList ++ ((Template.field n "").toList ++ output.after.toList)) := by
    simp only [echo, String.toList_append, List.append_assoc]
  have hmarker := isMarker_field n
  have hblanks := withoutBlanks_ne abbreviation.toList output.between.toList output.after.toList
    hmarker
  have hnoise : isNoise ⟨dialect, abbreviation, echo output abbreviation n, output, keys⟩ = true ↔
      ∃ value, valueOf? (propertyOf abbreviation.toList output.between.toList)
        output.between.toList output.after.toList (echo output abbreviation n).toList =
          some value ∧ Template.isMarker value = true := by
    rw [← hexpansion] at hblanks
    simp only [isNoise, decideBy, hfamily, rules, List.findSome?_cons, emptyProperty, valueOf?,
      Option.map_some, Option.getD_some, beq_false_of_ne hblanks, Bool.or_false]
    split
    · next value hvalue => simp [hvalue]
    · next hvalue => simp [hvalue]
  rw [hnoise, hexpansion]
  obtain ⟨hwhole, hproperty⟩ | ⟨hcut, c, tail, htail⟩ :=
    propertyOf_cases abbreviation.toList output.between.toList
  · rw [hproperty]
    exact iff_of_true ⟨_, valueOf?_eq_some_iff.2 rfl, hmarker⟩ hwhole
  · refine iff_of_false ?_ (not_not.2 hcut)
    rintro ⟨value, hvalue, hvalueMarker⟩
    generalize propertyOf abbreviation.toList output.between.toList = property at htail hvalue
    rw [htail] at hvalue
    rw [not_isMarker_of_valueOf? hmarker hvalue] at hvalueMarker
    cases hvalueMarker

/-- With the usual separators the echo of `a:b` is offered: the colon inside is taken for that of
the separator, though the abbreviation does not end with it. -/
theorem not_isNoise_echo_colonInside :
    let output := (({} : Output).set "stylesheet.between" (.string ": ")).set "stylesheet.after"
      (.string ";")
    Dialect.isStylesheet "css" = true ∧ Abbreviation.isValid "css" "a:b" = true ∧
      output.between = ": " ∧ echo output "a:b" 1 = "a:b: $\x7b1\x7d;" ∧
        isNoise ⟨"css", "a:b", echo output "a:b" 1, output, []⟩ = false := by
  decide +kernel

/-- A separator without a blank is looked for in one byte, so the echo is recognised. -/
theorem isNoise_echo_iff_shortSeparator :
    let output := ({} : Output).set "stylesheet.between" (.string ":")
    Dialect.family "scss" = .stylesheet ∧ ¬ CutsTail "a:b".toList output.between.toList ∧
      isNoise ⟨"scss", "a:b", echo output "a:b" 12, output, ["a:b"]⟩ = true := by
  intro output
  have hfamily : Dialect.family "scss" = .stylesheet := by decide
  have hwhole : ¬ CutsTail "a:b".toList output.between.toList := by decide +kernel
  exact ⟨hfamily, hwhole, (isNoise_echo_iff hfamily "a:b" output 12 ["a:b"]).2 hwhole⟩

end Emmet.Noise
