import Emmet.Proofs.Template.Final

/-!
# Markers that are left over

What is shown of a template is meant to have no markers. Markers without text are replaced in one
go, the others are unwrapped until nothing changes. Both join what stands before a marker and behind
it, and so a marker that was torn apart by other markers can become whole.

* `HasMarker` : a marker without text can be read in a text;
* `Torn` : one can be read behind a dollar sign if closing braces and the openers of other markers
  are left out;
* `Thins.reads` : what can be read of a text so can be read of the text it was made from;
* `torn_of_hasMarker` : only torn markers are left over;
* `hasMarker_left_over` : and some are.
-/

namespace Emmet.Template

/-- A marker without text stands in a text, and no backslash before it. -/
def HasMarker (text : String) : Prop :=
  ∃ before digits after, text.toList = before ++ '$' :: '\x7b' :: (digits ++ '\x7d' :: after) ∧
    before.getLast? ≠ some '\\' ∧ digits ≠ [] ∧ ∀ d ∈ digits, Text.isDigit d = true

/-! ### Torn markers -/

/-- What comes next of a marker behind its dollar sign. -/
inductive Stage where
  | brace
  /-- The first digit. -/
  | digit
  /-- A further digit or the sign. -/
  | more

/-- The rest of a marker can be read from a text if closing braces and openers are left out. Where
nothing is written in place of markers without text, those are left out, too. The marker ends with a
colon or a closing brace. -/
inductive Reads (sign : List Char) : Stage → List Char → Bool → List Char → Prop where
  | brace {cs colon rest} : Reads sign .digit cs colon rest →
      Reads sign .brace ('\x7b' :: cs) colon rest
  | digit {d cs colon rest} : Text.isDigit d = true → Reads sign .more cs colon rest →
      Reads sign .digit (d :: cs) colon rest
  | more {d cs colon rest} : Text.isDigit d = true → Reads sign .more cs colon rest →
      Reads sign .more (d :: cs) colon rest
  | colon {cs} : Reads sign .more (':' :: cs) true cs
  | close {cs} : Reads sign .more ('\x7d' :: cs) false cs
  | leaveClose {stage cs colon rest} : Reads sign stage cs colon rest →
      Reads sign stage ('\x7d' :: cs) colon rest
  | leaveMarker {stage cs inner behind colon rest} : Reads sign .brace cs inner behind →
      inner = true ∨ sign = [] → Reads sign stage behind colon rest →
      Reads sign stage ('$' :: cs) colon rest

/-- Behind a dollar sign that no backslash stands before and that opens nothing, a marker without
text can be read if closing braces and openers are left out. -/
def Torn (sign : List Char) (text : String) : Prop :=
  ∃ before after rest, text.toList = before ++ '$' :: after ∧ before.getLast? ≠ some '\\' ∧
    opener? after = none ∧ Reads sign .brace after false rest

variable {sign : List Char}

theorem Reads.more_append {ds : List Char} (hds : ∀ d ∈ ds, Text.isDigit d = true)
    {cs rest : List Char} {colon : Bool} (h : Reads sign .more cs colon rest) :
    Reads sign .more (ds ++ cs) colon rest := by
  induction ds with
  | nil => exact h
  | cons d ds ih =>
    exact .more (hds d List.mem_cons_self) (ih fun e he => hds e (List.mem_cons_of_mem d he))

theorem Reads.digit_append {ds : List Char} (hne : ds ≠ [])
    (hds : ∀ d ∈ ds, Text.isDigit d = true) {cs rest : List Char} {colon : Bool}
    (h : Reads sign .more cs colon rest) : Reads sign .digit (ds ++ cs) colon rest := by
  obtain ⟨d, ds, rfl⟩ := List.exists_cons_of_ne_nil hne
  exact .digit (hds d List.mem_cons_self)
    (h.more_append fun e he => hds e (List.mem_cons_of_mem d he))

/-- An opener can be read as it stands. -/
theorem Reads.head {o : Opener} (h : o.IsNumbered) (cs : List Char) :
    Reads sign .brace (o.head ++ cs) o.colon cs := by
  have hsign : Reads sign .more (o.sign :: cs) o.colon cs := by
    unfold Opener.sign
    cases o.colon
    · exact .close
    · exact .colon
  rw [Opener.head, List.cons_append, List.append_assoc]
  exact .brace (hsign.digit_append h.ne_nil h.isDigit)

theorem Reads.colon_of_more {ds cs rest : List Char} {colon : Bool}
    (hds : ∀ d ∈ ds, Text.isDigit d = true)
    (h : Reads sign .more (ds ++ ':' :: cs) colon rest) : colon = true := by
  induction ds with
  | nil =>
    cases h with
    | more hd _ => exact absurd hd (by decide)
    | colon => rfl
  | cons d ds ih =>
    have hd := hds d List.mem_cons_self
    cases h with
    | more _ h => exact ih (fun e he => hds e (List.mem_cons_of_mem d he)) h
    | colon => exact absurd hd (by decide)
    | close => exact absurd hd (by decide)
    | leaveClose _ => exact absurd hd (by decide)
    | leaveMarker _ _ _ => exact absurd hd (by decide)

/-- Where an opener with a colon stands, nothing else can be read. -/
theorem Reads.colon_of_head {o : Opener} (ho : o.IsNumbered) (hcolon : o.colon = true)
    {cs rest : List Char} {colon : Bool} (h : Reads sign .brace (o.head ++ cs) colon rest) :
    colon = true := by
  obtain ⟨d, ds, hdigits⟩ := List.exists_cons_of_ne_nil ho.ne_nil
  have hds := ho.isDigit
  rw [hdigits] at hds
  have hd := hds d List.mem_cons_self
  rw [Opener.head, Opener.sign, hcolon, hdigits, List.cons_append, List.append_assoc,
    List.cons_append] at h
  cases h with
  | brace h =>
    cases h with
    | digit _ h => exact h.colon_of_more fun e he => hds e (List.mem_cons_of_mem d he)
    | leaveClose _ => exact absurd hd (by decide)
    | leaveMarker _ _ _ => exact absurd hd (by decide)

/-! ### Leaving out -/

/-- The second text is the first one, with closing braces and openers with a colon left out, with a
sign in place of markers without text, and with other numbers. -/
inductive Thins (sign : List Char) : List Char → List Char → Prop where
  | nil : Thins sign [] []
  | keep {c old new} : Thins sign old new → Thins sign (c :: old) (c :: new)
  | close {old new} : Thins sign old new → Thins sign ('\x7d' :: old) new
  | opener {o : Opener} {old new} : o.IsNumbered → o.colon = true → Thins sign old new →
      Thins sign ('$' :: (o.head ++ old)) new
  | bare {o : Opener} {old new} : o.IsNumbered → Thins sign old new →
      Thins sign ('$' :: (o.head ++ old)) (sign ++ new)
  | digits {o : Opener} {old new} : o.IsNumbered → Thins sign old new →
      Thins sign (o.digits ++ old) ('0' :: new)

theorem Thins.append {old new : List Char} (h : Thins sign old new) (p : List Char) :
    Thins sign (p ++ old) (p ++ new) := by
  induction p with
  | nil => exact h
  | cons c p ih => exact .keep ih

theorem ne_bar_of_isDigit {d : Char} (h : Text.isDigit d = true) : d ≠ '|' := by
  rintro rfl
  exact absurd h (by decide)

/-- Where a digit can be read, more digits can. -/
theorem Reads.of_zero {o : Opener} (h : o.IsNumbered) {stage : Stage} {cs rest : List Char}
    {colon : Bool} (hzero : Reads sign stage ('0' :: cs) colon rest) :
    Reads sign stage (o.digits ++ cs) colon rest := by
  cases hzero with
  | digit _ hmore => exact hmore.digit_append h.ne_nil h.isDigit
  | more _ hmore => exact hmore.more_append h.isDigit

variable (hsign : sign = [] ∨ sign = cursorSign)

include hsign

/-- What was left out before a character of a marker can be left out in reading. -/
theorem Thins.exists_of_cons {c : Char} (hc : c ≠ '|') {old new : List Char}
    (h : Thins sign old (c :: new)) : ∃ behind, Thins sign behind new ∧
      ∀ {stage colon rest}, Reads sign stage (c :: behind) colon rest →
        Reads sign stage old colon rest := by
  generalize hcnew : c :: new = cnew at h
  induction h with
  | nil => cases hcnew
  | keep h =>
    obtain ⟨rfl, rfl⟩ := List.cons.inj hcnew
    exact ⟨_, h, id⟩
  | close _ ih =>
    obtain ⟨behind, hthin, hreads⟩ := ih hcnew
    exact ⟨behind, hthin, fun h => .leaveClose (hreads h)⟩
  | opener ho hcolon _ ih =>
    obtain ⟨behind, hthin, hreads⟩ := ih hcnew
    exact ⟨behind, hthin, fun h => .leaveMarker (.head ho _) (.inl hcolon) (hreads h)⟩
  | bare ho _ ih =>
    rcases hsign with rfl | rfl
    · obtain ⟨behind, hthin, hreads⟩ := ih hcnew
      exact ⟨behind, hthin, fun h => .leaveMarker (.head ho _) (.inr rfl) (hreads h)⟩
    · -- the sign in place of the marker is in no marker
      exact absurd (List.cons.inj hcnew).1 hc
  | digits ho h =>
    obtain ⟨rfl, rfl⟩ := List.cons.inj hcnew
    exact ⟨_, h, fun h => h.of_zero ho⟩

/-- What can be read of a text can be read of the text it was made from. -/
theorem Thins.reads {stage : Stage} {old new rest : List Char} {colon : Bool}
    (h : Reads sign stage new colon rest) (hthin : Thins sign old new) :
    ∃ rest', Reads sign stage old colon rest' ∧ Thins sign rest' rest := by
  induction h generalizing old with
  | brace _ ih =>
    obtain ⟨behind, hbehind, hreads⟩ := hthin.exists_of_cons hsign (by decide)
    obtain ⟨rest', hrest, hthin'⟩ := ih hbehind
    exact ⟨rest', hreads (.brace hrest), hthin'⟩
  | digit hd _ ih =>
    obtain ⟨behind, hbehind, hreads⟩ := hthin.exists_of_cons hsign (ne_bar_of_isDigit hd)
    obtain ⟨rest', hrest, hthin'⟩ := ih hbehind
    exact ⟨rest', hreads (.digit hd hrest), hthin'⟩
  | more hd _ ih =>
    obtain ⟨behind, hbehind, hreads⟩ := hthin.exists_of_cons hsign (ne_bar_of_isDigit hd)
    obtain ⟨rest', hrest, hthin'⟩ := ih hbehind
    exact ⟨rest', hreads (.more hd hrest), hthin'⟩
  | colon =>
    obtain ⟨behind, hbehind, hreads⟩ := hthin.exists_of_cons hsign (by decide)
    exact ⟨behind, hreads .colon, hbehind⟩
  | close =>
    obtain ⟨behind, hbehind, hreads⟩ := hthin.exists_of_cons hsign (by decide)
    exact ⟨behind, hreads .close, hbehind⟩
  | leaveClose _ ih =>
    obtain ⟨behind, hbehind, hreads⟩ := hthin.exists_of_cons hsign (by decide)
    obtain ⟨rest', hrest, hthin'⟩ := ih hbehind
    exact ⟨rest', hreads (.leaveClose hrest), hthin'⟩
  | leaveMarker _ hleave _ ihinner ih =>
    obtain ⟨behind, hbehind, hreads⟩ := hthin.exists_of_cons hsign (by decide)
    obtain ⟨mid, hmid, hmidThin⟩ := ihinner hbehind
    obtain ⟨rest', hrest, hthin'⟩ := ih hmidThin
    exact ⟨rest', hreads (.leaveMarker hmid hleave hrest), hthin'⟩

omit hsign

/-! ### Dollar signs that are not escaped -/

/-- A dollar sign that no backslash stands before, and the text behind it. The first argument says
whether a backslash stands before the text. -/
inductive FreeDollar : Bool → List Char → List Char → Prop where
  | here {cs} : FreeDollar false ('$' :: cs) cs
  | there {escaped c cs after} :
    FreeDollar (c == '\\') cs after → FreeDollar escaped (c :: cs) after

namespace FreeDollar

variable {escaped : Bool} {c : Char} {cs after : List Char}

theorem exists_before (h : FreeDollar escaped cs after) :
    ∃ before, cs = before ++ '$' :: after ∧ (before = [] → escaped = false) ∧
      before.getLast? ≠ some '\\' := by
  induction h with
  | here => exact ⟨[], rfl, fun _ => rfl, by simp⟩
  | @there escaped c cs after _ ih =>
    obtain ⟨before, rfl, hfirst, hlast⟩ := ih
    refine ⟨c :: before, rfl, by simp, ?_⟩
    cases before with
    | nil =>
      have hc : c ≠ '\\' := by simpa using hfirst rfl
      simpa using hc
    | cons d before => simpa using hlast

theorem of_before {before : List Char} (h : before.getLast? ≠ some '\\') :
    FreeDollar false (before ++ '$' :: after) after := by
  have hall : ∀ escaped, (before = [] → escaped = false) →
      FreeDollar escaped (before ++ '$' :: after) after := by
    induction before with
    | nil =>
      intro escaped hfirst
      rw [hfirst rfl]
      exact .here
    | cons c before ih =>
      intro escaped _
      refine .there (ih ?_ _ ?_)
      · intro hlast
        cases before with
        | nil => cases hlast
        | cons d before => exact h (by simpa using hlast)
      · rintro rfl
        have hc : c ≠ '\\' := by simpa using h
        simpa using hc
  exact hall false fun _ => rfl

/-- A backslash before the text can only escape its first dollar sign. -/
theorem of_escaped (h : FreeDollar escaped cs after) : FreeDollar false cs after := by
  cases h with
  | here => exact .here
  | there h => exact .there h

theorem of_append {p : List Char} (hp : ∀ c ∈ p, IsPlain c) (h : FreeDollar false (p ++ cs) after) :
    FreeDollar false cs after := by
  induction p with
  | nil => exact h
  | cons c p ih =>
    have hc := hp c List.mem_cons_self
    cases h with
    | here => exact absurd rfl hc.1
    | there h =>
      rw [beq_false_of_ne hc.2] at h
      exact ih (fun d hd => hp d (List.mem_cons_of_mem c hd)) h

/-- Behind a character other than a backslash a dollar sign is as free as at the front. -/
theorem append (h : FreeDollar false cs after) (hc : c ≠ '\\') (p : List Char) :
    FreeDollar escaped (p ++ c :: cs) after := by
  induction p generalizing escaped with
  | nil =>
    rw [← beq_false_of_ne hc] at h
    exact .there h
  | cons d p ih => exact .there ih

/-- A dollar sign behind an opener. -/
theorem head {o : Opener} (h : FreeDollar false cs after) :
    FreeDollar false ('$' :: (o.head ++ cs)) after := by
  have hsplit : '$' :: (o.head ++ cs) = ('$' :: '\x7b' :: o.digits) ++ o.sign :: cs := by
    simp [Opener.head]
  rw [hsplit]
  exact h.append o.isPlain_sign.2 _

theorem exists_there {P : List Char → Prop}
    (h : ∃ old, FreeDollar (c == '\\') cs old ∧ P old) :
    ∃ old, FreeDollar escaped (c :: cs) old ∧ P old := by
  obtain ⟨old, hold, hP⟩ := h
  exact ⟨old, .there hold, hP⟩

theorem exists_head {o : Opener} {P : List Char → Prop}
    (h : ∃ old, FreeDollar false cs old ∧ P old) :
    ∃ old, FreeDollar false ('$' :: (o.head ++ cs)) old ∧ P old := by
  obtain ⟨old, hold, hP⟩ := h
  exact ⟨old, hold.head, hP⟩

/-- A dollar sign in a text with something new behind it was there before. -/
theorem append_cases {body new : List Char} (h : FreeDollar escaped (body ++ new) after)
    (old : List Char) : (∃ p, FreeDollar escaped (body ++ old) (p ++ old) ∧ after = p ++ new) ∨
      FreeDollar false new after := by
  induction body generalizing escaped with
  | nil => exact .inr h.of_escaped
  | cons c body ih =>
    cases h with
    | here => exact .inl ⟨body, .here, rfl⟩
    | there h =>
      obtain ⟨p, hp, rfl⟩ | h := ih h
      · exact .inl ⟨p, .there hp, rfl⟩
      · exact .inr h

end FreeDollar

/-! ### The passes -/

theorem Thins.final {o : Opener} (h : o.IsNumbered) {old new : List Char}
    (hthin : Thins sign old new) : Thins sign (o.head ++ old) (o.final.head ++ new) := by
  rw [Opener.head, Opener.head, List.cons_append, List.cons_append, List.append_assoc,
    List.append_assoc]
  exact .keep (.digits h (.keep hthin))

/-- Renumbering thins a text. -/
theorem thins_renumber (n : Nat) (escaped : Bool) (cs : List Char) :
    Thins sign cs (renumberAfter n escaped cs) := by
  induction escaped, cs using renumber_induction (n := n) with
  | nil escaped =>
    rw [(keepsDollars_renumber n).nil]
    exact .nil
  | head o h hn ih =>
    rw [renumberAfter_head h hn]
    exact .keep (ih.final h)
  | cons escaped c cs hc ih =>
    rw [renumberAfter_cons hc]
    exact .keep ih

theorem bare?_renumber (n : Nat) {cs : List Char}
    (h : bare? (renumberAfter n false cs) = none) : bare? cs = none := by
  rw [(keepsDollars_renumber n).bare?_eq_map, Option.map_eq_none_iff] at h
  exact h

/-- A free dollar sign of the renumbered text is one of the text. -/
theorem FreeDollar.of_renumber {n : Nat} {escaped : Bool} {cs new : List Char}
    (h : FreeDollar escaped (renumberAfter n escaped cs) new) : ∃ old,
      FreeDollar escaped cs old ∧ Thins sign old new ∧ (bare? new = none → bare? old = none) := by
  induction escaped, cs using renumber_induction (n := n) with
  | nil escaped =>
    rw [(keepsDollars_renumber n).nil] at h
    cases h
  | head o ho hn ih =>
    rw [renumberAfter_head ho hn] at h
    cases h with
    | here =>
      refine ⟨_, .here, (thins_renumber n false o.rest).final ho, fun hbare => ?_⟩
      rw [bare?_head_append o.isNumbered_final] at hbare
      rw [bare?_head_append ho]
      cases hcolon : o.colon with
      | false => simp [Opener.final, hcolon] at hbare
      | true => rfl
    | there h => exact exists_head (ih (h.of_append o.isNumbered_final.isPlain))
  | cons escaped c cs hc ih =>
    rw [renumberAfter_cons hc] at h
    cases h with
    | here => exact ⟨cs, .here, thins_renumber n false cs, bare?_renumber n⟩
    | there h => exact exists_there (ih h)

theorem thins_replaceBare (escaped : Bool) (cs : List Char) :
    Thins sign cs (replaceBareAfter sign escaped cs) := by
  fun_induction replaceBareAfter sign escaped cs with
  | case1 => exact .nil
  | case2 escaped c cs hc rest h ih =>
    obtain ⟨o, ho, -, rfl⟩ := exists_opener_of_bare h
    rw [hc.1]
    exact .bare ho ih
  | case3 escaped c cs hc h ih => exact .keep ih
  | case4 escaped c cs hc ih => exact .keep ih

/-- A free dollar sign that is left when the markers without text are replaced opens none. -/
theorem FreeDollar.of_replaceBare (hsign : ∀ c ∈ sign, IsPlain c) {escaped : Bool}
    {cs new : List Char} (h : FreeDollar escaped (replaceBareAfter sign escaped cs) new) :
    ∃ old, FreeDollar escaped cs old ∧ Thins sign old new ∧ bare? old = none := by
  fun_induction replaceBareAfter sign escaped cs with
  | case1 => cases h
  | case2 escaped c cs hc rest hbare ih =>
    obtain ⟨o, ho, -, rfl⟩ := exists_opener_of_bare hbare
    obtain ⟨rfl, rfl⟩ := hc
    exact exists_head (ih (h.of_append hsign))
  | case3 escaped c cs hc hbare ih =>
    obtain ⟨rfl, rfl⟩ := hc
    cases h with
    | here => exact ⟨cs, .here, thins_replaceBare false cs, hbare⟩
    | there h => exact exists_there (ih h)
  | case4 escaped c cs hc ih =>
    cases h with
    | here => exact absurd ⟨rfl, rfl⟩ hc
    | there h => exact exists_there (ih h)

theorem thins_unwrapOnce (escaped : Bool) (cs : List Char) :
    Thins sign cs (unwrapOnceAfter escaped cs) := by
  fun_induction unwrapOnceAfter escaped cs with
  | case1 => exact .nil
  | case2 escaped c cs hc body rest h ih =>
    obtain ⟨o, ho, hcolon, rfl⟩ := exists_opener_of_placeholder h
    rw [hc.1]
    exact .opener ho hcolon (ih.close.append body)
  | case3 escaped c cs hc h ih => exact .keep ih
  | case4 escaped c cs hc ih => exact .keep ih

/-- A free dollar sign after unwrapping was one before. -/
theorem FreeDollar.of_unwrapOnce {escaped : Bool} {cs new : List Char}
    (h : FreeDollar escaped (unwrapOnceAfter escaped cs) new) :
    ∃ old, FreeDollar escaped cs old ∧ Thins sign old new := by
  fun_induction unwrapOnceAfter escaped cs with
  | case1 => cases h
  | case2 escaped c cs hc body rest hbody ih =>
    obtain ⟨o, ho, -, rfl⟩ := exists_opener_of_placeholder hbody
    obtain ⟨rfl, rfl⟩ := hc
    -- the dollar sign stands in the text of the marker or behind the marker
    obtain ⟨p, hp, rfl⟩ | h := h.append_cases ('\x7d' :: rest)
    · exact ⟨_, hp.head, (thins_unwrapOnce false rest).close.append p⟩
    · obtain ⟨old, hold, hthin⟩ := ih h
      exact ⟨old, (hold.append (by decide) body).head, hthin⟩
  | case3 escaped c cs hc hbody ih =>
    obtain ⟨rfl, rfl⟩ := hc
    cases h with
    | here => exact ⟨cs, .here, thins_unwrapOnce false cs⟩
    | there h => exact exists_there (ih h)
  | case4 escaped c cs hc ih =>
    cases h with
    | here => exact absurd ⟨rfl, rfl⟩ hc
    | there h => exact exists_there (ih h)

/-- A marker that can be read after unwrapping could be read before. -/
theorem exists_reads_of_unwrap (hsign : sign = [] ∨ sign = cursorSign) {cs new rest : List Char}
    (h : FreeDollar false (unwrap cs) new) (hreads : Reads sign .brace new false rest) :
    ∃ old rest', FreeDollar false cs old ∧ Reads sign .brace old false rest' := by
  fun_induction unwrap cs with
  | case1 cs next hnext => exact ⟨new, rest, h, hreads⟩
  | case2 cs next hnext ih =>
    -- the passes are undone from the last one to the first one
    obtain ⟨old, rest', hold, hread⟩ := ih h
    obtain ⟨older, holder, hthin⟩ : ∃ older, FreeDollar false cs older ∧ Thins sign older old :=
      hold.of_unwrapOnce
    obtain ⟨rest'', hread', -⟩ := Thins.reads hsign hread hthin
    exact ⟨older, rest'', holder, hread'⟩

/-! ### What is left over -/

theorem hasMarker_iff {text : String} : HasMarker text ↔ ∃ o : Opener, o.IsNumbered ∧
    o.colon = false ∧ FreeDollar false text.toList (o.head ++ o.rest) := by
  constructor
  · rintro ⟨before, digits, after, htext, hlast, hne, hdigits⟩
    refine ⟨⟨digits, false, after⟩, ⟨hne, hdigits⟩, rfl, ?_⟩
    have hfree : FreeDollar false (before ++ '$' :: '\x7b' :: (digits ++ '\x7d' :: after))
        ('\x7b' :: (digits ++ '\x7d' :: after)) := .of_before hlast
    rw [htext]
    simpa [Opener.head, Opener.sign] using hfree
  · rintro ⟨o, ho, hcolon, hfree⟩
    obtain ⟨before, htext, -, hlast⟩ := hfree.exists_before
    refine ⟨before, o.digits, o.rest, ?_, hlast, ho.ne_nil, ho.isDigit⟩
    rw [htext]
    simp [Opener.head, Opener.sign, hcolon]

theorem bare?_eq_none_of_opener? {cs : List Char} (h : opener? cs = none) : bare? cs = none := by
  rw [bare?, h]

theorem opener?_eq_none_of_reads {cs rest : List Char} (hbare : bare? cs = none)
    (h : Reads sign .brace cs false rest) : opener? cs = none := by
  cases ho : opener? cs with
  | none => rfl
  | some o =>
    obtain ⟨hnum, rfl⟩ := opener?_eq_some_iff.1 ho
    rw [bare?_head_append hnum] at hbare
    cases hcolon : o.colon with
    | false => simp [hcolon] at hbare
    | true => cases h.colon_of_head hnum hcolon

theorem torn_iff {text : String} : Torn sign text ↔ ∃ after rest,
    FreeDollar false text.toList after ∧ bare? after = none ∧
      Reads sign .brace after false rest := by
  constructor
  · rintro ⟨before, after, rest, htext, hlast, hnone, hreads⟩
    refine ⟨after, rest, ?_, bare?_eq_none_of_opener? hnone, hreads⟩
    rw [htext]
    exact .of_before hlast
  · rintro ⟨after, rest, hfree, hbare, hreads⟩
    obtain ⟨before, htext, -, hlast⟩ := hfree.exists_before
    exact ⟨before, after, rest, htext, hlast, opener?_eq_none_of_reads hbare hreads, hreads⟩

/-- A marker that is left over was torn. -/
theorem torn_of_hasMarker_unwrap (hsign : sign = [] ∨ sign = cursorSign) {text : String}
    (h : HasMarker (String.ofList (unwrap (replaceBareAfter sign false text.toList)))) :
    Torn sign text := by
  obtain ⟨o, ho, hcolon, hfree⟩ := hasMarker_iff.1 h
  rw [String.toList_ofList] at hfree
  have hreads : Reads sign .brace (o.head ++ o.rest) false o.rest := by
    rw [← hcolon]
    exact .head ho o.rest
  obtain ⟨new, rest, hnew, hread⟩ := exists_reads_of_unwrap hsign hfree hreads
  have hplain : ∀ c ∈ sign, IsPlain c := by
    rcases hsign with rfl | rfl
    · simp
    · intro c hc
      obtain rfl := List.mem_singleton.1 hc
      constructor <;> decide
  obtain ⟨old, hold, hthin, hbare⟩ := hnew.of_replaceBare hplain
  obtain ⟨rest', hread', -⟩ := Thins.reads hsign hread hthin
  exact torn_iff.2 ⟨old, rest', hold, hbare, hread'⟩

/-- Renumbering tears nothing. -/
theorem torn_of_torn_promote (hsign : sign = [] ∨ sign = cursorSign) {text : String}
    (h : Torn sign (promote text)) : Torn sign text := by
  obtain ⟨new, rest, hnew, hbare, hread⟩ := torn_iff.1 h
  rw [promote, String.toList_ofList] at hnew
  obtain hsame | ⟨s, -, hrenumber⟩ := promoteChars_eq_or text.toList
  · rw [hsame] at hnew
    exact torn_iff.2 ⟨new, rest, hnew, hbare, hread⟩
  · rw [hrenumber] at hnew
    obtain ⟨old, hold, hthin, hkept⟩ : ∃ old, FreeDollar false text.toList old ∧
        Thins sign old new ∧ (bare? new = none → bare? old = none) := hnew.of_renumber
    obtain ⟨rest', hread', -⟩ := Thins.reads hsign hread hthin
    exact torn_iff.2 ⟨old, rest', hold, hkept hbare, hread'⟩

/-- **Only torn markers are left over** of a template when it is shown, and of any text when its
markers are removed. -/
theorem torn_of_hasMarker (text : String) :
    (HasMarker (preview (promote text)) → Torn cursorSign text) ∧
      (HasMarker (plainText text) → Torn [] text) :=
  ⟨fun h => torn_of_torn_promote (.inr rfl) (torn_of_hasMarker_unwrap (.inr rfl) h),
    torn_of_hasMarker_unwrap (.inl rfl)⟩

/-! ### Two markers that are left over -/

/-- Removing the second marker makes the first one whole. -/
theorem plainText_nested : plainText "$\x7b1$\x7b2\x7d\x7d" = "$\x7b1\x7d" := by
  decide +kernel

/-- Unwrapping the marker puts a dollar sign before a brace. -/
theorem preview_split : preview (promote "$$\x7b0:\x7d\x7b1\x7d") = "$\x7b1\x7d" := by
  decide +kernel

theorem hasMarker_one : HasMarker "$\x7b1\x7d" :=
  ⟨[], ['1'], [], rfl, by decide, by decide, List.forall_mem_singleton.2 (by decide)⟩

/-- Some markers are left over: one when all markers are removed, and one in the display of a
template. -/
theorem hasMarker_left_over :
    HasMarker (plainText "$\x7b1$\x7b2\x7d\x7d") ∧
      HasMarker (preview (promote "$$\x7b0:\x7d\x7b1\x7d")) := by
  rw [plainText_nested, preview_split]
  exact ⟨hasMarker_one, hasMarker_one⟩

/-- Both of them were torn. -/
theorem torn_of_hasMarker_left_over :
    (HasMarker (preview (promote "$$\x7b0:\x7d\x7b1\x7d")) ∧
      Torn cursorSign "$$\x7b0:\x7d\x7b1\x7d") ∧
    HasMarker (plainText "$\x7b1$\x7b2\x7d\x7d") ∧ Torn [] "$\x7b1$\x7b2\x7d\x7d" := by
  have hsplit : HasMarker (preview (promote "$$\x7b0:\x7d\x7b1\x7d")) := by
    rw [preview_split]
    exact hasMarker_one
  have hnested : HasMarker (plainText "$\x7b1$\x7b2\x7d\x7d") := by
    rw [plainText_nested]
    exact hasMarker_one
  exact ⟨⟨hsplit, (torn_of_hasMarker _).1 hsplit⟩, hnested, (torn_of_hasMarker _).2 hnested⟩

end Emmet.Template
