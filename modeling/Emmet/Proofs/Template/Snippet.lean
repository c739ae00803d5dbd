import Emmet.Proofs.Template.Marker

/-!
# Templates as trees

A template that is put together from texts and fields is a tree: a field may have fields in its
text. What is shown of it are its texts in order. The markers are taken away from the inside to the
outside, one layer with each pass, and a marker never ends at a brace of another one.

* `Snippet.render` : the template of a tree;
* `Snippet.flatten` : the texts of a tree in order, with a sign for the fields without text;
* `Snippet.layer` : the template when some passes are done;
* `unwrapOnce_layer` : each pass takes away the innermost layer;
* `display_render` : what is shown of the template of a tree are the texts of the tree.
-/

namespace Emmet.Template

/-! ### Trees -/

/-- A text that takes no part in markers has no dollar sign, no closing brace and no backslash. -/
def IsText (cs : List Char) : Prop := '$' ∉ cs ∧ '\x7d' ∉ cs ∧ '\\' ∉ cs

instance : DecidablePred IsText := fun cs =>
  inferInstanceAs (Decidable ('$' ∉ cs ∧ '\x7d' ∉ cs ∧ '\\' ∉ cs))

/-- Texts and fields one after the other. A field has a number and texts and fields of its own; what
comes behind a text or a field is held with it. -/
inductive Snippet where
  | nil
  | text (t : { s : String // IsText s.toList }) (rest : Snippet)
  | field (number : Nat) (body rest : Snippet)

namespace Snippet

/-- The template of a tree. -/
def render : Snippet → String
  | nil => ""
  | text t rest => t.1 ++ rest.render
  | field number body rest => Template.field number body.render ++ rest.render

/-- The texts of a tree in order, with a sign for each field whose template is empty. -/
def flatten (sign : String) : Snippet → String
  | nil => ""
  | text t rest => t.1 ++ rest.flatten sign
  | field _ body rest => (if body.render = "" then sign else body.flatten sign) ++ rest.flatten sign

/-- How deep fields with text are nested. -/
def height : Snippet → Nat
  | nil => 0
  | text _ rest => rest.height
  | field _ body rest =>
    if body.render = "" then rest.height else max (body.height + 1) rest.height

end Snippet

/-- The opener of a field. -/
def Opener.ofNumber (n : Nat) (colon : Bool) : Opener := ⟨(toString n).toList, colon, []⟩

/-- The template of a tree when signs are written for the fields without text and some passes are
done: only fields with more layers than that are left. -/
def Snippet.layer (sign : List Char) (k : Nat) : Snippet → List Char
  | nil => []
  | text t rest => t.1.toList ++ layer sign k rest
  | field n body rest =>
    (if body.render = "" then sign
      else if body.height < k then layer sign k body
      else '$' :: ((Opener.ofNumber n true).head ++ (layer sign k body ++ ['\x7d']))) ++
        layer sign k rest

/-! ### Texts -/

theorem IsText.isPlain {cs : List Char} (h : IsText cs) : ∀ c ∈ cs, IsPlain c := by
  intro c hc
  exact ⟨fun hdollar => h.1 (hdollar ▸ hc), fun hbackslash => h.2.2 (hbackslash ▸ hc)⟩

theorem isText_nil : IsText [] := ⟨by simp, by simp, by simp⟩

theorem IsText.append {cs ds : List Char} (hcs : IsText cs) (hds : IsText ds) :
    IsText (cs ++ ds) := by
  simp only [IsText, List.mem_append, not_or] at *
  exact ⟨⟨hcs.1, hds.1⟩, ⟨hcs.2.1, hds.2.1⟩, hcs.2.2, hds.2.2⟩

/-- A text is part of the text of a field. -/
theorem body?_append {p : List Char} (hp : IsText p) (cs : List Char) :
    body? (p ++ cs) = (body? cs).map fun b => (p ++ b.1, b.2) := by
  induction p with
  | nil => simp
  | cons c p ih =>
    simp only [IsText, List.mem_cons, not_or] at hp
    obtain ⟨⟨hdollar, hp1⟩, ⟨hbrace, hp2⟩, -, hp3⟩ := hp
    rw [List.cons_append, body?, if_neg (Ne.symm hbrace), if_neg fun h => hdollar h.1.symm,
      ih ⟨hp1, hp2, hp3⟩, Option.map_map]
    rfl

/-- A text up to a closing brace is the text of a field. -/
theorem body?_text {p : List Char} (hp : IsText p) (cs : List Char) :
    body? (p ++ '\x7d' :: cs) = some (p, cs) := by
  rw [body?_append hp, body?, if_pos rfl, Option.map_some, List.append_nil]

/-! ### Fields -/

theorem Opener.isNumbered_ofNumber (n : Nat) (colon : Bool) :
    (Opener.ofNumber n colon).IsNumbered where
  ne_nil := by
    rw [ofNumber, Nat.toString_eq_repr, Nat.toList_repr]
    exact Nat.toDigits_ne_nil
  isDigit d hd := by
    rw [ofNumber, Nat.toString_eq_repr, Nat.toList_repr] at hd
    have hdigit := Nat.isDigit_of_mem_toDigits (by decide) (by decide) hd
    have hascii : d.toNat < 128 := by
      simp only [Char.isDigit, Bool.and_eq_true, decide_eq_true_eq] at hdigit
      exact Nat.lt_of_le_of_lt hdigit.2 (by decide)
    rwa [Text.isDigit_of_ascii hascii]

theorem toList_field (n : Nat) (placeholder : String) : (field n placeholder).toList =
    if placeholder = "" then '$' :: (Opener.ofNumber n false).head
    else '$' :: ((Opener.ofNumber n true).head ++ (placeholder.toList ++ ['\x7d'])) := by
  unfold field
  split <;> simp [Opener.head, Opener.ofNumber, Opener.sign]

/-- A marker is replaced by the sign if it is one without text. -/
theorem replaceBareAfter_head {o : Opener} (h : o.IsNumbered) (sign cs : List Char) :
    replaceBareAfter sign false ('$' :: (o.head ++ cs)) =
      if o.colon then '$' :: (o.head ++ replaceBareAfter sign false cs)
      else sign ++ replaceBareAfter sign false cs := by
  have hbare := bare?_head_append h cs
  split
  · next hcolon =>
    rw [if_pos hcolon] at hbare
    rw [replaceBareAfter_of_none hbare, (copiesText_replaceBare sign).head_append h]
  · next hcolon =>
    rw [if_neg hcolon] at hbare
    exact replaceBareAfter_of_some hbare

/-- A marker is unwrapped if it ends before another one opens. -/
theorem unwrapOnceAfter_head {o : Opener} (h : o.IsNumbered) (hcolon : o.colon = true)
    (cs : List Char) : unwrapOnceAfter false ('$' :: (o.head ++ cs)) =
      match body? cs with
      | some (body, rest) => body ++ unwrapOnceAfter false rest
      | none => '$' :: (o.head ++ unwrapOnceAfter false cs) := by
  have hplaceholder := placeholder?_head_append h cs
  rw [hcolon, if_pos rfl] at hplaceholder
  cases hbody : body? cs with
  | some p => exact unwrapOnceAfter_of_some (hplaceholder.trans hbody)
  | none =>
    rw [unwrapOnceAfter_of_none (hplaceholder.trans hbody), copiesText_unwrapOnce.head_append h]

/-! ### Layers -/

namespace Snippet

variable {sign : List Char} (hsign : IsText sign)

/-- When as many passes are done as there are layers, the texts are left. -/
theorem layer_eq_flatten {k : Nat} {s : Snippet} (h : s.height ≤ k) :
    s.layer sign k = (s.flatten (String.ofList sign)).toList := by
  induction s with
  | nil => rfl
  | text t rest ih => rw [layer, flatten, String.toList_append, ih h]
  | field n body rest ihbody ih =>
    rw [height] at h
    rw [layer, flatten, String.toList_append]
    split at h
    · next hempty => rw [if_pos hempty, if_pos hempty, String.toList_ofList, ih h]
    · next hempty =>
      have hbody : body.height < k := by omega
      rw [if_neg hempty, if_neg hempty, if_pos hbody, ihbody (by omega), ih (by omega)]

/-- Replacing the markers without text leaves all layers. -/
theorem replaceBare_render (s : Snippet) (cs : List Char) :
    replaceBareAfter sign false (s.render.toList ++ cs) =
      s.layer sign 0 ++ replaceBareAfter sign false cs := by
  induction s generalizing cs with
  | nil => rfl
  | text t rest ih =>
    rw [render, layer, String.toList_append, List.append_assoc,
      (copiesText_replaceBare sign).append t.2.isPlain, ih, List.append_assoc]
  | field n body rest ihbody ih =>
    rw [render, layer, String.toList_append, toList_field, List.append_assoc, List.append_assoc]
    split
    · next hempty =>
      rw [List.cons_append, replaceBareAfter_head (Opener.isNumbered_ofNumber n false), ih]
      rfl
    · next hempty =>
      have hbrace : IsPlain '\x7d' := ⟨by decide, by decide⟩
      rw [if_neg (Nat.not_lt_zero _), List.cons_append, List.append_assoc, List.append_assoc,
        replaceBareAfter_head (Opener.isNumbered_ofNumber n true), ihbody, List.cons_append,
        List.nil_append, (copiesText_replaceBare sign).plain_cons hbrace, ih]
      simp [Opener.ofNumber]

include hsign

theorem isText_layer {k : Nat} {s : Snippet} (h : s.height ≤ k) : IsText (s.layer sign k) := by
  induction s with
  | nil => exact isText_nil
  | text t rest ih => exact t.2.append (ih h)
  | field n body rest ihbody ih =>
    rw [height] at h
    rw [layer]
    split at h
    · next hempty =>
      rw [if_pos hempty]
      exact hsign.append (ih h)
    · next hempty =>
      have hbody : body.height < k := by omega
      rw [if_neg hempty, if_pos hbody]
      exact (ihbody (by omega)).append (ih (by omega))

/-- As long as there are more layers, a marker opens before one closes. -/
theorem body?_layer {k : Nat} {s : Snippet} (h : k < s.height) (cs : List Char) :
    body? (s.layer sign k ++ cs) = none := by
  induction s with
  | nil => exact absurd h (Nat.not_lt_zero k)
  | text t rest ih => rw [layer, List.append_assoc, body?_append t.2, ih h, Option.map_none]
  | field n body rest ihbody ih =>
    rw [height] at h
    rw [layer, List.append_assoc]
    split at h
    · next hempty => rw [if_pos hempty, body?_append hsign, ih h, Option.map_none]
    · next hempty =>
      rw [if_neg hempty]
      split
      · next hbody =>
        have htext : IsText (body.layer sign k) := isText_layer hsign (by omega)
        rw [body?_append htext, ih (by omega), Option.map_none]
      · rw [List.cons_append, body?, if_neg (by decide), if_pos ⟨rfl, rfl⟩]

/-- Each pass takes away the innermost layer. -/
theorem unwrapOnce_layer (k : Nat) (s : Snippet) (cs : List Char) :
    unwrapOnceAfter false (s.layer sign k ++ cs) =
      s.layer sign (k + 1) ++ unwrapOnceAfter false cs := by
  induction s generalizing cs with
  | nil => rfl
  | text t rest ih =>
    rw [layer, layer, List.append_assoc, copiesText_unwrapOnce.append t.2.isPlain, ih,
      List.append_assoc]
  | field n body rest ihbody ih =>
    rw [layer, layer, List.append_assoc, List.append_assoc]
    split
    · rw [copiesText_unwrapOnce.append hsign.isPlain, ih]
    · obtain hlt | rfl | hgt := Nat.lt_trichotomy body.height k
      · rw [if_pos hlt, if_pos (by omega), ihbody, ih]
      · -- the innermost layer
        have htext : IsText (body.layer sign body.height) := isText_layer hsign (Nat.le_refl _)
        rw [if_neg (Nat.lt_irrefl _), if_pos (Nat.lt_succ_self _), List.cons_append,
          List.append_assoc, List.append_assoc,
          unwrapOnceAfter_head (Opener.isNumbered_ofNumber n true) rfl, List.cons_append,
          List.nil_append, body?_text htext, layer_eq_flatten (Nat.le_refl _),
          layer_eq_flatten (Nat.le_succ _)]
        exact congrArg _ (ih cs)
      · -- a layer further out, which is kept as a marker opens in it
        have hbrace : IsPlain '\x7d' := ⟨by decide, by decide⟩
        rw [if_neg (by omega), if_neg (by omega), List.cons_append, List.append_assoc,
          List.append_assoc, unwrapOnceAfter_head (Opener.isNumbered_ofNumber n true) rfl,
          body?_layer hsign hgt, ihbody, List.cons_append, List.nil_append,
          copiesText_unwrapOnce.plain_cons hbrace, ih]
        simp

end Snippet

/-! ### All passes -/

theorem unwrap_unwrapOnce (cs : List Char) : unwrap (unwrapOnceAfter false cs) = unwrap cs := by
  by_cases h : unwrapOnceAfter false cs = cs
  · rw [h]
  · conv =>
      rhs
      rw [unwrap]
    exact (if_neg h).symm

theorem unwrap_of_isText {cs : List Char} (h : IsText cs) : unwrap cs = cs := by
  have hpass := copiesText_unwrapOnce.append h.isPlain []
  rw [copiesText_unwrapOnce.nil, List.append_nil] at hpass
  rw [unwrap]
  exact if_pos hpass

/-- However many passes are done already, the texts are left in the end. -/
theorem Snippet.unwrap_layer {sign : List Char} (hsign : IsText sign) (s : Snippet) (k : Nat) :
    unwrap (s.layer sign k) = (s.flatten (String.ofList sign)).toList := by
  -- on the number of layers that are left
  induction hd : s.height - k generalizing k with
  | zero =>
    have hk : s.height ≤ k := by omega
    rw [unwrap_of_isText (isText_layer hsign hk), layer_eq_flatten hk]
  | succ d ih =>
    have hpass := unwrapOnce_layer hsign k s []
    rw [List.append_nil, copiesText_unwrapOnce.nil, List.append_nil] at hpass
    rw [← unwrap_unwrapOnce, hpass]
    exact ih (k + 1) (by omega)

theorem Snippet.unwrap_replaceBare {sign : List Char} (hsign : IsText sign) (s : Snippet) :
    String.ofList (unwrap (replaceBareAfter sign false s.render.toList)) =
      s.flatten (String.ofList sign) := by
  have hbare : replaceBareAfter sign false (s.render.toList ++ []) =
      s.layer sign 0 ++ replaceBareAfter sign false [] := s.replaceBare_render []
  rw [List.append_nil, (copiesText_replaceBare sign).nil, List.append_nil] at hbare
  rw [hbare, s.unwrap_layer hsign, String.ofList_toList]

/-- **What is shown of the template of a tree are the texts of the tree**, in a preview with a sign
for each field without text. -/
theorem display_render (s : Snippet) :
    preview s.render = s.flatten "|" ∧ plainText s.render = s.flatten "" := by
  have hcursor : IsText cursorSign := ⟨by decide, by decide, by decide⟩
  exact ⟨s.unwrap_replaceBare hcursor, s.unwrap_replaceBare isText_nil⟩

/-- The tree of `${1:x ${2}}`. -/
example : preview (Snippet.render
    (.field 1 (.text ⟨"x ", by decide⟩ (.field 2 .nil .nil)) .nil)) = "x |" := by
  decide +kernel

end Emmet.Template
