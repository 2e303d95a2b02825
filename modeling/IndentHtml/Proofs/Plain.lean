import IndentHtml.Proofs.Escaping
import IndentHtml.Proofs.Independence
import Mathlib.Data.List.DropRight

/-!
# Plain templates

A template is plain when its lines are.  What a plain line brings to a page is clean: the texts of
a line are cut out of it, the names of its tag and its attributes are made of name characters, and
values are escaped when they are written (`Brought.clean`).

**Safety** (`safe_of_plain`).  The finished HTML of a plain template is a sequence of clean pieces
that nest.  Clean pieces can be read in one way only, and data that differs in no condition and no
loop gives the same tags, so the data adds, removes and alters no tag and no attribute.
-/

namespace IndentHtml

open Html (Tag Token)
open Piece (IsName IsText)

/-! ### Texts of a line -/

theorem Text.isInfix_trim (t : Text) : Text.trim t <:+: t := by
  have hright : Text.trim t <+: trimLeft t := List.rdropWhile_prefix isMargin _
  exact hright.isInfix.trans (List.dropWhile_suffix _).isInfix

theorem Line.content_suffix (line : Line) : line.content <:+ line :=
  List.dropWhile_suffix _

namespace Statement

/-- The text of a line is the end of its content. -/
theorem suffix_of_ofContent_eq_text {t content : Text} (h : ofContent t = .text content) :
    content <:+ t := by
  unfold ofContent at h
  split at h
  · cases h
  · next rest =>
      obtain rfl := Statement.text.inj h
      exact (List.dropWhile_suffix _).trans (List.suffix_cons _ _)
  · repeat' split at h
    all_goals cases h

/-- The element of a line is read from the whole of its content. -/
theorem eq_ofLine_of_ofContent_eq_element {t : Text} {e : Element}
    (h : ofContent t = .element e) : e = Element.ofLine t := by
  unfold ofContent at h
  split at h
  · cases h
  · cases h
  · repeat' split at h
    all_goals cases h
    rfl

end Statement

theorem Selector.readAll_suffix (t : Text) : (readAll t).2 <:+ t := by
  fun_induction readAll t with
  | case1 => exact List.suffix_refl _
  | case2 t _ _ ih => exact ih.trans ((List.dropWhile_suffix _).trans (List.suffix_cons _ _))
  | case3 t _ _ _ ih => exact ih.trans ((List.dropWhile_suffix _).trans (List.suffix_cons _ _))
  | case4 c t _ _ => exact List.suffix_refl _

namespace Element

theorem readTag_suffix (t : Text) : (readTag t).2 <:+ t := by
  cases t with
  | nil => exact List.suffix_refl _
  | cons c t =>
      rw [readTag]
      split
      · exact List.dropWhile_suffix _
      · exact List.suffix_refl _

theorem readParenthesised_suffix (t : Text) : (readParenthesised t).2 <:+ t := by
  unfold readParenthesised
  split
  · next rest =>
      cases h : closing? 0 rest with
      | none => exact List.nil_suffix
      | some p =>
          rw [eq_of_closing? h]
          exact (List.suffix_cons _ _).trans (List.suffix_append ('(' :: p.1) _)
  · exact List.suffix_refl _

/-- The text of an element is cut out of its line. -/
theorem isInfix_text (t : Text) : (ofLine t).text <:+: t :=
  (Text.isInfix_trim _).trans ((readParenthesised_suffix _).trans
    ((Selector.readAll_suffix _).trans (readTag_suffix t))).isInfix

end Element

/-! ### Names of a line -/

theorem Text.isNameChar_of_isLetter {c : Char} (h : isLetter c = true) : isNameChar c = true := by
  simp [isNameChar, isWordChar, h]

/-- The tag of an element is a name, since it starts with a letter or is `div`. -/
theorem Element.isName_readTag (t : Text) : IsName (readTag t).1 := by
  have hdiv : IsName "div".toList := by decide
  cases t with
  | nil => exact hdiv
  | cons c t =>
      rw [readTag]
      split
      · next hc =>
          refine ⟨?_, fun d hd => List.mem_takeWhile_imp hd⟩
          rw [List.takeWhile_cons_of_pos (Text.isNameChar_of_isLetter hc)]
          exact List.cons_ne_nil _ _
      · exact hdiv

/-- The attributes that selectors stand for are named `id` and `class`. -/
theorem Selector.isName_attributes {selectors : List Selector} {a : Html.Attribute}
    (h : a ∈ attributes selectors) : IsName a.name := by
  have hid : IsName "id".toList := by decide
  have hclass : IsName "class".toList := by decide
  rcases mem_attributes h with rfl | rfl
  · exact hid
  · exact hclass

namespace AttributeList

theorem isName_nameOf {t : Text} (h : nameOf t ≠ []) : IsName (nameOf t) :=
  ⟨h, fun _ hc => (List.mem_filter.mp hc).2⟩

/-- The name of a listed attribute is a name, since a token without one is left out. -/
theorem isName_attribute? {token : Text} {a : Html.Attribute} (h : attribute? token = some a) :
    IsName a.name := by
  obtain ⟨hne, rfl | ⟨key, value, -, rfl⟩⟩ := attribute?_eq_some h
  · exact isName_nameOf hne
  · exact isName_nameOf hne

end AttributeList

/-- All attributes of an element have names. -/
theorem Element.isName_attributes {t : Text} {a : Html.Attribute}
    (h : a ∈ (ofLine t).attributes) : IsName a.name := by
  rcases List.mem_append.mp h with h | h
  · exact Selector.isName_attributes h
  · obtain ⟨token, -, ha⟩ := List.mem_filterMap.mp h
    exact AttributeList.isName_attribute? ha

/-! ### Clean pieces -/

/-- The start tag of an element under a scope. -/
def Piece.startTag (scope : Scope) (e : Element) : Piece :=
  .opening e.tag (e.attributes.map fun a =>
    (a.name, a.value.map fun value => Html.escape (scope.interpolateAttribute value)))

/-- A start tag is one piece. -/
theorem Piece.ofToken_opening (scope : Scope) (e : Element) (level : Nat) :
    ofToken (.opening ⟨e.tag, level⟩ (e.attributes.map scope.resolve)) = [startTag scope e] := by
  simp [ofToken, startTag, Scope.resolve, Function.comp_def]

/-- The start tag of an element line is clean: its names are names, and the values are escaped. -/
theorem Piece.clean_startTag (scope : Scope) (t : Text) :
    (startTag scope (Element.ofLine t)).Clean := by
  refine ⟨Element.isName_readTag t, fun b hb => ?_⟩
  obtain ⟨a, ha, rfl⟩ := List.mem_map.mp hb
  refine ⟨Element.isName_attributes ha, fun value hvalue => ?_⟩
  obtain ⟨raw, -, rfl⟩ := Option.map_eq_some_iff.mp hvalue
  exact Html.isValue_escape _

theorem isText_feed : IsText ['\n'] := by
  decide

/-- The text of a plain line is text, since what is inserted is escaped. -/
theorem isText_textToken (scope : Scope) {t : Text} (h : t.Plain) :
    IsText (scope.interpolate t ++ ['\n']) := by
  intro c hc
  rcases List.mem_append.mp hc with hc | hc
  · exact scope.isText_interpolate h c hc
  · exact isText_feed c hc

/-- What plain lines bring is clean, and so is an end tag with a name. -/
theorem Brought.clean {lines : List Line} (h : ∀ line ∈ lines, Text.Plain line) {token : Token}
    (ht : Brought lines token) (hclosing : ∀ tag, token = .closing tag → IsName tag.name) :
    ∀ p ∈ Piece.ofToken token, p.Clean := by
  have hfeed := List.forall_mem_singleton.mpr (show (Piece.text ['\n']).Clean from isText_feed)
  cases ht with
  | doctype => exact List.forall_mem_cons.mpr ⟨trivial, hfeed⟩
  | @text line content scope hline hsay =>
      have hcut := (Statement.suffix_of_ofContent_eq_text hsay.2).trans line.content_suffix
      exact List.forall_mem_singleton.mpr
        (isText_textToken scope ((h line hline).of_isInfix hcut.isInfix))
  | @opening line e scope hline hsay =>
      rw [Piece.ofToken_opening, Statement.eq_ofLine_of_ofContent_eq_element hsay.2]
      exact List.forall_mem_singleton.mpr (Piece.clean_startTag scope _)
  | @inline line e scope hline hsay =>
      obtain rfl := Statement.eq_ofLine_of_ofContent_eq_element hsay.2
      have hcut := (Element.isInfix_text line.content).trans line.content_suffix.isInfix
      exact List.forall_mem_singleton.mpr (isText_textToken scope ((h line hline).of_isInfix hcut))
  | closing tag =>
      exact List.forall_mem_cons.mpr ⟨hclosing tag rfl, hfeed⟩

/-! ### Safe pages -/

/-- The tokens of an outline are balanced, and each comes from a line. -/
theorem Outline.sound_tokens (lines : List Line) (scope : Scope) :
    Html.Balanced (tokens lines scope) ∧ ∀ token ∈ tokens lines scope, Brought lines token := by
  have hs := (Page.Reached.close 0 (.render scope lines .empty)).sound
  rw [closeTo_renderLines_empty] at hs
  exact ⟨Html.balanced_of_replay hs.replayed, hs.brought⟩

/-- Plain lines leave clean pieces only. -/
theorem Outline.clean_pieces {lines : List Line} (h : ∀ line ∈ lines, Text.Plain line)
    (scope : Scope) : ∀ p ∈ Piece.ofTokens (tokens lines scope), p.Clean := by
  obtain ⟨hbalanced, hbrought⟩ := sound_tokens lines scope
  intro p hp
  obtain ⟨token, hmem, hp⟩ := List.mem_flatMap.mp hp
  refine (hbrought token hmem).clean h (fun tag htag => ?_) p hp
  -- an end tag has the name of a start tag, which is that of a line
  obtain ⟨attributes, hopening⟩ := hbalanced.opening_of_closing (htag ▸ hmem)
  cases hbrought _ hopening with
  | opening scope hline hsay =>
      rw [Statement.eq_ofLine_of_ofContent_eq_element hsay.2]
      exact Element.isName_readTag _

/-- Every start tag of an outline is that of an element line. -/
theorem Outline.startTag_of_mem {lines : List Line} {scope : Scope} {name : Text}
    {attributes : List (Text × Option Text)}
    (h : .opening name attributes ∈ Piece.ofTokens (tokens lines scope)) :
    ∃ line ∈ lines, ∃ e inner, line.Says (.element e) ∧
      .opening name attributes = Piece.startTag inner e := by
  obtain ⟨token, hmem, hp⟩ := List.mem_flatMap.mp h
  cases (sound_tokens lines scope).2 token hmem with
  | doctype => simp [Piece.ofToken] at hp
  | text => simp [Piece.ofToken, textToken] at hp
  | @opening line e inner hline hsay =>
      rw [Piece.ofToken_opening] at hp
      exact ⟨line, hline, e, inner, hsay, List.mem_singleton.mp hp⟩
  | inline => simp [Piece.ofToken, textToken] at hp
  | closing => simp [Piece.ofToken] at hp

/-- The HTML is the printed pieces of the outline. -/
theorem renderLines_eq_printAll (data : Data) (lines : List Line) :
    renderLines data lines =
      Piece.printAll (Piece.ofTokens (Outline.tokens lines (Scope.ofData data))) := by
  rw [renderLines, Page.finish, closeTo_renderLines_empty, Piece.printAll_ofTokens]
  rfl

/-- **Plain templates are safe.**  The finished HTML of plain lines is a sequence of clean pieces
that nest, whatever the data.  Its start tags are those of the element lines: tag and attributes
are those of the line, with nothing but the escaped values taken from the data.  The HTML is read
in this way only, so no value stands for a tag or an attribute of its own.  And other data under
which conditions and loops go the same way gives the same tags with the same attributes, up to
their values. -/
theorem safe_of_plain (data : Data) {lines : List Line} (h : ∀ line ∈ lines, Text.Plain line) :
    ∃ pieces, renderLines data lines = Piece.printAll pieces ∧
      pieces = Piece.ofTokens (Outline.tokens lines (Scope.ofData data)) ∧
      (∀ p ∈ pieces, p.Clean) ∧
      Piece.Nested pieces ∧
      (∀ name attributes, .opening name attributes ∈ pieces →
        ∃ line ∈ lines, ∃ e scope, line.Says (.element e) ∧
          .opening name attributes = Piece.startTag scope e) ∧
      (∀ other : List Piece, (∀ p ∈ other, p.Clean) →
        Piece.printAll other = renderLines data lines →
          Piece.marks other = Piece.marks pieces) ∧
      ∀ data', Scope.Alike (Scope.ofData data) (Scope.ofData data') →
        Piece.skeleton (Outline.tokens lines (Scope.ofData data')) =
          (Piece.marks pieces).map Piece.shape := by
  have hprint := renderLines_eq_printAll data lines
  have hclean := Outline.clean_pieces h (Scope.ofData data)
  have hbalanced := (Outline.sound_tokens lines (Scope.ofData data)).1
  refine ⟨_, hprint, rfl, hclean, Piece.nested_ofTokens hbalanced,
    fun name attributes hmem => Outline.startTag_of_mem hmem, fun other hother heq => ?_,
    fun data' halike => ?_⟩
  · exact Piece.marks_eq_of_printAll_eq hother hclean (heq.trans hprint)
  · obtain ⟨R, hR, hstart⟩ := halike
    exact (Outline.skeleton_eq_of_agreement hR lines hstart).symm

/-- A tag in the data stays inside the value and the text it was written into. -/
theorem safe_of_tag_in_data :
    ∃ pieces : List Piece,
      renderLines [("t".toList, .text "\"><b>".toList)]
        ["p(title=\"#\x7bt\x7d\") #\x7bt\x7d".toList] = Piece.printAll pieces ∧
      (∀ p ∈ pieces, p.Clean) ∧
      Piece.marks pieces =
        [.opening "p".toList [("title".toList, some "&quot;&gt;&lt;b&gt;".toList)],
          .closing "p".toList] ∧
      Piece.skeleton (Outline.tokens ["p(title=\"#\x7bt\x7d\") #\x7bt\x7d".toList]
        (Scope.ofData [("t".toList, .text "b".toList)])) =
          (Piece.marks pieces).map Piece.shape := by
  have hplain : ∀ line ∈ ["p(title=\"#\x7bt\x7d\") #\x7bt\x7d".toList], Text.Plain line := by
    intro line hline
    obtain rfl := List.mem_singleton.mp hline
    exact ⟨by decide +kernel, by decide +kernel⟩
  obtain ⟨pieces, hprint, hpieces, hclean, -, -, -, hskeleton⟩ :=
    safe_of_plain [("t".toList, .text "\"><b>".toList)] hplain
  have halike := Scope.alike_insert_text [] "t".toList
    (show (Value.text "\"><b>".toList).isTruthy = (Value.text "b".toList).isTruthy by
      decide +kernel)
  refine ⟨pieces, hprint, hclean, ?_, hskeleton _ halike⟩
  rw [hpieces]
  decide +kernel

end IndentHtml
