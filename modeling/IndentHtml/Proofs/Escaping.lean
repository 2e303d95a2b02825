import IndentHtml.Proofs.Markup
import Mathlib.Data.List.Basic

/-!
# Escaping

Data reaches a page as the text of a marker.  An escaped text holds no angle bracket and no quote
(`Html.isValue_escape`).  A text is `Plain` when it has no angle bracket and no marker with `!` can
start in it; then the first of the two passes over the text changes nothing, and whatever the
second one inserts is escaped (`Scope.isText_interpolate`).
-/

namespace IndentHtml

open Piece (IsText IsValue)

namespace Html

theorem isValue_entity (c : Char) : IsValue (entity c) := by
  unfold entity
  split
  · decide
  · decide
  · decide
  · decide
  · decide
  · next hlt hgt hquot hapos =>
      intro d hd
      obtain rfl := List.mem_singleton.mp hd
      exact ⟨hlt, hgt, hquot, hapos⟩

/-- An escaped text has no angle bracket and no quote. -/
theorem isValue_escape (t : Text) : IsValue (escape t) := by
  intro d hd
  obtain ⟨c, -, hc⟩ := List.mem_flatMap.mp hd
  exact isValue_entity c d hc

end Html

/-! ### Substitution -/

/-- A character of a text after substitution is one of the text or of what a path stands for. -/
theorem mem_substitute {isSigil : Char → Bool} {resolve : Text → Text} {t : Text} {c : Char}
    (h : c ∈ substitute isSigil resolve t) : c ∈ t ∨ ∃ path, c ∈ resolve path := by
  obtain ⟨segment, hmem, hc⟩ := List.mem_flatMap.mp h
  cases segment with
  | plain d =>
      refine .inl ?_
      rw [← Segment.flatMap_print_cut isSigil t]
      exact List.mem_flatMap.mpr ⟨_, hmem, hc⟩
  | marker sigil path => exact .inr ⟨path, hc⟩

namespace Segment

theorem suffix_of_bracedPath? {t path rest : Text} (h : bracedPath? t = some (path, rest)) :
    rest <:+ t := by
  rw [eq_of_bracedPath? h]
  exact ⟨'{' :: (path ++ ['}']), by simp⟩

/-- A marker that is cut out of a text stands in it, and has one of the sigils. -/
theorem suffix_of_mem_cut {isSigil : Char → Bool} {t : Text} {sigil : Char} {path : Text}
    (h : marker sigil path ∈ cut isSigil t) :
    isSigil sigil = true ∧
      ∃ after rest, sigil :: after <:+ t ∧ bracedPath? after = some (path, rest) := by
  fun_induction cut isSigil t with
  | case1 => cases h
  | case2 c t hc found rest hfound _ ih =>
      rcases List.mem_cons.mp h with heq | h
      · obtain ⟨rfl, rfl⟩ := Segment.marker.inj heq
        exact ⟨hc, t, rest, List.suffix_refl _, hfound⟩
      · obtain ⟨hsigil, after, rest', hsuffix, hrest⟩ := ih h
        have htail := (suffix_of_bracedPath? hfound).trans (List.suffix_cons c t)
        exact ⟨hsigil, after, rest', hsuffix.trans htail, hrest⟩
  | case3 c t hc hnone ih | case4 c t hc ih =>
      rcases List.mem_cons.mp h with heq | h
      · cases heq
      · obtain ⟨hsigil, after, rest, hsuffix, hrest⟩ := ih h
        exact ⟨hsigil, after, rest, hsuffix.trans (List.suffix_cons _ _), hrest⟩

/-- A marker starts with its sigil and a brace. -/
theorem isInfix_of_mem_cut {isSigil : Char → Bool} {t : Text} {sigil : Char} {path : Text}
    (h : marker sigil path ∈ cut isSigil t) : [sigil, '{'] <:+: t := by
  obtain ⟨before, after, heq⟩ := List.append_of_mem h
  rw [← flatMap_print_cut isSigil t, heq, List.flatMap_append, List.flatMap_cons]
  exact ⟨before.flatMap print, path ++ '}' :: after.flatMap print, by simp [print]⟩

end Segment

/-- What the markers of a text stand for is all that matters. -/
theorem substitute_congr {isSigil : Char → Bool} {f g : Text → Text} {t : Text}
    (h : ∀ sigil path, Segment.marker sigil path ∈ Segment.cut isSigil t → f path = g path) :
    substitute isSigil f t = substitute isSigil g t := by
  refine List.flatMap_congr fun segment hmem => ?_
  cases segment with
  | plain c => rfl
  | marker sigil path => exact h sigil path hmem

/-- A text in which no marker can start is left as it is. -/
theorem substitute_of_not_isInfix {sigil : Char} (resolve : Text → Text) {t : Text}
    (h : ¬ [sigil, '{'] <:+: t) : substitute (fun c => decide (c = sigil)) resolve t = t := by
  have hprint : ∀ segment ∈ Segment.cut (fun c => decide (c = sigil)) t,
      segment.replace resolve = segment.print := by
    intro segment hmem
    cases segment with
    | plain c => rfl
    | marker s path =>
        obtain rfl : s = sigil := of_decide_eq_true (Segment.suffix_of_mem_cut hmem).1
        exact absurd (Segment.isInfix_of_mem_cut hmem) h
  rw [substitute, List.flatMap_congr hprint, Segment.flatMap_print_cut]

/-! ### Plain texts -/

namespace Text

/-- A text without angle brackets in which no marker with `!` starts. -/
structure Plain (t : Text) : Prop where
  isText : IsText t
  unmarked : ¬ ['!', '{'] <:+: t

theorem Plain.of_isInfix {t u : Text} (h : Plain t) (hu : u <:+: t) : Plain u :=
  ⟨fun c hc => h.isText c (hu.subset hc), fun hm => h.unmarked (hm.trans hu)⟩

end Text

/-- A plain text stays without angle brackets, whatever its markers stand for. -/
theorem Scope.isText_interpolate (scope : Scope) {t : Text} (h : t.Plain) :
    IsText (scope.interpolate t) := by
  rw [interpolate, substitute_of_not_isInfix _ h.unmarked]
  intro c hc
  rcases mem_substitute hc with hc | ⟨path, hc⟩
  · exact h.isText c hc
  · obtain ⟨hlt, hgt, -⟩ := Html.isValue_escape _ c hc
    exact ⟨hlt, hgt⟩

end IndentHtml
