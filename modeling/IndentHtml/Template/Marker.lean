import IndentHtml.Scope
import IndentHtml.Html

/-!
# Markers

A marker is a sigil and a dotted path in braces.  `Segment.cut` takes a text apart into markers
and the characters between them, from left to right.  A sigil that starts no marker is a
character like any other.  The segments printed one after the other give the text back.

In the text of a line the marker with `!` is replaced by the text of its value and the one with
`#` by its escaped text.  The first kind is replaced throughout the text before the second one is
looked for.  In an attribute value both stand for the plain text, since the value is escaped as a
whole when it is written.
-/

namespace IndentHtml

/-- A piece of a text with markers. -/
inductive Segment where
  /-- A character outside all markers. -/
  | plain (c : Char)
  /-- A sigil with a path in braces. -/
  | marker (sigil : Char) (path : Text)
  deriving DecidableEq, Repr

namespace Segment

/-- The written form of a segment. -/
def print : Segment → Text
  | plain c => [c]
  | marker sigil path => sigil :: '{' :: (path ++ ['}'])

/-- Reads a path in braces: the path and what follows the closing brace. -/
def bracedPath? : Text → Option (Text × Text)
  | '{' :: c :: body =>
      if Text.isWordStart c then
        match body.dropWhile Text.isPathChar with
        | '}' :: rest => some (c :: body.takeWhile Text.isPathChar, rest)
        | _ => none
      else none
  | _ => none

theorem eq_of_bracedPath? {t path rest : Text} (h : bracedPath? t = some (path, rest)) :
    t = '{' :: (path ++ '}' :: rest) := by
  unfold bracedPath? at h
  split at h
  · next c body =>
      split at h
      · split at h
        · next r hr =>
            simp only [Option.some.injEq, Prod.mk.injEq] at h
            obtain ⟨rfl, rfl⟩ := h
            rw [List.cons_append, ← hr, List.takeWhile_append_dropWhile]
        · simp at h
      · simp at h
  · simp at h

theorem length_lt_of_bracedPath? {t path rest : Text} (h : bracedPath? t = some (path, rest)) :
    rest.length < t.length := by
  rw [eq_of_bracedPath? h]
  simp only [List.length_cons, List.length_append]
  omega

/-- Takes a text apart into markers with one of the sigils and other characters. -/
def cut (isSigil : Char → Bool) : Text → List Segment
  | [] => []
  | c :: t =>
      if isSigil c then
        match h : bracedPath? t with
        | some (path, rest) =>
            have := length_lt_of_bracedPath? h
            marker c path :: cut isSigil rest
        | none => plain c :: cut isSigil t
      else plain c :: cut isSigil t
termination_by t => t.length
decreasing_by all_goals simp only [List.length_cons]; omega

theorem flatMap_print_cut (isSigil : Char → Bool) (t : Text) :
    (cut isSigil t).flatMap print = t := by
  fun_induction cut isSigil t with
  | case1 => rfl
  | case2 c t hc path rest h _ ih =>
      rw [List.flatMap_cons, ih, eq_of_bracedPath? h]
      simp [print]
  | case3 c t hc h ih => simp [print, ih]
  | case4 c t hc ih => simp [print, ih]

/-- The text of a segment when every marker stands for what `resolve` makes of its path. -/
def replace (resolve : Text → Text) : Segment → Text
  | plain c => [c]
  | marker _ path => resolve path

end Segment

/-! ### Substitution -/

/-- Replaces every marker with one of the sigils. -/
def substitute (isSigil : Char → Bool) (resolve : Text → Text) (t : Text) : Text :=
  (Segment.cut isSigil t).flatMap (Segment.replace resolve)

namespace Scope

/-- Interpolates the text of a line: plain markers first, escaped markers in the result. -/
def interpolate (scope : Scope) (t : Text) : Text :=
  substitute (· = '#') (fun path => Html.escape (scope.textAt path))
    (substitute (· = '!') scope.textAt t)

/-- Interpolates an attribute value, which is escaped later. -/
def interpolateAttribute (scope : Scope) (t : Text) : Text :=
  substitute (fun c => c = '#' || c = '!') scope.textAt t

end Scope

end IndentHtml
