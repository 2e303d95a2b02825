import IndentHtml.Template.Marker
import IndentHtml.Html

/-!
# Attribute lists

The text between the parentheses of an element is a list of tokens.  A separator is a comma with
the spaces around it, or a run of spaces in front of a name and `=`.  Quotes do not protect a
separator.  Nothing is lost by the splitting but the separators.

A token is a flag or a name and a value.  Characters that cannot stand in a name are dropped from
it, and a token whose name is then empty is dropped as a whole.
-/

namespace IndentHtml

namespace AttributeList

/-! ### Splitting -/

/-- Holds of a text that starts with a name, perhaps spaces, and `=`. -/
def startsAssignment (t : Text) : Bool :=
  !(t.takeWhile Text.isNameChar).isEmpty &&
    match (t.dropWhile Text.isNameChar).dropWhile Text.isSpace with
    | '=' :: _ => true
    | _ => false

/-- What follows the separator that a text starts with. -/
def afterSeparator? : Text → Option Text
  | [] => none
  | c :: t =>
      if c = ',' then some (t.dropWhile Text.isSpace)
      else if Text.isSpace c then
        match t.dropWhile Text.isSpace with
        | ',' :: rest => some (rest.dropWhile Text.isSpace)
        | rest => if startsAssignment rest then some rest else none
      else none

theorem length_lt_of_afterSeparator? {t rest : Text} (h : afterSeparator? t = some rest) :
    rest.length < t.length := by
  have drop_le : ∀ u : Text, (u.dropWhile Text.isSpace).length ≤ u.length :=
    fun u => (List.dropWhile_sublist Text.isSpace).length_le
  cases t with
  | nil => simp [afterSeparator?] at h
  | cons c t =>
      have ht := drop_le t
      simp only [afterSeparator?] at h
      rw [List.length_cons]
      split at h
      · simp only [Option.some.injEq] at h
        rw [← h]
        omega
      · split at h
        · split at h
          · next r hr =>
              simp only [Option.some.injEq] at h
              rw [hr, List.length_cons] at ht
              have := drop_le r
              rw [← h]
              omega
          · split at h
            · simp only [Option.some.injEq] at h
              rw [← h]
              omega
            · simp at h
        · simp at h

/-- Splits a text at its separators into the first token and the tokens after it. -/
def splitFirst : Text → Text × List Text
  | [] => ([], [])
  | c :: t =>
      match h : afterSeparator? (c :: t) with
      | some rest =>
          have := length_lt_of_afterSeparator? h
          ([], (splitFirst rest).1 :: (splitFirst rest).2)
      | none => (c :: (splitFirst t).1, (splitFirst t).2)
termination_by t => t.length
decreasing_by
  · assumption
  · simp only [List.length_cons]
    omega

/-- The tokens of an attribute list, empty ones included. -/
def tokens (t : Text) : List Text :=
  (splitFirst t).1 :: (splitFirst t).2

/-! ### Reading a token -/

/-- Strips a quote from both ends if the text starts and ends with the same one.  A lone quote
counts as both. -/
def unquote (t : Text) : Text :=
  match t with
  | '"' :: rest => if t.getLast? = some '"' then rest.dropLast else t
  | '\'' :: rest => if t.getLast? = some '\'' then rest.dropLast else t
  | _ => t

/-- The characters of a text that may stand in a name. -/
def nameOf (t : Text) : Text :=
  t.filter Text.isNameChar

/-- The attribute of a token, with its value not yet interpolated. -/
def attribute? (token : Text) : Option Html.Attribute :=
  let token := Text.trim token
  let a : Html.Attribute :=
    match Text.cut? '=' token with
    | none => ⟨nameOf token, none⟩
    | some (key, value) => ⟨nameOf (Text.trim key), some (unquote (Text.trim value))⟩
  if a.name.isEmpty then none else some a

/-- An attribute is a name alone or a name with a value, cut at the first `=` of the token. -/
theorem attribute?_eq_some {token : Text} {a : Html.Attribute} (h : attribute? token = some a) :
    a.name ≠ [] ∧
      (a = ⟨nameOf (Text.trim token), none⟩ ∨
        ∃ key value, Text.cut? '=' (Text.trim token) = some (key, value) ∧
          a = ⟨nameOf (Text.trim key), some (unquote (Text.trim value))⟩) := by
  rw [attribute?] at h
  split at h
  · split at h
    · cases h
    · next hne =>
        obtain rfl := Option.some.inj h
        exact ⟨fun hnil => hne (List.isEmpty_iff.mpr hnil), .inl rfl⟩
  · next key value hcut =>
      split at h
      · cases h
      · next hne =>
          obtain rfl := Option.some.inj h
          exact ⟨fun hnil => hne (List.isEmpty_iff.mpr hnil), .inr ⟨key, value, hcut, rfl⟩⟩

/-- The attributes of an attribute list. -/
def attributes (t : Text) : List Html.Attribute :=
  (tokens t).filterMap attribute?

end AttributeList

end IndentHtml
