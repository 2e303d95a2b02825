import IndentHtml.Template.AttributeList

/-!
# Elements

An element line is a tag, shorthand selectors, an attribute list in parentheses and a text, each
of which may be missing: `div#main.card.wide(data-id="7") text`.  The reading never fails; what
fits nowhere is part of the text.
-/

namespace IndentHtml

/-- A shorthand selector. -/
inductive Selector where
  | id (name : Text)
  | className (name : Text)
  deriving DecidableEq, Repr

namespace Selector

/-- The selectors a text starts with, and what follows them. -/
def readAll : Text → List Selector × Text
  | [] => ([], [])
  | c :: t =>
      let name := t.takeWhile Text.isNameChar
      if c = '#' then
        let more := readAll (t.dropWhile Text.isNameChar)
        (id name :: more.1, more.2)
      else if c = '.' then
        let more := readAll (t.dropWhile Text.isNameChar)
        (className name :: more.1, more.2)
      else ([], c :: t)
termination_by t => t.length
decreasing_by
  all_goals exact Nat.lt_succ_of_le (List.dropWhile_sublist Text.isNameChar).length_le

/-- The last id among the selectors, empty if there is none. -/
def lastId (selectors : List Selector) : Text :=
  selectors.foldl (fun found s => match s with | id name => name | className _ => found) []

/-- The nonempty class names, in order. -/
def classNames (selectors : List Selector) : List Text :=
  selectors.filterMap fun s =>
    match s with
    | className name => if name.isEmpty then none else some name
    | id _ => none

/-- The attributes the selectors stand for: the id and then the classes. -/
def attributes (selectors : List Selector) : List Html.Attribute :=
  let name := lastId selectors
  let classes := classNames selectors
  (if name.isEmpty then [] else [⟨"id".toList, some name⟩]) ++
    (if classes.isEmpty then [] else [⟨"class".toList, some (List.intercalate [' '] classes)⟩])

theorem mem_attributes {selectors : List Selector} {a : Html.Attribute}
    (h : a ∈ attributes selectors) :
    a = ⟨"id".toList, some (lastId selectors)⟩ ∨
      a = ⟨"class".toList, some (List.intercalate [' '] (classNames selectors))⟩ := by
  rcases List.mem_append.mp h with h | h
  · split at h
    · cases h
    · exact .inl (List.mem_singleton.mp h)
  · split at h
    · cases h
    · exact .inr (List.mem_singleton.mp h)

end Selector

/-- A parsed element line. -/
structure Element where
  tag : Text
  /-- The attributes, with values not yet interpolated. -/
  attributes : List Html.Attribute
  /-- The text after the element, trimmed and not yet interpolated. -/
  text : Text
  deriving DecidableEq, Repr

namespace Element

/-- The tag a line starts with, and what follows it.  Without a letter to start with it is
`div`. -/
def readTag (line : Text) : Text × Text :=
  match line with
  | c :: _ =>
      if Text.isLetter c then
        (line.takeWhile Text.isNameChar, line.dropWhile Text.isNameChar)
      else ("div".toList, line)
  | [] => ("div".toList, [])

/-- The text up to the parenthesis that closes `depth` inner pairs and one more, and what
follows it. -/
def closing? : (depth : Nat) → Text → Option (Text × Text)
  | _, [] => none
  | depth, c :: t =>
      if c = '(' then (closing? (depth + 1) t).map fun p => (c :: p.1, p.2)
      else if c = ')' then
        match depth with
        | 0 => some ([], t)
        | depth + 1 => (closing? depth t).map fun p => (c :: p.1, p.2)
      else (closing? depth t).map fun p => (c :: p.1, p.2)

theorem eq_of_closing? {depth : Nat} {t inner rest : Text}
    (h : closing? depth t = some (inner, rest)) : t = inner ++ ')' :: rest := by
  fun_induction closing? depth t generalizing inner rest with
  | case1 => cases h
  | case2 depth t ih => exact Text.eq_of_map_cons ih h
  | case3 t _ =>
      obtain ⟨rfl, rfl⟩ := Prod.mk.inj (Option.some.inj h)
      rfl
  | case4 t depth _ ih => exact Text.eq_of_map_cons ih h
  | case5 depth c t _ _ ih => exact Text.eq_of_map_cons ih h

/-- The text in the parentheses a text starts with, and what follows them.  Parentheses that are
never closed hold the rest of the line but its last character. -/
def readParenthesised (t : Text) : Text × Text :=
  match t with
  | '(' :: rest => (closing? 0 rest).getD (rest.dropLast, [])
  | _ => ([], t)

/-- Reads an element line. -/
def ofLine (line : Text) : Element :=
  let (tag, afterTag) := readTag line
  let (selectors, afterSelectors) := Selector.readAll afterTag
  let (list, rest) := readParenthesised afterSelectors
  { tag
    attributes := Selector.attributes selectors ++ AttributeList.attributes (Text.trim list)
    text := Text.trim rest }

end Element

namespace Scope

/-- Interpolates the value of an attribute. -/
def resolve (scope : Scope) (a : Html.Attribute) : Html.Attribute :=
  { a with value := a.value.map scope.interpolateAttribute }

end Scope

end IndentHtml
