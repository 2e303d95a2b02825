import IndentHtml.Value

/-!
# Scopes

A scope is the data of a template under a stack of loop variables.  A dotted path starts at the
innermost variable of that name, or at the data when no variable has it, and then descends
segment by segment.
-/

namespace IndentHtml

/-- The data that is visible at one point of a template. -/
structure Scope where
  data : Data
  /-- The loop variables, innermost first. -/
  bindings : List (Text × Value) := []

namespace Scope

/-- The scope of a whole template. -/
def ofData (data : Data) : Scope := ⟨data, []⟩

/-- The scope inside a loop that binds a variable. -/
def bind (scope : Scope) (name : Text) (value : Value) : Scope :=
  { scope with bindings := (name, value) :: scope.bindings }

/-- The value of a bare name. -/
def find? (scope : Scope) (name : Text) : Option Value :=
  go scope.bindings
where
  /-- Looks through the variables and then at the data. -/
  go : List (Text × Value) → Option Value
    | [] => scope.data.find? name
    | (n, v) :: bindings => if n = name then some v else go bindings

/-- The value at a dotted path. -/
def lookup? (scope : Scope) (path : Text) : Option Value :=
  match List.splitOn '.' path with
  | [] => none
  | name :: segments => (scope.find? name).bind fun v => v.descend? segments

/-- The text at a dotted path; an unresolved path has the empty text. -/
def textAt (scope : Scope) (path : Text) : Text :=
  match scope.lookup? path with
  | some v => v.toText
  | none => []

/-- The truth of a dotted path; an unresolved path is false. -/
def isTruthyAt (scope : Scope) (path : Text) : Bool :=
  match scope.lookup? path with
  | some v => v.isTruthy
  | none => false

/-- The items at a dotted path; an unresolved path and a value that is no list have none. -/
def itemsAt (scope : Scope) (path : Text) : List Value :=
  match scope.lookup? path with
  | some v => v.items
  | none => []

end Scope

end IndentHtml
