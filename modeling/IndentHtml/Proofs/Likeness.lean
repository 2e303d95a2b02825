import IndentHtml.Proofs.Branching
import Mathlib.Data.List.Forall2
import Mathlib.Data.Option.Basic

/-!
# Alike data

Two values are alike (`Value.Alike`) when they cannot be told apart without reading a text, a
number or a boolean for more than its truth: two scalars of one truth, two lists of one length with
alike items, two maps with the same keys and alike values.

**Tags of alike data** (`tags_eq_of_alike`).  Alike data open and close the same tags in the same
order, at the same levels.

A dotted path leads to alike values, or to none in both (`Scope.Resembles.lookup?`), since it goes
through lists by index and through maps by key.  A loop variable resembles its counterpart again
(`Value.Alike.loopBinding`), also when it is a scalar and stands in a map of its own.
-/

namespace IndentHtml

namespace Value

/-- Holds of texts, numbers and booleans. -/
def isScalar : Value → Bool
  | list _ => false
  | map _ => false
  | _ => true

/-- Values that differ in nothing but the texts, numbers and booleans in them, and not in the truth
of these. -/
inductive Alike : Value → Value → Prop where
  | scalar {v w : Value} :
      v.isScalar = true → w.isScalar = true → v.isTruthy = w.isTruthy → Alike v w
  | list {xs ys : List Value} :
      xs.length = ys.length →
        (∀ (i : Nat) x y, xs[i]? = some x → ys[i]? = some y → Alike x y) →
          Alike (list xs) (list ys)
  | map {entries entries' : Table Value} :
      (∀ key, entries.contains key = entries'.contains key) →
        (∀ key x y, entries.find? key = some x → entries'.find? key = some y → Alike x y) →
          Alike (map entries) (map entries')

/-- Alike values, or none in both cases. -/
abbrev AlikeOption : Option Value → Option Value → Prop :=
  Option.Rel Alike

/-- Two options are alike when both or none has a value, and the values are alike. -/
theorem alikeOption_of_isSome {o o' : Option Value} (hsome : o.isSome = o'.isSome)
    (h : ∀ v w, o = some v → o' = some w → Alike v w) : AlikeOption o o' := by
  cases o with
  | none =>
      cases o' with
      | none => exact .none
      | some w => cases hsome
  | some v =>
      cases o' with
      | none => cases hsome
      | some w => exact .some (h v w rfl rfl)

/-- Alike values lead to alike values, or to none in both cases. -/
theorem AlikeOption.bind {o o' : Option Value} {f g : Value → Option Value}
    (h : AlikeOption o o') (hfg : ∀ v w, Alike v w → AlikeOption (f v) (g w)) :
    AlikeOption (o.bind f) (o'.bind g) := by
  cases h with
  | none => exact .none
  | some h => exact hfg _ _ h

/-- Where one of two alike options has a value, the other has one too. -/
theorem AlikeOption.isSome_eq {o o' : Option Value} (h : AlikeOption o o') :
    o.isSome = o'.isSome := by
  cases h <;> rfl

/-! ### Lists and maps that are alike piece by piece -/

/-- Lists are alike item by item. -/
theorem Alike.of_items {xs ys : List Value} (h : List.Forall₂ Alike xs ys) :
    Alike (.list xs) (.list ys) := by
  refine .list h.length_eq fun i x y hx hy => ?_
  induction h generalizing i with
  | nil => cases hx
  | cons hfirst _ ih =>
      cases i with
      | zero =>
          obtain rfl := Option.some.inj hx
          obtain rfl := Option.some.inj hy
          exact hfirst
      | succ i => exact ih i hx hy

/-- Tables with the same keys in the same order and alike values are alike at each key. -/
theorem alike_find? {entries entries' : Table Value}
    (h : List.Forall₂ (fun e e' => e.1 = e'.1 ∧ Alike e.2 e'.2) entries entries') (key : Text) :
    AlikeOption (entries.find? key) (entries'.find? key) := by
  induction h with
  | nil => exact .none
  | @cons e e' entries entries' hfirst _ ih =>
      obtain ⟨hkey, hvalue⟩ := hfirst
      show AlikeOption (if e.1 = key then some e.2 else Table.find? entries key)
        (if e'.1 = key then some e'.2 else Table.find? entries' key)
      rw [← hkey]
      split
      · exact .some hvalue
      · exact ih

/-- Maps are alike entry by entry. -/
theorem Alike.of_entries {entries entries' : Table Value}
    (h : List.Forall₂ (fun e e' => e.1 = e'.1 ∧ Alike e.2 e'.2) entries entries') :
    Alike (.map entries) (.map entries') := by
  refine .map (fun key => (alike_find? h key).isSome_eq) fun key x y hx hy => ?_
  have hfound := alike_find? h key
  rw [hx, hy] at hfound
  cases hfound with
  | some hvalue => exact hvalue

/-! ### What alike values have in common -/

section

variable {v w : Value}

/-- Alike values are of one truth. -/
theorem Alike.isTruthy_eq (h : Alike v w) : v.isTruthy = w.isTruthy := by
  cases h with
  | scalar _ _ htruth => exact htruth
  | @list xs ys hlength _ =>
      have hempty : xs.isEmpty = ys.isEmpty := by
        rw [Bool.eq_iff_iff, List.isEmpty_iff_length_eq_zero, List.isEmpty_iff_length_eq_zero,
          hlength]
      rw [isTruthy, isTruthy, hempty]
  | @map entries entries' hkeys _ =>
      -- a map that is not empty has a key, and the other one has it too
      have hempty : entries.isEmpty = entries'.isEmpty := by
        cases entries with
        | nil =>
            cases entries' with
            | nil => rfl
            | cons entry _ => simpa [Table.contains, Table.find?] using hkeys entry.1
        | cons entry _ =>
            cases entries' with
            | nil => simpa [Table.contains, Table.find?] using hkeys entry.1
            | cons _ _ => rfl
      rw [isTruthy, isTruthy, hempty]

theorem items_of_isScalar (h : v.isScalar = true) : v.items = [] := by
  cases v with
  | text | number | bool => rfl
  | list | map => cases h

theorem child?_of_isScalar (h : v.isScalar = true) (segment : Text) :
    v.child? segment = none := by
  cases v with
  | text | number | bool => rfl
  | list | map => cases h

theorem loopBinding_of_isScalar (h : v.isScalar = true) :
    loopBinding v = map [(['0'], v)] := by
  cases v with
  | text | number | bool => rfl
  | list | map => cases h

/-- A loop over alike values goes over as many items, alike in pairs. -/
theorem Alike.items (h : Alike v w) :
    v.items.length = w.items.length ∧
      ∀ (i : Nat) x y, v.items[i]? = some x → w.items[i]? = some y → Alike x y := by
  cases h with
  | scalar hv hw _ =>
      rw [items_of_isScalar hv, items_of_isScalar hw]
      exact ⟨rfl, fun _ _ _ hx => by cases hx⟩
  | list hlength hitems => exact ⟨hlength, hitems⟩
  | map _ _ => exact ⟨rfl, fun _ _ _ hx => by cases hx⟩

/-- A segment leads from alike values to alike values, or nowhere from both. -/
theorem Alike.child? (h : Alike v w) (segment : Text) :
    AlikeOption (v.child? segment) (w.child? segment) := by
  cases h with
  | scalar hv hw _ =>
      rw [child?_of_isScalar hv, child?_of_isScalar hw]
      exact .none
  | @list xs ys hlength hitems =>
      show AlikeOption ((index? segment).bind _) ((index? segment).bind _)
      cases index? segment with
      | none => exact .none
      | some i =>
          refine alikeOption_of_isSome ?_ (hitems i)
          show xs[i]?.isSome = ys[i]?.isSome
          rw [Bool.eq_iff_iff, isSome_getElem?, isSome_getElem?, hlength]
  | map hkeys hvalues => exact alikeOption_of_isSome (hkeys segment) (hvalues segment)

/-- A path leads from alike values to alike values, or nowhere from both. -/
theorem Alike.descend? (segments : List Text) (h : Alike v w) :
    AlikeOption (v.descend? segments) (w.descend? segments) := by
  induction segments generalizing v w with
  | nil => exact .some h
  | cons segment segments ih => exact (h.child? segment).bind fun _ _ hchild => ih hchild

/-- Alike items are bound as alike values, those that are wrapped in a map among them. -/
theorem Alike.loopBinding (h : Alike v w) : Alike (loopBinding v) (loopBinding w) := by
  cases h with
  | scalar hv hw htruth =>
      rw [loopBinding_of_isScalar hv, loopBinding_of_isScalar hw]
      exact .of_entries (.cons ⟨rfl, .scalar hv hw htruth⟩ .nil)
  | list hlength hitems => exact .list hlength hitems
  | map hkeys hvalues => exact .map hkeys hvalues

end

end Value

/-! ### Scopes -/

/-- Data with the same keys and alike values. -/
def Data.Alike (data data' : Data) : Prop :=
  Value.Alike (.map data) (.map data')

namespace Scope

open Value (AlikeOption)

/-- A binding hides an older one of the same name, and no other. -/
theorem find?_bind (scope : Scope) (n : Text) (v : Value) (name : Text) :
    (scope.bind n v).find? name = if n = name then some v else scope.find? name := by
  have hgo : ∀ bindings,
      find?.go (scope.bind n v) name bindings = find?.go scope name bindings := by
    intro bindings
    induction bindings with
    | nil => rfl
    | cons entry bindings ih => simp only [find?.go, ih]
  show find?.go _ name ((n, v) :: scope.bindings) = _
  rw [find?.go, hgo]
  rfl

/-- Scopes in which every name has alike values, or none in both. -/
def Resembles (scope scope' : Scope) : Prop :=
  ∀ name, AlikeOption (scope.find? name) (scope'.find? name)

variable {scope scope' : Scope}

/-- Binding alike values under one name keeps a resemblance. -/
theorem Resembles.bind (h : Resembles scope scope') (name : Text) {v w : Value}
    (hvalue : Value.Alike v w) : Resembles (scope.bind name v) (scope'.bind name w) := by
  intro other
  rw [find?_bind, find?_bind]
  split
  · exact .some hvalue
  · exact h other

/-- A dotted path leads to alike values, or nowhere in both scopes. -/
theorem Resembles.lookup? (h : Resembles scope scope') (path : Text) :
    AlikeOption (scope.lookup? path) (scope'.lookup? path) := by
  unfold Scope.lookup?
  cases List.splitOn '.' path with
  | nil => exact .none
  | cons name segments => exact (h name).bind fun _ _ hvalue => hvalue.descend? segments

/-- A loop has as many items under both scopes, alike in pairs. -/
theorem Resembles.items (h : Resembles scope scope') (path : Text) :
    (scope.itemsAt path).length = (scope'.itemsAt path).length ∧
      ∀ (i : Nat) x y, (scope.itemsAt path)[i]? = some x →
        (scope'.itemsAt path)[i]? = some y → Value.Alike x y := by
  have hvalues := h.lookup? path
  unfold itemsAt
  generalize scope.lookup? path = o at hvalues
  generalize scope'.lookup? path = o' at hvalues
  cases hvalues with
  | none => exact ⟨rfl, fun _ _ _ hx => by cases hx⟩
  | some hvalue => exact hvalue.items

/-- A condition holds under both scopes or under none. -/
theorem Resembles.isTruthyAt_eq (h : Resembles scope scope') (path : Text) :
    scope.isTruthyAt path = scope'.isTruthyAt path := by
  have hvalues := h.lookup? path
  unfold isTruthyAt
  generalize scope.lookup? path = o at hvalues
  generalize scope'.lookup? path = o' at hvalues
  cases hvalues with
  | none => rfl
  | some hvalue => exact hvalue.isTruthy_eq

/-- Under scopes that resemble each other all conditions and loops go the same way. -/
theorem agreement_resembles : Agreement Resembles where
  truth h path := h.isTruthyAt_eq path
  count h path := (h.items path).1
  inside h path i item item' hitem hitem' name :=
    h.bind name ((h.items path).2 i item item' hitem hitem').loopBinding

theorem resembles_ofData {data data' : Data} (h : Data.Alike data data') :
    Resembles (ofData data) (ofData data') :=
  fun name => h.child? name

end Scope

/-- **Tags of alike data.**  Alike data leave the same tags open after the lines, and in the
finished page the tags that are opened and closed are the same, in the same order and at the same
levels; even the names of their attributes are. -/
theorem tags_eq_of_alike (lines : List Line) {data data' : Data} (h : Data.Alike data data') :
    (Page.empty.renderLines (Scope.ofData data) lines).stack =
        (Page.empty.renderLines (Scope.ofData data') lines).stack ∧
      Html.bare ((Page.empty.renderLines (Scope.ofData data) lines).closeTo 0).tokens =
        Html.bare ((Page.empty.renderLines (Scope.ofData data') lines).closeTo 0).tokens :=
  Page.renderLines_alike ⟨_, Scope.agreement_resembles, Scope.resembles_ofData h⟩ Page.empty lines

/-- A list of texts and a list of a boolean and a text, under a loop with a condition on each
item. -/
theorem tags_eq_of_alike_items :
    ∃ (lines : List Line) (data data' : Data), Data.Alike data data' ∧
      renderLines data lines ≠ renderLines data' lines ∧
      Html.bare ((Page.empty.renderLines (Scope.ofData data) lines).closeTo 0).tokens =
        Html.bare ((Page.empty.renderLines (Scope.ofData data') lines).closeTo 0).tokens ∧
      Html.bare ((Page.empty.renderLines (Scope.ofData data) lines).closeTo 0).tokens =
        [.opening ⟨"ul".toList, 0⟩ [], .opening ⟨"li".toList, 3⟩ [], .closing ⟨"li".toList, 3⟩,
          .opening ⟨"p".toList, 3⟩ [], .closing ⟨"p".toList, 3⟩, .closing ⟨"ul".toList, 0⟩] := by
  let lines : List Line := ["ul".toList, "  @foreach xs as x".toList, "    @if x.0".toList,
    "      li #\x7bx.0\x7d".toList, "    @else".toList, "      p #\x7bx.0\x7d".toList]
  let data : Data := [("xs".toList, .list [.text "a".toList, .text "0".toList])]
  let data' : Data := [("xs".toList, .list [.bool true, .text "  ".toList])]
  have hitems : Value.Alike (.list [.text "a".toList, .text "0".toList])
      (.list [.bool true, .text "  ".toList]) :=
    .of_items (.cons (.scalar rfl rfl (by decide)) (.cons (.scalar rfl rfl (by decide)) .nil))
  have hdata : Data.Alike data data' := .of_entries (.cons ⟨rfl, hitems⟩ .nil)
  exact ⟨lines, data, data', hdata, by decide +kernel, (tags_eq_of_alike lines hdata).2,
    by decide +kernel⟩

end IndentHtml
