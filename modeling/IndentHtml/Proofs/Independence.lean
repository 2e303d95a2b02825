import IndentHtml.Proofs.Branching
import IndentHtml.Proofs.Markup
import IndentHtml.Proofs.Outline

/-!
# What the data decides

**Independence** (`Outline.skeleton_eq_of_agreement`).  Under scopes that agree a template writes
the same tags in the same order, with the same attributes, up to their values: its outline has one
skeleton, which is what is left of the bare tokens of a run when the levels are forgotten.

A text of the data may be replaced by any other with the same truth (`Scope.alike_insert_text`):
texts have no items, and no path goes through one.
-/

namespace IndentHtml

open Html (Tag Token)

/-! ### Skeletons -/

namespace Piece

/-- A piece without the values of its attributes. -/
def shape : Piece → Piece
  | opening name attributes => opening name (attributes.map fun a => (a.1, a.2.map fun _ => []))
  | p => p

/-- The tags of a page, without the values of their attributes. -/
def skeleton (tokens : List Token) : List Piece :=
  (marks (ofTokens tokens)).map shape

theorem skeleton_cons (token : Token) (ts : List Token) :
    skeleton (token :: ts) = skeleton [token] ++ skeleton ts := by
  simp [skeleton, marks, ofTokens]

/-- Texts and the values of attributes are not part of a skeleton. -/
theorem skeleton_bare (tokens : List Token) : skeleton (Html.bare tokens) = skeleton tokens := by
  induction tokens with
  | nil => rfl
  | cons token tokens ih =>
      rw [skeleton_cons token, ← ih]
      cases token with
      | doctype => exact skeleton_cons _ _
      | text content => rfl
      | opening tag attributes =>
          have hshape : skeleton [.opening tag attributes] = skeleton [.opening tag
              (attributes.map fun a => ⟨a.name, a.value.map fun _ => []⟩)] := by
            show [shape (opening tag.name (attributes.map _))] =
              [shape (opening tag.name ((attributes.map _).map _))]
            simp [shape, Function.comp_def]
          rw [hshape]
          exact skeleton_cons _ _
      | closing tag => exact skeleton_cons _ _

end Piece

namespace Outline

open Piece (skeleton)

/-- **Independence.**  Scopes that agree give one skeleton. -/
theorem skeleton_eq_of_agreement {R : Scope → Scope → Prop} (hR : Scope.Agreement R)
    (lines : List Line) {scope scope' : Scope} (h : R scope scope') :
    skeleton (tokens lines scope) = skeleton (tokens lines scope') := by
  have hbare := (Page.renderLines_alike ⟨R, hR, h⟩ Page.empty lines).2
  rw [closeTo_renderLines_empty, closeTo_renderLines_empty] at hbare
  rw [← Piece.skeleton_bare, ← Piece.skeleton_bare (tokens lines scope'), hbare]

end Outline

/-! ### Texts of the data -/

namespace Scope

variable (data : Data) (key t u : Text)

/-- The replaced text is found under its key, and everything else is found as before. -/
theorem find?_insert_text (bindings : List (Text × Value)) (name : Text) :
    find? ⟨data.insert key (.text t), bindings⟩ name =
        find? ⟨data.insert key (.text u), bindings⟩ name ∨
      find? ⟨data.insert key (.text t), bindings⟩ name = some (.text t) ∧
        find? ⟨data.insert key (.text u), bindings⟩ name = some (.text u) := by
  -- the search goes on from the inner bindings to the data of the whole scope
  suffices hgo : ∀ inner, find?.go ⟨data.insert key (.text t), bindings⟩ name inner =
        find?.go ⟨data.insert key (.text u), bindings⟩ name inner ∨
      find?.go ⟨data.insert key (.text t), bindings⟩ name inner = some (.text t) ∧
        find?.go ⟨data.insert key (.text u), bindings⟩ name inner = some (.text u) from
    hgo bindings
  intro inner
  induction inner with
  | nil =>
      simp only [find?.go, Table.find?_insert]
      by_cases hname : key = name
      · rw [if_pos hname, if_pos hname]
        exact .inr ⟨rfl, rfl⟩
      · rw [if_neg hname, if_neg hname]
        exact .inl rfl
  | cons entry inner ih =>
      obtain ⟨n, v⟩ := entry
      by_cases hname : n = name
      · exact .inl (by simp only [find?.go, if_pos hname])
      · simpa only [find?.go, if_neg hname] using ih

theorem lookup?_insert_text (bindings : List (Text × Value)) (path : Text) :
    lookup? ⟨data.insert key (.text t), bindings⟩ path =
        lookup? ⟨data.insert key (.text u), bindings⟩ path ∨
      lookup? ⟨data.insert key (.text t), bindings⟩ path = some (.text t) ∧
        lookup? ⟨data.insert key (.text u), bindings⟩ path = some (.text u) := by
  unfold lookup?
  cases List.splitOn '.' path with
  | nil => exact .inl rfl
  | cons name segments =>
      rcases find?_insert_text data key t u bindings name with heq | ⟨ht, hu⟩
      · exact .inl (by simp only [heq])
      · simp only [ht, hu, Option.bind_some]
        -- a path through a text leads nowhere
        cases segments with
        | nil => exact .inr ⟨rfl, rfl⟩
        | cons segment segments => exact .inl rfl

theorem itemsAt_insert_text (bindings : List (Text × Value)) (path : Text) :
    itemsAt ⟨data.insert key (.text t), bindings⟩ path =
      itemsAt ⟨data.insert key (.text u), bindings⟩ path := by
  unfold itemsAt
  rcases lookup?_insert_text data key t u bindings path with heq | ⟨ht, hu⟩
  · rw [heq]
  · rw [ht, hu]
    rfl

variable {t u}

/-- A text of the data may be replaced by another one with the same truth. -/
theorem alike_insert_text (h : (Value.text t).isTruthy = (Value.text u).isTruthy) :
    Alike (ofData (data.insert key (.text t))) (ofData (data.insert key (.text u))) := by
  refine ⟨fun s s' => ∃ bindings, s = ⟨data.insert key (.text t), bindings⟩ ∧
    s' = ⟨data.insert key (.text u), bindings⟩, ⟨?_, ?_, ?_⟩, [], rfl, rfl⟩
  · rintro s s' ⟨bindings, rfl, rfl⟩ path
    unfold isTruthyAt
    rcases lookup?_insert_text data key t u bindings path with heq | ⟨ht, hu⟩
    · rw [heq]
    · rw [ht, hu]
      exact h
  · rintro s s' ⟨bindings, rfl, rfl⟩ path
    rw [itemsAt_insert_text data key t u]
  · rintro s s' ⟨bindings, rfl, rfl⟩ path i item item' hitem hitem' name
    rw [itemsAt_insert_text data key t u, hitem'] at hitem
    obtain rfl := Option.some.inj hitem
    exact ⟨(name, loopBinding item') :: bindings, rfl, rfl⟩

end Scope

end IndentHtml
