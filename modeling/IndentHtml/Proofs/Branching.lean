import IndentHtml.Proofs.Stack

/-!
# Two runs of one script

The data of a template decides which blocks of its directives run, and how often.  Two scopes
agree (`Scope.Agreement`) when every path has the same truth and the same number of items under
both, and the scopes inside the loops agree again.

**Branching** (`Script.alike_run`).  Under scopes that agree a script goes the same way: from one
stack it comes to one stack, and it writes the same tags with the same attributes, up to the
values of the attributes and the texts between the tags.
-/

namespace IndentHtml

open Html (Tag Token)

/-! ### Scopes under which runs go the same way -/

/-- A relation between scopes under which conditions and loops go the same way. -/
structure Scope.Agreement (R : Scope → Scope → Prop) : Prop where
  truth : ∀ {s s'}, R s s' → ∀ path, s.isTruthyAt path = s'.isTruthyAt path
  count : ∀ {s s'}, R s s' → ∀ path, (s.itemsAt path).length = (s'.itemsAt path).length
  inside : ∀ {s s'}, R s s' → ∀ path (i : Nat) (item item' : Value),
    (s.itemsAt path)[i]? = some item → (s'.itemsAt path)[i]? = some item' →
      ∀ name, R (s.bind name (loopBinding item)) (s'.bind name (loopBinding item'))

/-- Two scopes under which all conditions and loops go the same way, also inside the loops. -/
def Scope.Alike (s s' : Scope) : Prop :=
  ∃ R, Scope.Agreement R ∧ R s s'

/-! ### Bare tokens -/

namespace Html

/-- A token without the values of its attributes; a text is dropped. -/
def Token.bare? : Token → Option Token
  | .doctype => some .doctype
  | .text _ => none
  | .opening tag attributes =>
      some (.opening tag (attributes.map fun a => ⟨a.name, a.value.map fun _ => []⟩))
  | .closing tag => some (.closing tag)

/-- The tags of a page, with their levels and without the values of their attributes. -/
def bare (tokens : List Token) : List Token :=
  tokens.filterMap Token.bare?

@[simp] theorem bare_append (ts us : List Token) : bare (ts ++ us) = bare ts ++ bare us :=
  List.filterMap_append

/-- The scope of a start tag gives the values of its attributes and nothing else. -/
theorem bare_opening (tag : Tag) (attributes : List Attribute) (scope scope' : Scope) :
    bare [.opening tag (attributes.map scope.resolve)] =
      bare [.opening tag (attributes.map scope'.resolve)] := by
  simp [bare, Token.bare?, Scope.resolve, Function.comp_def]

end Html

open Html (bare)

/-! ### Walks that go the same way -/

/-- Two walks that come to the same stack and write the same bare tokens. -/
def Walk.Alike (walk walk' : Walk) : Prop :=
  ∀ stack, (walk stack).2 = (walk' stack).2 ∧ bare (walk stack).1 = bare (walk' stack).1

namespace Walk

theorem Alike.refl (walk : Walk) : Alike walk walk :=
  fun _ => ⟨rfl, rfl⟩

theorem Alike.andThen {a a' b b' : Walk} (ha : Alike a a') (hb : Alike b b') :
    Alike (a.andThen b) (a'.andThen b') := by
  intro stack
  obtain ⟨hstack, htokens⟩ := ha stack
  obtain ⟨hstack', htokens'⟩ := hb (a stack).2
  rw [andThen_apply, andThen_apply, Html.bare_append, Html.bare_append, ← hstack]
  exact ⟨hstack', by rw [htokens, htokens']⟩

theorem alike_writeText (t : Text) (scope scope' : Scope) :
    Alike (write (textToken scope t)) (write (textToken scope' t)) :=
  fun _ => ⟨rfl, rfl⟩

theorem alike_openTag (tag : Tag) (attributes : List Html.Attribute) (scope scope' : Scope) :
    Alike (openTag tag (attributes.map scope.resolve))
      (openTag tag (attributes.map scope'.resolve)) :=
  fun _ => ⟨rfl, Html.bare_opening tag attributes scope scope'⟩

/-- Two lists that are gone through in step. -/
theorem alike_forEach {α : Type} {walk walk' : α → Walk} {items items' : List α}
    (hlength : items.length = items'.length)
    (h : ∀ (i : Nat) (a a' : α), items[i]? = some a → items'[i]? = some a' →
      Alike (walk a) (walk' a')) :
    Alike (forEach walk items) (forEach walk' items') := by
  induction items generalizing items' with
  | nil =>
      cases items' with
      | nil => exact Alike.refl _
      | cons a' items' => cases hlength
  | cons a items ih =>
      cases items' with
      | nil => cases hlength
      | cons a' items' =>
          exact (h 0 a a' rfl rfl).andThen
            (ih (Nat.succ.inj hlength) fun i b b' hb hb' => h (i + 1) b b' hb hb')

end Walk

/-- **Branching.**  Under scopes that agree a script goes the same way. -/
theorem Script.alike_run {R : Scope → Scope → Prop} (hR : Scope.Agreement R) (script : Script)
    {scope scope' : Scope} (h : R scope scope') :
    Walk.Alike (script.run scope) (script.run scope') := by
  induction script generalizing scope scope' with
  | done => exact .refl _
  | skip level rest ih => exact (Walk.Alike.refl _).andThen (ih h)
  | doctype level rest ih =>
      exact (Walk.Alike.refl _).andThen ((Walk.Alike.refl _).andThen (ih h))
  | text level t rest ih =>
      exact (Walk.Alike.refl _).andThen ((Walk.alike_writeText t _ _).andThen (ih h))
  | element level e rest ih =>
      exact (Walk.Alike.refl _).andThen ((Walk.alike_openTag _ _ _ _).andThen
        ((Walk.alike_writeText e.text _ _).andThen (ih h)))
  | choice level path yes no rest ihYes ihNo ih =>
      refine (Walk.Alike.refl _).andThen
        (Walk.Alike.andThen ?_ ((Walk.Alike.refl _).andThen (ih h)))
      rw [hR.truth h path]
      split
      · exact ihYes h
      · exact ihNo h
  | loop level path name body rest ihBody ih =>
      refine (Walk.Alike.refl _).andThen (Walk.Alike.andThen ?_ (ih h))
      exact Walk.alike_forEach (hR.count h path) fun i item item' hitem hitem' =>
        (ihBody (hR.inside h path i item item' hitem hitem' name)).andThen (Walk.Alike.refl _)

/-! ### Pages -/

namespace Page

/-- Walks that go the same way lead to the same open tags and the same bare tokens. -/
theorem walk_alike {walk walk' : Walk} (h : Walk.Alike walk walk') (page : Page) :
    (page.walk walk).stack = (page.walk walk').stack ∧
      bare (page.walk walk).tokens = bare (page.walk walk').tokens := by
  obtain ⟨hstack, htokens⟩ := h page.stack
  refine ⟨hstack, ?_⟩
  show bare (page.tokens ++ _) = bare (page.tokens ++ _)
  rw [Html.bare_append, Html.bare_append, htokens]

/-- Under alike scopes, lines have the same open tags after them and finish to the same bare
tokens. -/
theorem renderLines_alike {scope scope' : Scope} (h : Scope.Alike scope scope') (page : Page)
    (lines : List Line) :
    (page.renderLines scope lines).stack = (page.renderLines scope' lines).stack ∧
      bare ((page.renderLines scope lines).closeTo 0).tokens =
        bare ((page.renderLines scope' lines).closeTo 0).tokens := by
  obtain ⟨R, hR, hscopes⟩ := h
  have hrun := Script.alike_run hR (Script.ofLines lines) hscopes
  have hfinish := walk_alike (hrun.andThen (.refl (Walk.close 0))) page
  rw [walk_andThen, walk_andThen] at hfinish
  exact ⟨(walk_alike hrun page).1, hfinish.2⟩

end Page

end IndentHtml
