import IndentHtml.Proofs.Append
import IndentHtml.Proofs.Stack

/-!
# Where tokens come from

Every token that a run writes is the doing of a line.  A start tag with its attributes and the
text after it come from an element line, other text from a text line; only end tags come from the
stack (`Script.writes_run_ofLines`).  What a line brings is fixed by the line, up to the scope that
its text and its attribute values are resolved in.
-/

namespace IndentHtml

open Html (Tag Token)

/-! ### Tokens of a walk -/

namespace Walk

/-- Holds of a walk that writes only tokens with a property, on every stack. -/
def Writes (P : Token → Prop) (walk : Walk) : Prop :=
  ∀ stack, ∀ token ∈ (walk stack).1, P token

variable {P : Token → Prop}

theorem writes_idle : Writes P idle := by
  intro stack token h
  cases h

theorem writes_write {token : Token} (h : P token) : Writes P (write token) := by
  intro stack t ht
  obtain rfl := List.mem_singleton.mp ht
  exact h

/-- Opening a tag writes its start tag and nothing else. -/
theorem writes_openTag {tag : Tag} {attributes : List Html.Attribute}
    (h : P (.opening tag attributes)) : Writes P (openTag tag attributes) := by
  intro stack t ht
  obtain rfl := List.mem_singleton.mp ht
  exact h

/-- Closing writes end tags only, of whatever tags are open. -/
theorem writes_close (h : ∀ tag, P (.closing tag)) (level : Nat) : Writes P (close level) := by
  intro stack
  induction stack with
  | nil => exact fun token ht => absurd ht List.not_mem_nil
  | cons tag stack ih =>
      intro token ht
      rw [close] at ht
      split at ht
      · rcases List.mem_cons.mp ht with rfl | ht
        · exact h tag
        · exact ih token ht
      · exact absurd ht List.not_mem_nil

/-- A walk writes only what its parts write. -/
theorem Writes.andThen {a b : Walk} (ha : Writes P a) (hb : Writes P b) :
    Writes P (a.andThen b) := by
  intro stack token ht
  rcases List.mem_append.mp ht with ht | ht
  · exact ha stack token ht
  · exact hb _ token ht

/-- A loop writes only what its rounds write. -/
theorem writes_forEach {α : Type} {walk : α → Walk} (h : ∀ item, Writes P (walk item))
    (items : List α) : Writes P (forEach walk items) := by
  induction items with
  | nil => exact writes_idle
  | cons item items ih => exact (h item).andThen ih

end Walk

/-! ### Tokens of a run -/

/-- The tokens that some of the lines can bring, and end tags. -/
inductive Brought (lines : List Line) : Token → Prop where
  | doctype : Brought lines .doctype
  | text {line : Line} {content : Text} (scope : Scope) :
      line ∈ lines → line.Says (.text content) →
        Brought lines (textToken scope content)
  | opening {line : Line} {e : Element} (scope : Scope) :
      line ∈ lines → line.Says (.element e) →
        Brought lines (.opening ⟨e.tag, line.level⟩ (e.attributes.map scope.resolve))
  | inline {line : Line} {e : Element} (scope : Scope) :
      line ∈ lines → line.Says (.element e) →
        Brought lines (textToken scope e.text)
  | closing (tag : Tag) : Brought lines (.closing tag)

/-- What some lines bring, more lines bring. -/
theorem Brought.mono {lines lines' : List Line} {token : Token} (h : Brought lines token)
    (hsub : lines ⊆ lines') : Brought lines' token := by
  cases h with
  | doctype => exact .doctype
  | text scope hline hs => exact .text scope (hsub hline) hs
  | opening scope hline hs => exact .opening scope (hsub hline) hs
  | inline scope hline hs => exact .inline scope (hsub hline) hs
  | closing tag => exact .closing tag

/-- A walk over some of the lines writes what all of them bring. -/
theorem Walk.Writes.brought_mono {lines lines' : List Line} {walk : Walk}
    (h : walk.Writes (Brought lines)) (hsub : lines ⊆ lines') : walk.Writes (Brought lines') :=
  fun stack token ht => (h stack token ht).mono hsub

namespace Script

open Walk (Writes)

theorem writes_close_brought (lines : List Line) (level : Nat) :
    Writes (Brought lines) (Walk.close level) :=
  Walk.writes_close (fun tag => .closing tag) level

/-- **A run writes what its lines bring.** -/
theorem writes_run_ofLines (lines : List Line) (scope : Scope) :
    Writes (Brought lines) ((ofLines lines).run scope) := by
  fun_induction ofLines lines generalizing scope with
  | case1 => exact Walk.writes_idle
  | case2 line rest _ _ _ _ _ ih => exact (ih scope).brought_mono (List.subset_cons_self _ _)
  | case3 line rest _ _ _ _ _ _ ih | case4 line rest _ _ _ _ _ _ ih =>
      exact (writes_close_brought _ _).andThen
        ((ih scope).brought_mono (List.subset_cons_self _ _))
  | case5 line rest _ _ _ _ _ _ ih =>
      exact (writes_close_brought _ _).andThen ((Walk.writes_write .doctype).andThen
        ((ih scope).brought_mono (List.subset_cons_self _ _)))
  | case6 line rest _ _ _ _ hb content hs ih =>
      have hsay : line.Says (.text content) := ⟨Bool.eq_false_iff.mpr hb, hs⟩
      exact (writes_close_brought _ _).andThen
        ((Walk.writes_write (.text scope List.mem_cons_self hsay)).andThen
          ((ih scope).brought_mono (List.subset_cons_self _ _)))
  | case7 line rest _ _ _ _ hb e hs ih =>
      have hsay : line.Says (.element e) := ⟨Bool.eq_false_iff.mpr hb, hs⟩
      have hmem : line ∈ line :: rest := List.mem_cons_self
      have hopen := Walk.writes_openTag (Brought.opening scope hmem hsay)
      have htext := Walk.writes_write (Brought.inline scope hmem hsay)
      exact (writes_close_brought _ _).andThen (hopen.andThen (htext.andThen
        ((ih scope).brought_mono (List.subset_cons_self _ _))))
  | case8 line rest _ _ _ _ _ path hs ihYes ihNo ih =>
      have hyes := (ihYes scope).brought_mono
        (List.subset_cons_of_subset line (Line.block_subset line.level rest))
      have hno := (ihNo scope).brought_mono
        (List.subset_cons_of_subset line (elseBlock_afterBlock_subset line.level rest))
      have hrest := (ih scope).brought_mono
        (List.subset_cons_of_subset line (afterElse_afterBlock_subset line.level rest))
      -- whichever block is chosen, its lines are among those after the line
      refine (writes_close_brought _ _).andThen (Writes.andThen ?_
        ((writes_close_brought _ _).andThen hrest))
      split
      · exact hyes
      · exact hno
  | case9 line rest _ _ _ _ _ path name hs ihBody ih =>
      have hbody := fun item => (ihBody (scope.bind name (loopBinding item))).brought_mono
        (List.subset_cons_of_subset line (Line.block_subset line.level rest))
      have hrest := (ih scope).brought_mono
        (List.subset_cons_of_subset line (Line.afterBlock_subset line.level rest))
      exact (writes_close_brought _ _).andThen ((Walk.writes_forEach
        (fun item => (hbody item).andThen (writes_close_brought _ _)) _).andThen hrest)

end Script

end IndentHtml
