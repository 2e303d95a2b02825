import IndentHtml.Template.Render

/-!
# The stack of open tags

Closing to a level takes away the innermost tags as long as they are at the level or deeper.  On a
stack whose levels increase towards the inside, that is every tag at the level or deeper
(`Walk.close_of_increasing`).  Closing to a level and then to a smaller one is closing to the
smaller one (`Walk.close_andThen_close`), and a line that is not blank starts by closing to its own
level, so a tag that is closed earlier than the next line closes it makes no difference
(`Script.close_andThen_run`).
-/

namespace IndentHtml

open Html (Tag Token)

/-! ### Levels of a stack -/

namespace Stack

/-- All tags of the stack have levels below the given one. -/
def Below (level : Nat) (stack : List Tag) : Prop :=
  ∀ tag ∈ stack, tag.level < level

/-- The levels strictly increase from the outermost tag to the innermost one, which comes first. -/
def Increasing (stack : List Tag) : Prop :=
  stack.Pairwise fun inner outer => outer.level < inner.level

theorem below_nil (level : Nat) : Below level [] := by
  intro tag h
  cases h

theorem Below.mono {level level' : Nat} {stack : List Tag} (h : Below level stack)
    (hle : level ≤ level') : Below level' stack :=
  fun tag ht => Nat.lt_of_lt_of_le (h tag ht) hle

/-- A tag on top of a stack below its level is below the next level. -/
theorem Below.push {tag : Tag} {stack : List Tag} (h : Below tag.level stack) :
    Below (tag.level + 1) (tag :: stack) := by
  intro t ht
  rcases List.mem_cons.mp ht with rfl | ht
  · exact Nat.lt_succ_self _
  · exact Nat.lt_succ_of_lt (h t ht)

theorem increasing_cons {tag : Tag} {stack : List Tag} :
    Increasing (tag :: stack) ↔ Below tag.level stack ∧ Increasing stack :=
  List.pairwise_cons

end Stack

namespace Walk

open Stack (Below)

theorem andThen_apply (a b : Walk) (stack : List Tag) :
    a.andThen b stack = ((a stack).1 ++ (b (a stack).2).1, (b (a stack).2).2) := rfl

/-- A walk whose first part is known on a stack. -/
theorem andThen_of_eq {a : Walk} {stack stack' : List Tag} {tokens : List Token}
    (h : a stack = (tokens, stack')) (b : Walk) :
    a.andThen b stack = (tokens ++ (b stack').1, (b stack').2) := by
  rw [andThen_apply, h]

theorem write_andThen (token : Token) (walk : Walk) (stack : List Tag) :
    (write token).andThen walk stack = (token :: (walk stack).1, (walk stack).2) := rfl

theorem openTag_andThen (tag : Tag) (attributes : List Html.Attribute) (walk : Walk)
    (stack : List Tag) :
    (openTag tag attributes).andThen walk stack =
      (.opening tag attributes :: (walk (tag :: stack)).1, (walk (tag :: stack)).2) := rfl

/-- One item after the other, when each leaves the stack as it is. -/
theorem forEach_of_eq {α : Type} {walk : α → Walk} {tokens : α → List Token} {stack : List Tag}
    {items : List α} (h : ∀ item ∈ items, walk item stack = (tokens item, stack)) :
    forEach walk items stack = (items.flatMap tokens, stack) := by
  induction items with
  | nil => rfl
  | cons item items ih =>
      have hrest := ih fun i hi => h i (List.mem_cons_of_mem _ hi)
      rw [forEach, andThen_of_eq (h item List.mem_cons_self), hrest, List.flatMap_cons]

/-! ### Closing -/

/-- There is nothing to close when all tags are below the level. -/
theorem close_of_below {level : Nat} {stack : List Tag} (h : Below level stack) :
    close level stack = ([], stack) := by
  cases stack with
  | nil => rfl
  | cons tag stack =>
      have htag : ¬ level ≤ tag.level := Nat.not_le.mpr (h tag List.mem_cons_self)
      rw [close, if_neg htag]

/-- A walk that closes first, where there is nothing to close. -/
theorem close_andThen_of_below {level : Nat} {stack : List Tag} (h : Below level stack)
    (walk : Walk) : (close level).andThen walk stack = walk stack := by
  rw [andThen_of_eq (close_of_below h), List.nil_append]

theorem close_cons {level : Nat} {tag : Tag} (h : level ≤ tag.level) (stack : List Tag) :
    close level (tag :: stack) =
      (.closing tag :: (close level stack).1, (close level stack).2) := by
  rw [close, if_pos h]

/-- Closing to the level of the innermost tag takes away that tag alone. -/
theorem close_push (tag : Tag) {stack : List Tag} (h : Below tag.level stack) :
    close tag.level (tag :: stack) = ([.closing tag], stack) := by
  rw [close_cons (Nat.le_refl _), close_of_below h]

/-- Closing to a level and then to a smaller one is closing to the smaller one. -/
theorem close_andThen_close {level level' : Nat} (h : level' ≤ level) :
    (close level).andThen (close level') = close level' := by
  funext stack
  induction stack with
  | nil => rfl
  | cons tag stack ih =>
      by_cases ht : level ≤ tag.level
      · rw [close_cons (Nat.le_trans h ht), ← ih, andThen_of_eq (close_cons ht stack),
          andThen_apply, List.cons_append]
      · have hc : close level (tag :: stack) = ([], tag :: stack) := by rw [close, if_neg ht]
        rw [andThen_of_eq hc, List.nil_append]

/-- On a stack with increasing levels, closing takes away exactly the tags at the level or deeper,
innermost first, and leaves the others as they are. -/
theorem close_of_increasing {level : Nat} {stack : List Tag} (h : Stack.Increasing stack) :
    close level stack =
      ((stack.filter fun tag => decide (level ≤ tag.level)).map .closing,
        stack.filter fun tag => decide (tag.level < level)) := by
  induction stack with
  | nil => rfl
  | cons tag stack ih =>
      obtain ⟨hb, hn⟩ := Stack.increasing_cons.mp h
      by_cases ht : level ≤ tag.level
      · have ht' : ¬ tag.level < level := Nat.not_lt.mpr ht
        rw [close_cons ht, ih hn]
        simp [ht, ht']
      · -- the innermost tag has the greatest level
        have ht' : tag.level < level := Nat.not_le.mp ht
        have hall : Below level (tag :: stack) := by
          intro t hmem
          rcases List.mem_cons.mp hmem with rfl | hmem
          · exact ht'
          · exact Nat.lt_trans (hb t hmem) ht'
        have hkeep : (tag :: stack).filter (fun t => decide (t.level < level)) = tag :: stack :=
          List.filter_eq_self.mpr fun t hmem => by simpa using hall t hmem
        have hdrop : (tag :: stack).filter (fun t => decide (level ≤ t.level)) = [] :=
          List.filter_eq_nil_iff.mpr fun t hmem => by simpa using hall t hmem
        rw [close_of_below hall, hkeep, hdrop, List.map_nil]

end Walk

/-! ### Walks on a page -/

namespace Page

theorem walk_andThen (page : Page) (a b : Walk) :
    page.walk (a.andThen b) = (page.walk a).walk b := by
  simp only [walk, Walk.andThen_apply, List.append_assoc]

/-- A walk on a page that is known on its stack. -/
theorem walk_of_eq {page : Page} {walk : Walk} {tokens : List Token} {stack : List Tag}
    (h : walk page.stack = (tokens, stack)) :
    page.walk walk = ⟨stack, page.tokens ++ tokens⟩ := by
  simp only [Page.walk, h]

end Page

/-! ### The first line of a run -/

/-- A line that is not blank and makes a statement. -/
def Line.Says (line : Line) (statement : Statement) : Prop :=
  line.isBlank = false ∧ Statement.ofContent line.content = statement

namespace Script

open Walk (close)

/-- A line that is not blank starts by closing to its level. -/
theorem exists_run_ofLines_cons (scope : Scope) {line : Line} (rest : List Line)
    (h : line.isBlank = false) :
    ∃ walk : Walk, (ofLines (line :: rest)).run scope = (close line.level).andThen walk := by
  rw [ofLines]
  simp only [h, Bool.false_eq_true, if_false]
  split <;> exact ⟨_, rfl⟩

/-- A list of lines that is empty, or starts with a line that is not blank and not deeper than a
level. -/
def StartsWithin (level : Nat) (lines : List Line) : Prop :=
  ∀ line ∈ lines.head?, line.isBlank = false ∧ line.level ≤ level

/-- What the next line closes anyway may as well be closed before it. -/
theorem close_andThen_run {level bound : Nat} {lines : List Line} (scope : Scope)
    (h : StartsWithin level lines) (hb : bound ≤ level) :
    (close level).andThen (((ofLines lines).run scope).andThen (close bound)) =
      ((ofLines lines).run scope).andThen (close bound) := by
  cases lines with
  | nil =>
      rw [ofLines, run, Walk.idle_andThen]
      exact Walk.close_andThen_close hb
  | cons line rest =>
      obtain ⟨hblank, hlevel⟩ := h line rfl
      obtain ⟨walk, hw⟩ := exists_run_ofLines_cons scope rest hblank
      rw [hw, Walk.andThen_assoc, ← Walk.andThen_assoc, Walk.close_andThen_close hlevel]

end Script

end IndentHtml
