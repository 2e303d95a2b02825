import IndentHtml.Template.Render

/-!
# Scripts of appended lists

A directive looks ahead for its block and for an `@else`.  When the first line of `ys` can be
neither for any line of `xs` (`Line.Cut xs ys`), the script of `xs ++ ys` is the script of `xs`
followed by the script of `ys` (`Script.ofLines_append`), and it runs as the one after the other
(`Script.run_ofLines_append`).
-/

namespace IndentHtml

/-! ### Blocks of appended lists -/

namespace Line

/-- The first of the lines, if there is one, is neither in the block of a directive at the level
nor its `@else`. -/
def Outside (level : Nat) (lines : List Line) : Prop :=
  ∀ next ∈ lines.head?, next.level ≤ level ∧ Script.isOtherwise level next = false

/-- No directive among the first lines reaches the second ones. -/
def Cut (xs ys : List Line) : Prop :=
  ∀ line ∈ xs, line.isBlank = false → Outside line.level ys

/-- Fewer first lines make a cut more easily. -/
theorem Cut.of_subset {xs xs' ys : List Line} (h : Cut xs ys) (hsub : xs' ⊆ xs) : Cut xs' ys :=
  fun line hline => h line (hsub hline)

/-- A block does not go on into lines outside of it. -/
theorem block_append {level : Nat} {ys : List Line} (h : Outside level ys) (xs : List Line) :
    block level (xs ++ ys) = block level xs := by
  induction xs with
  | nil =>
      cases ys with
      | nil => rfl
      | cons next ys =>
          have hnext := Nat.not_lt.mpr (h next rfl).1
          simp [block, hnext]
  | cons line xs ih =>
      by_cases hl : level < line.level
      · simpa [block, hl] using ih
      · simp [block, hl]

/-- What follows a block is followed by the lines outside of it. -/
theorem afterBlock_append {level : Nat} {ys : List Line} (h : Outside level ys) (xs : List Line) :
    afterBlock level (xs ++ ys) = afterBlock level xs ++ ys := by
  induction xs with
  | nil =>
      cases ys with
      | nil => rfl
      | cons next ys =>
          have hnext := Nat.not_lt.mpr (h next rfl).1
          simp [afterBlock, hnext]
  | cons line xs ih =>
      by_cases hl : level < line.level
      · simpa [afterBlock, hl] using ih
      · simp [afterBlock, hl]

theorem block_subset (level : Nat) (lines : List Line) : block level lines ⊆ lines :=
  (List.takeWhile_sublist _).subset

theorem afterBlock_subset (level : Nat) (lines : List Line) : afterBlock level lines ⊆ lines :=
  (List.dropWhile_sublist _).subset

end Line

namespace Script

open Line (Outside Cut block afterBlock)

/-- An `@else` is not found in lines outside, so the block after it is the same. -/
theorem elseBlock_append {level : Nat} {ys : List Line} (h : Outside level ys) (xs : List Line) :
    elseBlock level (xs ++ ys) = elseBlock level xs := by
  cases xs with
  | nil =>
      cases ys with
      | nil => rfl
      | cons next ys => simp [elseBlock, (h next rfl).2]
  | cons line xs =>
      rw [List.cons_append, elseBlock, elseBlock, Line.block_append h]

/-- What follows both blocks is followed by the lines outside of them. -/
theorem afterElse_append {level : Nat} {ys : List Line} (h : Outside level ys) (xs : List Line) :
    afterElse level (xs ++ ys) = afterElse level xs ++ ys := by
  cases xs with
  | nil =>
      cases ys with
      | nil => rfl
      | cons next ys => simp [afterElse, (h next rfl).2]
  | cons line xs =>
      rw [List.cons_append, afterElse, afterElse, Line.afterBlock_append h]
      split <;> rfl

theorem elseBlock_subset (level : Nat) (lines : List Line) : elseBlock level lines ⊆ lines := by
  cases lines with
  | nil => exact List.Subset.refl _
  | cons line rest =>
      rw [elseBlock]
      split
      · exact List.subset_cons_of_subset _ (Line.block_subset level rest)
      · exact List.nil_subset _

theorem afterElse_subset (level : Nat) (lines : List Line) : afterElse level lines ⊆ lines := by
  cases lines with
  | nil => exact List.Subset.refl _
  | cons line rest =>
      rw [afterElse]
      split
      · exact List.subset_cons_of_subset _ (Line.afterBlock_subset level rest)
      · exact List.Subset.refl _

/-- The block of an `@else` is made of lines after the condition. -/
theorem elseBlock_afterBlock_subset (level : Nat) (lines : List Line) :
    elseBlock level (afterBlock level lines) ⊆ lines :=
  List.Subset.trans (elseBlock_subset level _) (Line.afterBlock_subset level lines)

theorem afterElse_afterBlock_subset (level : Nat) (lines : List Line) :
    afterElse level (afterBlock level lines) ⊆ lines :=
  List.Subset.trans (afterElse_subset level _) (Line.afterBlock_subset level lines)

/-! ### One script after another -/

/-- The steps of one script and then those of another. -/
def append : Script → Script → Script
  | done, next => next
  | skip level rest, next => skip level (rest.append next)
  | doctype level rest, next => doctype level (rest.append next)
  | text level content rest, next => text level content (rest.append next)
  | element level e rest, next => element level e (rest.append next)
  | choice level path yes no rest, next => choice level path yes no (rest.append next)
  | loop level path name body rest, next => loop level path name body (rest.append next)

/-- A script that goes on as another one runs as the one and then the other. -/
theorem run_append (script next : Script) (scope : Scope) :
    (script.append next).run scope = (script.run scope).andThen (next.run scope) := by
  induction script with
  | done => rw [append, run, Walk.idle_andThen]
  | skip level rest ih => simp only [append, run, ih, Walk.andThen_assoc]
  | doctype level rest ih => simp only [append, run, ih, Walk.andThen_assoc]
  | text level content rest ih => simp only [append, run, ih, Walk.andThen_assoc]
  | element level e rest ih => simp only [append, run, ih, Walk.andThen_assoc]
  | choice level path yes no rest _ _ ih => simp only [append, run, ih, Walk.andThen_assoc]
  | loop level path name body rest _ ih => simp only [append, run, ih, Walk.andThen_assoc]

/-- **The script of a list that falls into two parts** is the one script and then the other. -/
theorem ofLines_append {xs ys : List Line} (h : Cut xs ys) :
    ofLines (xs ++ ys) = (ofLines xs).append (ofLines ys) := by
  -- the blocks of each line are cut from `xs` alone, and `ys` goes behind what is left
  fun_induction ofLines xs with
  | case1 => rw [append, List.nil_append]
  | case2 line rest _ _ _ _ hb ih =>
      rw [List.cons_append, ofLines, if_pos hb, ih (h.of_subset (List.subset_cons_self _ _))]
  | case3 line rest _ _ _ _ hb hs ih | case4 line rest _ _ _ _ hb hs ih
  | case5 line rest _ _ _ _ hb hs ih | case6 line rest _ _ _ _ hb _ hs ih
  | case7 line rest _ _ _ _ hb _ hs ih =>
      rw [List.cons_append, ofLines, if_neg hb, hs, append,
        ← ih (h.of_subset (List.subset_cons_self _ _))]
  | case8 line rest _ _ _ _ hb path hs _ _ ih =>
      have ho : Outside line.level ys := h line List.mem_cons_self (Bool.eq_false_iff.mpr hb)
      have hsub := afterElse_afterBlock_subset line.level rest
      rw [List.cons_append, ofLines, if_neg hb, hs, append, Line.block_append ho,
        Line.afterBlock_append ho, elseBlock_append ho, afterElse_append ho,
        ← ih (h.of_subset (List.subset_cons_of_subset _ hsub))]
  | case9 line rest _ _ _ _ hb path name hs _ ih =>
      have ho : Outside line.level ys := h line List.mem_cons_self (Bool.eq_false_iff.mpr hb)
      have hsub := Line.afterBlock_subset line.level rest
      rw [List.cons_append, ofLines, if_neg hb, hs, append, Line.block_append ho,
        Line.afterBlock_append ho, ← ih (h.of_subset (List.subset_cons_of_subset _ hsub))]

/-- The one part runs after the other. -/
theorem run_ofLines_append {xs ys : List Line} (h : Cut xs ys) (scope : Scope) :
    (ofLines (xs ++ ys)).run scope =
      ((ofLines xs).run scope).andThen ((ofLines ys).run scope) := by
  rw [ofLines_append h, run_append]

end Script

end IndentHtml
