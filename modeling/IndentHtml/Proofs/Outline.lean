import IndentHtml.Proofs.Append
import IndentHtml.Proofs.Stack

/-!
# The outline of a template

A template can be read without a stack.  `Outline.tokens` looks only at the list of lines it is
given and goes on after the lines it has used up.  An `@if` or `@foreach` line uses up the run of
strictly deeper lines after it, blank lines counted by their own leading spaces.  An element uses
up the lines before the first one that is neither blank nor deeper, and writes its end tag after
them.

**Rendering by outline** (`renderLines_eq_html`).  The finished HTML of a list of lines is the
HTML of its outline.

The proof follows the outline (`Outline.run_ofLines_close`).  Lines that are all at a level or
deeper run on a stack whose tags are all below that level: with a closing to that level after
them, they write the tokens of their outline and give the stack back.  The end tag of an element
is written late, by whatever line comes after the lines below the element; `close_andThen_run`
moves it to its place.
-/

namespace IndentHtml

open Html (Tag Token)

namespace Outline

/-! ### What a line uses up -/

/-- Holds of the lines that belong to a directive of a level. -/
def isDeeper (level : Nat) (line : Line) : Bool :=
  decide (level < line.level)

/-- Holds of the lines that do not end an element of a level. -/
def isInside (level : Nat) (line : Line) : Bool :=
  line.isBlank || isDeeper level line

/-- The lines after an `@if` line: its block, the block of its `@else`, and the lines after
both. -/
structure Branches where
  yes : List Line
  no : List Line
  rest : List Line

/-- Splits the lines after an `@if` line.  The `@else` has to follow the block immediately and at
the same level. -/
def branches (level : Nat) (lines : List Line) : Branches :=
  let yes := lines.takeWhile (isDeeper level)
  match lines.dropWhile (isDeeper level) with
  | [] => ⟨yes, [], []⟩
  | next :: more =>
      if next.level = level ∧ next.content = "@else".toList then
        ⟨yes, more.takeWhile (isDeeper level), more.dropWhile (isDeeper level)⟩
      else ⟨yes, [], next :: more⟩

theorem dropWhile_isDeeper (level : Nat) (lines : List Line) :
    lines.dropWhile (isDeeper level) = Line.afterBlock level lines := rfl

theorem isOtherwise_iff {level : Nat} {line : Line} :
    Script.isOtherwise level line = true ↔ line.level = level ∧ line.content = "@else".toList := by
  rw [Script.isOtherwise, Bool.and_eq_true, decide_eq_true_iff, decide_eq_true_iff,
    Directive.otherwise]

/-- The parts of the lines after an `@if` line, as the script has them. -/
theorem branches_eq (level : Nat) (lines : List Line) :
    branches level lines =
      ⟨Line.block level lines, Script.elseBlock level (Line.afterBlock level lines),
        Script.afterElse level (Line.afterBlock level lines)⟩ := by
  unfold branches
  rw [← dropWhile_isDeeper]
  cases lines.dropWhile (isDeeper level) with
  | nil => rfl
  | cons next more =>
      by_cases he : next.level = level ∧ next.content = "@else".toList
      · simp only [if_pos he, Script.elseBlock, Script.afterElse, if_pos (isOtherwise_iff.mpr he)]
        rfl
      · have ho : ¬ Script.isOtherwise level next = true := fun h => he (isOtherwise_iff.mp h)
        simp only [if_neg he, Script.elseBlock, Script.afterElse, if_neg ho]
        rfl

theorem length_branches_le (level : Nat) (lines : List Line) :
    (branches level lines).yes.length ≤ lines.length ∧
      (branches level lines).no.length ≤ lines.length ∧
      (branches level lines).rest.length ≤ lines.length := by
  have hafter := Line.length_afterBlock_le level lines
  rw [branches_eq]
  exact ⟨Line.length_block_le level lines,
    Nat.le_trans (Script.length_elseBlock_le level _) hafter,
    Nat.le_trans (Script.length_afterElse_le level _) hafter⟩

/-! ### The tokens of an outline -/

/-- The tokens of a list of lines, read off the lines without a stack. -/
def tokens : List Line → Scope → List Token
  | [], _ => []
  | line :: rest, scope =>
      have : (rest.takeWhile (isInside line.level)).length ≤ rest.length :=
        (List.takeWhile_sublist _).length_le
      have : (rest.dropWhile (isInside line.level)).length ≤ rest.length :=
        (List.dropWhile_sublist _).length_le
      have : (rest.takeWhile (isDeeper line.level)).length ≤ rest.length :=
        (List.takeWhile_sublist _).length_le
      have : (rest.dropWhile (isDeeper line.level)).length ≤ rest.length :=
        (List.dropWhile_sublist _).length_le
      have := length_branches_le line.level rest
      if line.isBlank then tokens rest scope
      else
        match Statement.ofContent line.content with
        | .comment => tokens rest scope
        | .otherwise => tokens rest scope
        | .doctype => .doctype :: tokens rest scope
        | .text content => textToken scope content :: tokens rest scope
        | .element e =>
            .opening ⟨e.tag, line.level⟩ (e.attributes.map scope.resolve) ::
              textToken scope e.text ::
                (tokens (rest.takeWhile (isInside line.level)) scope ++
                  .closing ⟨e.tag, line.level⟩ ::
                    tokens (rest.dropWhile (isInside line.level)) scope)
        | .condition path =>
            (if scope.isTruthyAt path then tokens (branches line.level rest).yes scope
              else tokens (branches line.level rest).no scope) ++
              tokens (branches line.level rest).rest scope
        | .loop path name =>
            (scope.itemsAt path).flatMap (fun item =>
                tokens (rest.takeWhile (isDeeper line.level))
                  (scope.bind name (loopBinding item))) ++
              tokens (rest.dropWhile (isDeeper line.level)) scope
termination_by lines => lines.length
decreasing_by all_goals simp only [List.length_cons]; omega

/-- The HTML of a list of lines, read off the lines without a stack. -/
def html (lines : List Line) (scope : Scope) : Text :=
  Token.printAll (tokens lines scope)

/-! ### Where the lines below an element end -/

/-- The first line after those below an element is not blank and not deeper. -/
theorem startsWithin_dropWhile (level : Nat) (lines : List Line) :
    Script.StartsWithin level (lines.dropWhile (isInside level)) := by
  intro line hline
  have hnot := List.head?_dropWhile_not (isInside level) lines
  rw [Option.mem_def.mp hline] at hnot
  simpa [isInside, isDeeper] using hnot

theorem deeper_of_mem_inside {level : Nat} {lines : List Line} {line : Line}
    (h : line ∈ lines.takeWhile (isInside level)) (hb : line.isBlank = false) :
    level < line.level := by
  have hin := List.all_eq_true.mp List.all_takeWhile line h
  simpa [isInside, isDeeper, hb] using hin

/-- No directive below an element reaches the lines after it. -/
theorem cut_inside (level : Nat) (lines : List Line) :
    Line.Cut (lines.takeWhile (isInside level)) (lines.dropWhile (isInside level)) := by
  intro line hline hb next hnext
  have hdeep := deeper_of_mem_inside hline hb
  obtain ⟨-, hle⟩ := startsWithin_dropWhile level lines next hnext
  refine ⟨Nat.le_trans hle (Nat.le_of_lt hdeep), Bool.eq_false_iff.mpr fun ho => ?_⟩
  obtain ⟨heq, -⟩ := isOtherwise_iff.mp ho
  omega

/-! ### Running by outline -/

/-- The lines that are not blank are at a level or deeper. -/
def AtLeast (level : Nat) (lines : List Line) : Prop :=
  ∀ line ∈ lines, line.isBlank = false → level ≤ line.level

theorem AtLeast.of_subset {level : Nat} {lines lines' : List Line} (h : AtLeast level lines)
    (hsub : lines' ⊆ lines) : AtLeast level lines' :=
  fun line hline => h line (hsub hline)

theorem atLeast_inside (level : Nat) (lines : List Line) :
    AtLeast (level + 1) (lines.takeWhile (isInside level)) :=
  fun _ hline hb => deeper_of_mem_inside hline hb

theorem atLeast_block (level : Nat) (lines : List Line) :
    AtLeast (level + 1) (Line.block level lines) := by
  intro line hline _
  have hdeep := List.all_eq_true.mp List.all_takeWhile line hline
  exact Nat.succ_le_of_lt (by simpa using hdeep)

theorem atLeast_branches (level : Nat) (lines : List Line) :
    AtLeast (level + 1) (branches level lines).yes ∧
      AtLeast (level + 1) (branches level lines).no := by
  rw [branches_eq]
  refine ⟨atLeast_block level lines, ?_⟩
  cases Line.afterBlock level lines with
  | nil => exact fun _ hline => absurd hline List.not_mem_nil
  | cons next more =>
      show AtLeast (level + 1) (Script.elseBlock level (next :: more))
      rw [Script.elseBlock]
      split
      · exact atLeast_block level more
      · exact fun _ hline => absurd hline List.not_mem_nil

theorem branches_rest_subset (level : Nat) (lines : List Line) :
    (branches level lines).rest ⊆ lines := by
  rw [branches_eq]
  exact Script.afterElse_afterBlock_subset level lines

open Stack (Below)
open Walk (close)

/-- The tags of the lines below an element, and that of the element itself, may be closed before
the lines after them are run. -/
theorem run_ofLines_split {level bound : Nat} (hb : bound ≤ level) (lines : List Line)
    (scope : Scope) :
    ((Script.ofLines lines).run scope).andThen (close bound) =
      (((Script.ofLines (lines.takeWhile (isInside level))).run scope).andThen
        (close (level + 1))).andThen
          ((close level).andThen
            (((Script.ofLines (lines.dropWhile (isInside level))).run scope).andThen
              (close bound))) := by
  have hrun := Script.run_ofLines_append (cut_inside level lines) scope
  rw [List.takeWhile_append_dropWhile] at hrun
  have hclose : (close (level + 1)).andThen (close level) = close level :=
    Walk.close_andThen_close (Nat.le_succ level)
  have hafter := Script.close_andThen_run scope (startsWithin_dropWhile level lines) hb
  rw [hrun, Walk.andThen_assoc, Walk.andThen_assoc, ← Walk.andThen_assoc (close (level + 1)),
    hclose, hafter]

section Steps

variable {line : Line} {rest : List Line} {scope : Scope} {bound : Nat} {stack : List Tag}

/-- An element line, when the lines below it leave its tag on the stack and those after it leave
the stack as it was. -/
theorem run_element {e : Element} {inner more : List Token} (hsay : line.Says (.element e))
    (hline : bound ≤ line.level) (hbelow : Below line.level stack)
    (hinside : ((Script.ofLines (rest.takeWhile (isInside line.level))).run scope).andThen
      (close (line.level + 1)) (⟨e.tag, line.level⟩ :: stack) =
        (inner, ⟨e.tag, line.level⟩ :: stack))
    (hafter : ((Script.ofLines (rest.dropWhile (isInside line.level))).run scope).andThen
      (close bound) stack = (more, stack)) :
    ((Script.ofLines (line :: rest)).run scope).andThen (close bound) stack =
      (.opening ⟨e.tag, line.level⟩ (e.attributes.map scope.resolve) :: textToken scope e.text ::
        (inner ++ .closing ⟨e.tag, line.level⟩ :: more), stack) := by
  obtain ⟨hb, hst⟩ := hsay
  -- only the tag of the line itself is left when the lines below it are done
  have hclosing : close line.level (⟨e.tag, line.level⟩ :: stack) =
      ([.closing ⟨e.tag, line.level⟩], stack) := Walk.close_push ⟨e.tag, line.level⟩ hbelow
  rw [Script.ofLines, if_neg (Bool.eq_false_iff.mp hb), hst, Script.run, Walk.andThen_assoc,
    Walk.close_andThen_of_below hbelow, Walk.andThen_assoc, Walk.openTag_andThen,
    Walk.andThen_assoc, Walk.write_andThen, run_ofLines_split hline,
    Walk.andThen_of_eq hinside, Walk.andThen_of_eq hclosing, hafter]
  rfl

/-- An `@if` line, when both its blocks and the lines after them leave the stack as it was. -/
theorem run_choice {path : Text} {yes no more : List Token} (hsay : line.Says (.condition path))
    (hbelow : Below line.level stack)
    (hyes : ((Script.ofLines (branches line.level rest).yes).run scope).andThen
      (close (line.level + 1)) stack = (yes, stack))
    (hno : ((Script.ofLines (branches line.level rest).no).run scope).andThen
      (close (line.level + 1)) stack = (no, stack))
    (hrest : ((Script.ofLines (branches line.level rest).rest).run scope).andThen
      (close bound) stack = (more, stack)) :
    ((Script.ofLines (line :: rest)).run scope).andThen (close bound) stack =
      ((if scope.isTruthyAt path then yes else no) ++ more, stack) := by
  obtain ⟨hb, hst⟩ := hsay
  rw [branches_eq] at hyes hno hrest
  -- whichever block is chosen, the tags it opens are closed after it
  have hchosen :
      ((if scope.isTruthyAt path then (Script.ofLines (Line.block line.level rest)).run scope
        else (Script.ofLines (Script.elseBlock line.level
          (Line.afterBlock line.level rest))).run scope).andThen
        (close (line.level + 1))) stack =
      (if scope.isTruthyAt path then yes else no, stack) := by
    split
    · exact hyes
    · exact hno
  rw [Script.ofLines, if_neg (Bool.eq_false_iff.mp hb), hst, Script.run, Walk.andThen_assoc,
    Walk.close_andThen_of_below hbelow, ← Walk.andThen_assoc, Walk.andThen_assoc,
    Walk.andThen_of_eq hchosen, hrest]

/-- A `@foreach` line, when its block leaves the stack as it was for every item, and the lines
after it do. -/
theorem run_loop {path name : Text} {body : Value → List Token} {more : List Token}
    (hsay : line.Says (.loop path name)) (hbelow : Below line.level stack)
    (hbody : ∀ item, ((Script.ofLines (rest.takeWhile (isDeeper line.level))).run
      (scope.bind name (loopBinding item))).andThen (close (line.level + 1)) stack =
        (body item, stack))
    (hrest : ((Script.ofLines (rest.dropWhile (isDeeper line.level))).run scope).andThen
      (close bound) stack = (more, stack)) :
    ((Script.ofLines (line :: rest)).run scope).andThen (close bound) stack =
      ((scope.itemsAt path).flatMap body ++ more, stack) := by
  obtain ⟨hb, hst⟩ := hsay
  have hitems : Walk.forEach (fun item =>
        ((Script.ofLines (Line.block line.level rest)).run
          (scope.bind name (loopBinding item))).andThen (close (line.level + 1)))
      (scope.itemsAt path) stack = ((scope.itemsAt path).flatMap body, stack) :=
    Walk.forEach_of_eq fun item _ => hbody item
  rw [Script.ofLines, if_neg (Bool.eq_false_iff.mp hb), hst, Script.run, Walk.andThen_assoc,
    Walk.close_andThen_of_below hbelow, Walk.andThen_assoc, Walk.andThen_of_eq hitems]
  rw [dropWhile_isDeeper] at hrest
  rw [hrest]

end Steps

/-- **Running by outline.**  Lines at a level or deeper, run on a stack whose tags are all below
the level and closed to the level at the end, write the tokens of their outline and leave the
stack as it was. -/
theorem run_ofLines_close {lines : List Line} {scope : Scope} {bound : Nat} {stack : List Tag}
    (hd : AtLeast bound lines) (hs : Below bound stack) :
    ((Script.ofLines lines).run scope).andThen (close bound) stack =
      (tokens lines scope, stack) := by
  -- the lines below a line have a bound of their own, one more than its level
  fun_induction tokens lines scope generalizing bound stack with
  | case1 scope =>
      rw [Script.ofLines, Script.run, Walk.idle_andThen, Walk.close_of_below hs]
  | case2 line rest scope _ _ _ _ _ hb ih =>
      rw [Script.ofLines, if_pos hb]
      exact ih (hd.of_subset (List.subset_cons_self _ _)) hs
  | case3 line rest scope _ _ _ _ _ hb hst ih | case4 line rest scope _ _ _ _ _ hb hst ih =>
      have hline := hd line List.mem_cons_self (Bool.eq_false_iff.mpr hb)
      rw [Script.ofLines, if_neg hb, hst, Script.run, Walk.andThen_assoc,
        Walk.close_andThen_of_below (hs.mono hline)]
      exact ih (hd.of_subset (List.subset_cons_self _ _)) hs
  | case5 line rest scope _ _ _ _ _ hb hst ih | case6 line rest scope _ _ _ _ _ hb _ hst ih =>
      have hline := hd line List.mem_cons_self (Bool.eq_false_iff.mpr hb)
      rw [Script.ofLines, if_neg hb, hst, Script.run, Walk.andThen_assoc,
        Walk.close_andThen_of_below (hs.mono hline), Walk.andThen_assoc, Walk.write_andThen,
        ih (hd.of_subset (List.subset_cons_self _ _)) hs]
  | case7 line rest scope _ _ _ _ _ hb e hst ihInside ihAfter =>
      have hblank := Bool.eq_false_iff.mpr hb
      have hline := hd line List.mem_cons_self hblank
      have hbelow := hs.mono hline
      have hafter := ihAfter (hd.of_subset
        (List.subset_cons_of_subset _ (List.dropWhile_sublist _).subset)) hs
      have hinside := ihInside (atLeast_inside line.level rest)
        (show Below (line.level + 1) (⟨e.tag, line.level⟩ :: stack) from Below.push hbelow)
      exact run_element ⟨hblank, hst⟩ hline hbelow hinside hafter
  | case8 line rest scope _ _ _ _ _ hb path hst ihYes ihNo ih =>
      have hblank := Bool.eq_false_iff.mpr hb
      have hbelow := hs.mono (hd line List.mem_cons_self hblank)
      have hbody := hbelow.mono (Nat.le_succ line.level)
      obtain ⟨hyes, hno⟩ := atLeast_branches line.level rest
      have hrest := ih (hd.of_subset (List.subset_cons_of_subset _
        (branches_rest_subset line.level rest))) hs
      exact run_choice ⟨hblank, hst⟩ hbelow (ihYes hyes hbody) (ihNo hno hbody) hrest
  | case9 line rest scope _ _ _ _ _ hb path name hst ihBody ih =>
      have hblank := Bool.eq_false_iff.mpr hb
      have hbelow := hs.mono (hd line List.mem_cons_self hblank)
      have hbody := hbelow.mono (Nat.le_succ line.level)
      have hrest := ih (hd.of_subset (List.subset_cons_of_subset _
        (List.dropWhile_sublist _).subset)) hs
      exact run_loop ⟨hblank, hst⟩ hbelow
        (fun item => ihBody item (atLeast_block line.level rest) hbody) hrest

end Outline

/-! ### Finished pages -/

/-- Rendering lines on a new page and closing all tags writes the tokens of their outline. -/
theorem closeTo_renderLines_empty (scope : Scope) (lines : List Line) :
    (Page.empty.renderLines scope lines).closeTo 0 = ⟨[], Outline.tokens lines scope⟩ := by
  have hrun : ((Script.ofLines lines).run scope).andThen (Walk.close 0) [] =
      (Outline.tokens lines scope, []) :=
    Outline.run_ofLines_close (fun line _ _ => Nat.zero_le line.level) (Stack.below_nil 0)
  rw [Page.renderLines, Page.closeTo, ← Page.walk_andThen, Page.walk_of_eq hrun]
  rfl

/-- **Rendering by outline.**  The finished HTML of a list of lines is the HTML of its outline. -/
theorem renderLines_eq_html (data : Data) (lines : List Line) :
    renderLines data lines = Outline.html lines (Scope.ofData data) := by
  rw [renderLines, Page.finish, closeTo_renderLines_empty]
  rfl

end IndentHtml
