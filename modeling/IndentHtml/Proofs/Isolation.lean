import IndentHtml.Proofs.Nesting
import IndentHtml.Proofs.Outline

/-!
# Isolation of blocks

All blocks of a template write to one page and share its stack of open tags.  Yet a block cannot
tell on which page it stands: `Page.alone scope block` is the page that it makes on its own, on a
new page and with all tags closed, and a directive sets this page down at the end of the given one
(`Page.place`).

**Isolation** (`renderLines_directive`).  Take any reached page and any directive.  The tags at the
level of the directive or deeper are closed, and nothing else happens to the stack.  After that an
`@if` writes what its chosen block makes alone, and a `@foreach` writes what its block makes alone
under the scope of each item, in order, so no item depends on the ones before it.

The lines of a block are deeper than the directive, and after the first closing all open tags are
below its level.  So the run of the block is a run by outline (`Outline.run_ofLines_close`), and
the tokens of an outline do not depend on the stack.
-/

namespace IndentHtml

open Html (Tag Token)
open Stack (Below)
open Walk (close)

/-! ### Pages set down on pages -/

namespace Page

/-- The page that lines make on their own, with all tags closed. -/
def alone (scope : Scope) (lines : List Line) : Page :=
  (empty.renderLines scope lines).closeTo 0

/-- What a block makes alone for each of the items, with a loop variable bound to the item. -/
def copies (scope : Scope) (name : Text) (block : List Line) (items : List Value) : Page :=
  ⟨[], items.flatMap fun item => (alone (scope.bind name (loopBinding item)) block).tokens⟩

/-- A finished page set down at the end of a page. -/
def place (page block : Page) : Page :=
  ⟨page.stack, page.tokens ++ block.tokens⟩

/-- A block that is set down on a page adds its HTML. -/
theorem html_place (page block : Page) : (page.place block).html = page.html ++ block.html :=
  Token.printAll_append _ _

theorem html_alone (scope : Scope) (lines : List Line) :
    (alone scope lines).html = (empty.renderLines scope lines).finish := rfl

theorem tokens_alone (scope : Scope) (lines : List Line) :
    (alone scope lines).tokens = Outline.tokens lines scope := by
  rw [alone, closeTo_renderLines_empty]

/-- The HTML of a loop is that of its block, once for each item and each on a page of its own. -/
theorem html_copies (scope : Scope) (name : Text) (block : List Line) (items : List Value) :
    (copies scope name block items).html =
      items.flatMap fun item =>
        (empty.renderLines (scope.bind name (loopBinding item)) block).finish := by
  induction items with
  | nil => rfl
  | cons item items ih =>
      rw [html, copies] at ih ⊢
      rw [List.flatMap_cons, Token.printAll_append, ih, List.flatMap_cons]
      rfl

/-- A loop over two lists is a loop over the one and then the other. -/
theorem html_copies_append (scope : Scope) (name : Text) (block : List Line)
    (xs ys : List Value) :
    (copies scope name block (xs ++ ys)).html =
      (copies scope name block xs).html ++ (copies scope name block ys).html := by
  rw [html_copies, html_copies, html_copies, List.flatMap_append]

/-- All tags left by a closing to a level are below it. -/
theorem below_closeTo {page : Page} (h : Stack.Increasing page.stack) (level : Nat) :
    Below level (page.closeTo level).stack := by
  intro tag htag
  rw [closeTo_of_increasing h] at htag
  exact of_decide_eq_true (List.mem_filter.mp htag).2

end Page

/-! ### Blocks -/

/-- The block of an `@if` line that a scope chooses among the lines after it. -/
def Outline.chosen (scope : Scope) (path : Text) (level : Nat) (rest : List Line) : List Line :=
  if scope.isTruthyAt path then (branches level rest).yes else (branches level rest).no

namespace Outline

theorem atLeast_chosen (scope : Scope) (path : Text) (level : Nat) (rest : List Line) :
    AtLeast (level + 1) (chosen scope path level rest) := by
  obtain ⟨hyes, hno⟩ := atLeast_branches level rest
  rw [chosen]
  split
  · exact hyes
  · exact hno

/-- A block deeper than a level writes what it makes alone and leaves a stack below the level as
it is. -/
theorem run_block {block : List Line} {level : Nat} {stack : List Tag}
    (hblock : AtLeast (level + 1) block) (hstack : Below level stack) (scope : Scope) :
    ((Script.ofLines block).run scope).andThen (close (level + 1)) stack =
      ((Page.alone scope block).tokens, stack) := by
  rw [Page.tokens_alone]
  exact run_ofLines_close hblock (hstack.mono (Nat.le_succ level))

end Outline

namespace Script

variable {line : Line} {rest : List Line}

/-- The run of an `@if` line: the block that the scope chooses stands between two closings. -/
theorem run_ofLines_condition {path : Text} (hsay : line.Says (.condition path)) (scope : Scope) :
    (ofLines (line :: rest)).run scope =
      (close line.level).andThen
        ((((ofLines (Outline.chosen scope path line.level rest)).run scope).andThen
          (close (line.level + 1))).andThen
            ((ofLines (Outline.branches line.level rest).rest).run scope)) := by
  obtain ⟨hblank, hst⟩ := hsay
  rw [ofLines, if_neg (Bool.eq_false_iff.mp hblank), hst, run, Outline.chosen,
    Outline.branches_eq, Walk.andThen_assoc]
  split <;> rfl

/-- The run of a `@foreach` line: the block and a closing for every item. -/
theorem run_ofLines_loop {path name : Text} (hsay : line.Says (.loop path name)) (scope : Scope) :
    (ofLines (line :: rest)).run scope =
      (close line.level).andThen
        ((Walk.forEach
          (fun item => ((ofLines (rest.takeWhile (Outline.isDeeper line.level))).run
            (scope.bind name (loopBinding item))).andThen (close (line.level + 1)))
          (scope.itemsAt path)).andThen
            ((ofLines (rest.dropWhile (Outline.isDeeper line.level))).run scope)) := by
  obtain ⟨hblank, hst⟩ := hsay
  rw [ofLines, if_neg (Bool.eq_false_iff.mp hblank), hst, run]
  rfl

end Script

/-! ### Directives on a page -/

namespace Page

variable {page : Page} {line : Line} {rest : List Line}

/-- **A condition** sets down the chosen block, rendered on its own, and the page goes on behind
both blocks. -/
theorem renderLines_condition (h : Stack.Increasing page.stack) {path : Text}
    (hsay : line.Says (.condition path)) (scope : Scope) :
    page.renderLines scope (line :: rest) =
      ((page.closeTo line.level).place
        (alone scope (Outline.chosen scope path line.level rest))).renderLines scope
          (Outline.branches line.level rest).rest := by
  have hblock := Outline.run_block (Outline.atLeast_chosen scope path line.level rest)
    (below_closeTo h line.level) scope
  rw [renderLines, Script.run_ofLines_condition hsay, walk_andThen, walk_andThen]
  exact congrArg (fun p => Page.walk p _) (walk_of_eq hblock)

/-- **A loop** sets down a copy of its block for each item, and the page goes on behind the
block. -/
theorem renderLines_loop (h : Stack.Increasing page.stack) {path name : Text}
    (hsay : line.Says (.loop path name)) (scope : Scope) :
    page.renderLines scope (line :: rest) =
      ((page.closeTo line.level).place
        (copies scope name (rest.takeWhile (Outline.isDeeper line.level))
          (scope.itemsAt path))).renderLines scope
            (rest.dropWhile (Outline.isDeeper line.level)) := by
  have hblock := fun item => Outline.run_block (Outline.atLeast_block line.level rest)
    (below_closeTo h line.level) (scope.bind name (loopBinding item))
  have hitems := Walk.forEach_of_eq fun item (_ : item ∈ scope.itemsAt path) => hblock item
  rw [renderLines, Script.run_ofLines_loop hsay, walk_andThen, walk_andThen]
  exact congrArg (fun p => Page.walk p _) (walk_of_eq hitems)

end Page

/-- **Isolation of blocks.**  On a reached page, a directive closes the tags at its level or deeper
and leaves the stack as it is then.  An `@if` line appends the finished HTML of the block that the
scope chooses, rendered on a new page.  A `@foreach` line appends the finished HTML of its block for
each item, rendered on a new page under the scope that binds the item; so more items append more
HTML and change nothing of what the first ones append.  The lines after the blocks come next. -/
theorem renderLines_directive {lines : List Line} {page : Page} (h : Page.Reached lines page)
    (scope : Scope) (line : Line) (rest : List Line) :
    (∀ path, line.Says (.condition path) →
      let block := Outline.chosen scope path line.level rest
      let next := (page.closeTo line.level).place (Page.alone scope block)
      page.renderLines scope (line :: rest) =
        next.renderLines scope (Outline.branches line.level rest).rest ∧
      next.stack = (page.closeTo line.level).stack ∧
      next.html =
        (page.closeTo line.level).html ++ (Page.empty.renderLines scope block).finish) ∧
    (∀ path name, line.Says (.loop path name) →
      let block := rest.takeWhile (Outline.isDeeper line.level)
      let next := (page.closeTo line.level).place
        (Page.copies scope name block (scope.itemsAt path))
      page.renderLines scope (line :: rest) =
        next.renderLines scope (rest.dropWhile (Outline.isDeeper line.level)) ∧
      next.stack = (page.closeTo line.level).stack ∧
      next.html = (page.closeTo line.level).html ++ (scope.itemsAt path).flatMap (fun item =>
        (Page.empty.renderLines (scope.bind name (loopBinding item)) block).finish) ∧
      ∀ xs ys, (Page.copies scope name block (xs ++ ys)).html =
        (Page.copies scope name block xs).html ++ (Page.copies scope name block ys).html) := by
  have hincreasing := h.sound.increasing
  refine ⟨fun path hsay => ⟨?_, rfl, ?_⟩, fun path name hsay => ⟨?_, rfl, ?_, ?_⟩⟩
  · exact Page.renderLines_condition hincreasing hsay scope
  · rw [Page.html_place, Page.html_alone]
  · exact Page.renderLines_loop hincreasing hsay scope
  · rw [Page.html_place, Page.html_copies]
  · exact Page.html_copies_append scope name _

/-- A loop between open tags: the one at its level is closed, the outer one stays open, and each
item leaves a paragraph of its own, though none of the lines closes one. -/
theorem renderLines_directive_of_two_items :
    ∃ (lines rest : List Line) (page : Page) (scope : Scope) (line : Line),
      Page.Reached lines page ∧ line.Says (.loop "xs".toList "x".toList) ∧
      page.stack = [⟨"i".toList, 1⟩, ⟨"div".toList, 0⟩] ∧
      (page.renderLines scope (line :: rest)).stack = [⟨"div".toList, 0⟩] ∧
      (page.renderLines scope (line :: rest)).html =
        "<div>\n<i>\n</i>\n<p>\na\n</p>\n<p>\nb\n</p>\n".toList := by
  let scope := Scope.ofData [("xs".toList, .list [.text "a".toList, .text "b".toList])]
  let rest : List Line := ["    p".toList, "      | #\x7bx.0\x7d".toList]
  have h : Page.Reached ["div".toList, "  i".toList]
      (Page.empty.renderLines scope ["div".toList, "  i".toList]) := .render scope _ .empty
  have hsay : Line.Says "  @foreach xs as x".toList (.loop "xs".toList "x".toList) :=
    ⟨by decide +kernel, by decide +kernel⟩
  obtain ⟨hrun, -⟩ := (renderLines_directive h scope _ rest).2 _ _ hsay
  refine ⟨_, rest, _, scope, _, h, hsay, by decide +kernel, ?_, ?_⟩
  · rw [hrun]
    decide +kernel
  · rw [hrun]
    decide +kernel

end IndentHtml
