import IndentHtml.Proofs.Nesting
import IndentHtml.Proofs.Append

/-!
# Rendering in pieces

A piece of a template may be rendered on its own when nothing before it can reach into it.  The
first line of such a piece is at level zero, so it is in no block, and it is no `@else`, so no `@if`
takes it for its own (`Line.StartsPiece`).  The line may be blank; then the lines after it go on
below the tags that the piece before has left open.

**Pieces** (`renderLines_pieces`).  Rendering the pieces one after the other, on any page, gives the
page that the whole list gives.  What one piece hands on to the next is the page alone: the open
tags and what has been written.  No directive waits for lines of a later piece
(`Line.StartsPiece.cut`).
-/

namespace IndentHtml

namespace Line

/-- Holds of lines whose first one, if there is one, is at level zero and is no `@else`. -/
def StartsPiece (lines : List Line) : Prop :=
  ∀ line ∈ lines.head?, line.level = 0 ∧ line.content ≠ "@else".toList

/-- No directive reaches a piece, whatever lines stand before it. -/
theorem StartsPiece.cut {piece : List Line} (h : StartsPiece piece) (lines : List Line) :
    Cut lines piece := by
  intro line _ _ next hnext
  obtain ⟨hlevel, hcontent⟩ := h next hnext
  have helse : Script.isOtherwise line.level next = false := by
    rw [Script.isOtherwise, Directive.otherwise, decide_eq_false hcontent, Bool.and_false]
  exact ⟨hlevel ▸ Nat.zero_le line.level, helse⟩

end Line

namespace Page

/-- Lines that no directive reaches are rendered after the others. -/
theorem renderLines_append {lines more : List Line} (h : Line.Cut lines more) (page : Page)
    (scope : Scope) :
    page.renderLines scope (lines ++ more) =
      (page.renderLines scope lines).renderLines scope more := by
  rw [renderLines, Script.run_ofLines_append h, walk_andThen]
  rfl

/-- Pieces are rendered one after the other, behind any first lines. -/
theorem renderLines_flatten (scope : Scope) (first : List Line) {pieces : List (List Line)}
    (h : ∀ piece ∈ pieces, Line.StartsPiece piece) (page : Page) :
    page.renderLines scope (first ++ pieces.flatten) =
      pieces.foldl (fun page piece => page.renderLines scope piece)
        (page.renderLines scope first) := by
  -- the first piece goes with the lines before it, and is cut off from them again
  induction pieces generalizing first with
  | nil => rw [List.flatten_nil, List.append_nil, List.foldl_nil]
  | cons piece pieces ih =>
      obtain ⟨hpiece, hpieces⟩ := List.forall_mem_cons.mp h
      rw [List.flatten_cons, ← List.append_assoc, ih (first ++ piece) hpieces, List.foldl_cons,
        renderLines_append (hpiece.cut first)]

end Page

/-- **Pieces.**  When the first line of `more` is at level zero and is no `@else`, rendering
`lines ++ more` on a page gives the same open tags and the same output as rendering `lines` and then
`more`.  So a template can be cut at all such lines and rendered piece by piece. -/
theorem renderLines_pieces (page : Page) (scope : Scope) :
    (∀ lines more, Line.StartsPiece more →
      page.renderLines scope (lines ++ more) =
        (page.renderLines scope lines).renderLines scope more) ∧
    ∀ (first : List Line) (pieces : List (List Line)),
      (∀ piece ∈ pieces, Line.StartsPiece piece) →
        page.renderLines scope (first ++ pieces.flatten) =
          pieces.foldl (fun page piece => page.renderLines scope piece)
            (page.renderLines scope first) :=
  ⟨fun lines _ h => Page.renderLines_append (h.cut lines) page scope,
    fun first _ h => Page.renderLines_flatten scope first h page⟩

/-- Three pieces on a page with an open tag.  The first one ends in a loop in an open list, the
second one starts with a blank line and goes on with the list, and the third one closes it. -/
theorem renderLines_pieces_of_open_list :
    ∃ (lines : List Line) (page : Page) (scope : Scope) (first second third : List Line),
      Page.Reached lines page ∧ page.stack = [⟨"div".toList, 0⟩] ∧
      first = ["  ul".toList, "    @foreach xs as x".toList, "      li #\x7bx.0\x7d".toList] ∧
      second = ["".toList, "    @else".toList, "    li c".toList] ∧ third = ["p".toList] ∧
      (page.renderLines scope first).stack = [⟨"ul".toList, 1⟩, ⟨"div".toList, 0⟩] ∧
      page.renderLines scope (first ++ (second ++ third)) =
        ((page.renderLines scope first).renderLines scope second).renderLines scope third ∧
      (page.renderLines scope (first ++ (second ++ third))).finish =
        ("<div>\n<ul>\n<li>a\n</li>\n<li>b\n</li>\n<li>c\n</li>\n</ul>\n</div>\n" ++
          "<p>\n</p>\n").toList := by
  let scope := Scope.ofData [("xs".toList, .list [.text "a".toList, .text "b".toList])]
  let second : List Line := ["".toList, "    @else".toList, "    li c".toList]
  have hreached : Page.Reached ["div".toList] (Page.empty.renderLines scope ["div".toList]) :=
    .render scope _ .empty
  have hsecond : Line.StartsPiece second := by
    rintro line hline
    obtain rfl := Option.some.inj hline
    decide
  have hthird : Line.StartsPiece ["p".toList] := by
    rintro line hline
    obtain rfl := Option.some.inj hline
    decide
  have hpieces := (renderLines_pieces (Page.empty.renderLines scope ["div".toList]) scope).2
    ["  ul".toList, "    @foreach xs as x".toList, "      li #\x7bx.0\x7d".toList]
    [second, ["p".toList]]
    (List.forall_mem_cons.mpr ⟨hsecond, List.forall_mem_singleton.mpr hthird⟩)
  exact ⟨_, _, scope, _, second, _, hreached, by decide +kernel, rfl, rfl, rfl, by decide +kernel,
    hpieces, by decide +kernel⟩

end IndentHtml
