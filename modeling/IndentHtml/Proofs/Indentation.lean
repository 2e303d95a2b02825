import IndentHtml.Proofs.Outline
import Mathlib.Algebra.Group.Nat.Even
import Mathlib.Data.List.Forall2
import Mathlib.Data.List.TakeWhile
import Mathlib.Order.Monotone.Basic

/-!
# Indentation

Lines may be indented anew as long as the order of their levels stays.  Two lists of lines are
related by a function `f` on levels when corresponding lines have one content and the levels `n`
and `f n` (`Line.Relevels`); blank lines count like all others.

**Indentation** (`renderLines_reindented`).  When `f` is strictly increasing, both lists render to
the same HTML.  So a template may be shifted by whole levels, or be written with four spaces for
each level instead of two.

The outline compares levels of lines with each other only, and never with a number, so the one list
has the outline of the other with all levels put through `f` (`Outline.tokens_of_relevels`).  The
levels are not printed.  The script closes to one level more than that of a directive, which is
why the proof follows the outline and not the script.
-/

namespace IndentHtml

open Html (Token)

/-! ### Lines with other levels -/

namespace Line

/-- The second line has the content of the first one, and its level is that of the first one put
through `f`. -/
structure Relevels (f : Nat → Nat) (line line' : Line) : Prop where
  content : line'.content = line.content
  level : line'.level = f line.level

theorem isBlank_eq (line : Line) : line.isBlank = line.content.isEmpty := by
  rw [Bool.eq_iff_iff, List.isEmpty_iff, content, Text.trimLeft, List.dropWhile_eq_nil_iff,
    isBlank, Text.isBlank, List.all_eq_true]

section

variable {f : Nat → Nat} {line line' next next' : Line}

theorem Relevels.isBlank (h : Relevels f line line') : line'.isBlank = line.isBlank := by
  rw [isBlank_eq, isBlank_eq, h.content]

variable (hf : StrictMono f) (h : Relevels f line line') (hnext : Relevels f next next')

include hf h hnext

/-- Whether a line is deeper than another one survives new levels, as they keep the order. -/
theorem Relevels.isDeeper :
    Outline.isDeeper line.level next = Outline.isDeeper line'.level next' := by
  rw [Outline.isDeeper, Outline.isDeeper, h.level, hnext.level]
  exact decide_eq_decide.mpr hf.lt_iff_lt.symm

theorem Relevels.isInside :
    Outline.isInside line.level next = Outline.isInside line'.level next' := by
  rw [Outline.isInside, Outline.isInside, Relevels.isDeeper hf h hnext, hnext.isBlank]

theorem Relevels.isOtherwise :
    (next'.level = line'.level ∧ next'.content = "@else".toList) ↔
      next.level = line.level ∧ next.content = "@else".toList := by
  rw [h.level, hnext.level, hnext.content, hf.injective.eq_iff]

end

end Line

/-! ### Parts of related lists -/

section

variable {α β : Type} {R : α → β → Prop} {xs : List α} {ys : List β} {p : α → Bool}
  {q : β → Bool}

/-- Related lists fall into related parts when a test goes the same way on related items. -/
theorem forall₂_takeWhile_dropWhile (h : List.Forall₂ R xs ys)
    (hpq : ∀ x y, R x y → p x = q y) :
    List.Forall₂ R (xs.takeWhile p) (ys.takeWhile q) ∧
      List.Forall₂ R (xs.dropWhile p) (ys.dropWhile q) := by
  induction h with
  | nil => exact ⟨.nil, .nil⟩
  | @cons x y xs ys hxy hrest ih =>
      rw [List.takeWhile_cons, List.takeWhile_cons, List.dropWhile_cons, List.dropWhile_cons,
        hpq x y hxy]
      split
      · exact ⟨.cons hxy ih.1, ih.2⟩
      · exact ⟨.nil, .cons hxy hrest⟩

end

namespace Outline

variable {f : Nat → Nat}

/-- Corresponding lines of two lists, the second one with its levels put through `f`. -/
def Relevels (f : Nat → Nat) (lines lines' : List Line) : Prop :=
  List.Forall₂ (Line.Relevels f) lines lines'

section

variable {line line' : Line} {rest rest' : List Line}

/-- What is inside an element stays inside it. -/
theorem Relevels.inside (hf : StrictMono f) (h : Line.Relevels f line line')
    (hrest : Relevels f rest rest') :
    Relevels f (rest.takeWhile (isInside line.level)) (rest'.takeWhile (isInside line'.level)) ∧
      Relevels f (rest.dropWhile (isInside line.level))
        (rest'.dropWhile (isInside line'.level)) :=
  forall₂_takeWhile_dropWhile hrest fun _ _ hnext => Line.Relevels.isInside hf h hnext

/-- The block of a directive stays its block. -/
theorem Relevels.block (hf : StrictMono f) (h : Line.Relevels f line line')
    (hrest : Relevels f rest rest') :
    Relevels f (rest.takeWhile (isDeeper line.level)) (rest'.takeWhile (isDeeper line'.level)) ∧
      Relevels f (rest.dropWhile (isDeeper line.level))
        (rest'.dropWhile (isDeeper line'.level)) :=
  forall₂_takeWhile_dropWhile hrest fun _ _ hnext => Line.Relevels.isDeeper hf h hnext

/-- The branches of a condition stay its branches, the `@else` among them. -/
theorem Relevels.branches (hf : StrictMono f) (h : Line.Relevels f line line')
    (hrest : Relevels f rest rest') :
    Relevels f (branches line.level rest).yes (branches line'.level rest').yes ∧
      Relevels f (branches line.level rest).no (branches line'.level rest').no ∧
      Relevels f (branches line.level rest).rest (branches line'.level rest').rest := by
  obtain ⟨hyes, hafter⟩ := Relevels.block hf h hrest
  unfold Outline.branches
  generalize rest.dropWhile (isDeeper line.level) = after at hafter
  generalize rest'.dropWhile (isDeeper line'.level) = after' at hafter
  cases hafter with
  | nil => exact ⟨hyes, .nil, .nil⟩
  | @cons next next' more more' hnext hmore =>
      have hsame := Line.Relevels.isOtherwise hf h hnext
      by_cases he : next.level = line.level ∧ next.content = "@else".toList
      · simp only [if_pos he, if_pos (hsame.mpr he)]
        exact ⟨hyes, Relevels.block hf h hmore⟩
      · simp only [if_neg he, if_neg (mt hsame.mp he)]
        exact ⟨hyes, .nil, .cons hnext hmore⟩

end

/-! ### Outlines with other levels -/

/-- A token with the level of its tag put through `f`. -/
def relevel (f : Nat → Nat) : Token → Token
  | .opening tag attributes => .opening ⟨tag.name, f tag.level⟩ attributes
  | .closing tag => .closing ⟨tag.name, f tag.level⟩
  | token => token

/-- Levels are not printed. -/
theorem print_relevel (f : Nat → Nat) (token : Token) : (relevel f token).print = token.print := by
  cases token <;> rfl

theorem printAll_map_relevel (f : Nat → Nat) (tokens : List Token) :
    Token.printAll (tokens.map (relevel f)) = Token.printAll tokens := by
  simp only [Token.printAll, List.flatMap_map, print_relevel]

/-- **The outline of lines with other levels** is the outline with other levels. -/
theorem tokens_of_relevels (hf : StrictMono f) {lines lines' : List Line}
    (h : Relevels f lines lines') (scope : Scope) :
    tokens lines' scope = (tokens lines scope).map (relevel f) := by
  fun_induction tokens lines scope generalizing lines' with
  | case1 scope =>
      cases h
      rw [tokens]
      rfl
  | case2 line rest scope _ _ _ _ _ hb ih =>
      obtain _ | @⟨_, line', _, rest', hline, hrest⟩ := h
      rw [tokens, if_pos (hline.isBlank.trans hb), ih hrest]
  | case3 line rest scope _ _ _ _ _ hb hst ih | case4 line rest scope _ _ _ _ _ hb hst ih =>
      obtain _ | @⟨_, line', _, rest', hline, hrest⟩ := h
      rw [tokens, hline.isBlank, if_neg hb, hline.content, hst, ih hrest]
  | case5 line rest scope _ _ _ _ _ hb hst ih | case6 line rest scope _ _ _ _ _ hb _ hst ih =>
      obtain _ | @⟨_, line', _, rest', hline, hrest⟩ := h
      rw [tokens, hline.isBlank, if_neg hb, hline.content, hst, ih hrest]
      rfl
  | case7 line rest scope _ _ _ _ _ hb e hst ihInside ihAfter =>
      obtain _ | @⟨_, line', _, rest', hline, hrest⟩ := h
      obtain ⟨hinside, hafter⟩ := Relevels.inside hf hline hrest
      rw [tokens, hline.isBlank, if_neg hb, hline.content, hst, ihInside hinside, ihAfter hafter,
        hline.level]
      simp only [List.map_cons, List.map_append, relevel, textToken]
  | case8 line rest scope _ _ _ _ _ hb path hst ihYes ihNo ih =>
      obtain _ | @⟨_, line', _, rest', hline, hrest⟩ := h
      obtain ⟨hyes, hno, hafter⟩ := Relevels.branches hf hline hrest
      rw [tokens, hline.isBlank, if_neg hb, hline.content, hst, ihYes hyes, ihNo hno, ih hafter,
        List.map_append, apply_ite (List.map (relevel f))]
  | case9 line rest scope _ _ _ _ _ hb path name hst ihBody ih =>
      obtain _ | @⟨_, line', _, rest', hline, hrest⟩ := h
      obtain ⟨hbody, hafter⟩ := Relevels.block hf hline hrest
      rw [tokens, hline.isBlank, if_neg hb, hline.content, hst, ih hafter, List.map_append,
        List.map_flatMap]
      simp only [ihBody _ hbody]

end Outline

/-- Lines with other levels give the same HTML, as long as the order of the levels stays. -/
theorem renderLines_of_relevels {f : Nat → Nat} (hf : StrictMono f) {lines lines' : List Line}
    (h : Outline.Relevels f lines lines') (data : Data) :
    renderLines data lines' = renderLines data lines := by
  rw [renderLines_eq_html, renderLines_eq_html, Outline.html, Outline.html,
    Outline.tokens_of_relevels hf h, Outline.printAll_map_relevel]

/-! ### Shifting and widening -/

namespace Line

/-- The number of spaces a line starts with. -/
def indent (line : Line) : Nat :=
  (line.takeWhile (· = ' ')).length

/-- A line with more spaces in front of it. -/
def shift (count : Nat) (line : Line) : Line :=
  List.replicate count ' ' ++ line

/-- A line with twice as many spaces at its front. -/
def widen (line : Line) : Line :=
  line.shift line.indent

theorem indent_shift (count : Nat) (line : Line) :
    (line.shift count).indent = count + line.indent := by
  rw [indent, indent, shift, List.takeWhile_append_of_pos
    (fun c hc => decide_eq_true (List.eq_of_mem_replicate hc)), List.length_append,
    List.length_replicate]

/-- Spaces in front of a line are no content. -/
theorem content_shift (count : Nat) (line : Line) : (line.shift count).content = line.content :=
  List.dropWhile_append_of_pos fun _ hc => List.eq_of_mem_replicate hc ▸ rfl

/-- Spaces for a number of levels put a line that many levels deeper. -/
theorem relevels_shift (count : Nat) (line : Line) :
    Relevels (count + ·) line (line.shift (2 * count)) := by
  refine ⟨content_shift _ line, ?_⟩
  show (line.shift (2 * count)).indent / 2 = count + line.indent / 2
  rw [indent_shift, Nat.mul_add_div (by decide)]

/-- Twice as many spaces for each level give twice the level. -/
theorem relevels_widen {line : Line} (h : Even line.indent) :
    Relevels (2 * ·) line line.widen := by
  refine ⟨content_shift _ line, ?_⟩
  show (line.shift line.indent).indent / 2 = 2 * (line.indent / 2)
  obtain ⟨k, hk⟩ := h
  rw [indent_shift]
  omega

end Line

/-- **Indentation.**  Rendering depends on the indentation of the lines only through the order of
their levels.  In particular it does not matter whether a level is written with two spaces or with
four, and all lines may be shifted by the same even number of spaces. -/
theorem renderLines_reindented :
    (∀ f : Nat → Nat, StrictMono f → ∀ lines lines' : List Line,
      List.Forall₂ (Line.Relevels f) lines lines' →
        ∀ data, renderLines data lines' = renderLines data lines) ∧
    (∀ lines : List Line, (∀ line ∈ lines, Even line.indent) →
      ∀ data, renderLines data (lines.map Line.widen) = renderLines data lines) ∧
    (∀ (count : Nat) (lines : List Line) (data : Data),
      renderLines data (lines.map (Line.shift (2 * count))) = renderLines data lines) := by
  refine ⟨fun f hf lines lines' h data => ?_, fun lines h data => ?_, fun count lines data => ?_⟩
  · exact renderLines_of_relevels hf h data
  · have hwiden : Outline.Relevels (2 * ·) lines (lines.map Line.widen) :=
      List.forall₂_map_right_iff.mpr (List.forall₂_same.mpr fun line hline =>
        Line.relevels_widen (h line hline))
    exact renderLines_of_relevels (fun _ _ hlt => Nat.mul_lt_mul_of_pos_left hlt (by decide))
      hwiden data
  · have hshift : Outline.Relevels (count + ·) lines (lines.map (Line.shift (2 * count))) :=
      List.forall₂_map_right_iff.mpr (List.forall₂_same.mpr fun line _ =>
        Line.relevels_shift count line)
    exact renderLines_of_relevels (fun _ _ hlt => Nat.add_lt_add_left hlt count) hshift data

/-- A list with a blank line in the block of an `@else`, indented by two, eight and fourteen
spaces instead of none, two and four. -/
theorem renderLines_reindented_else_block :
    ∃ (lines lines' : List Line) (data : Data),
      StrictMono (fun n : Nat => 3 * n + 1) ∧
      List.Forall₂ (Line.Relevels fun n => 3 * n + 1) lines lines' ∧
      renderLines data lines' = renderLines data lines ∧
      renderLines data lines = "<li>a\n</li>\n<hr>\n</hr>\n".toList := by
  let lines : List Line := ["@if no".toList, "  p".toList, "@else".toList, "  ".toList,
    "  @foreach xs as x".toList, "    li #\x7bx.0\x7d".toList, "hr".toList]
  let lines' : List Line := ["  @if no".toList, "        p".toList, "  @else".toList,
    "        ".toList, "        @foreach xs as x".toList, "              li #\x7bx.0\x7d".toList,
    "  hr".toList]
  let data : Data := [("xs".toList, .list [.text "a".toList])]
  have hf : StrictMono (fun n : Nat => 3 * n + 1) := fun a b hab => by
    show 3 * a + 1 < 3 * b + 1
    omega
  have hlines : List.Forall₂ (Line.Relevels fun n => 3 * n + 1) lines lines' :=
    .cons ⟨by decide, by decide⟩ (.cons ⟨by decide, by decide⟩ (.cons ⟨by decide, by decide⟩
      (.cons ⟨by decide, by decide⟩ (.cons ⟨by decide, by decide⟩ (.cons ⟨by decide, by decide⟩
        (.cons ⟨by decide, by decide⟩ .nil))))))
  exact ⟨lines, lines', data, hf, hlines, renderLines_reindented.1 _ hf _ _ hlines data,
    by decide +kernel⟩

end IndentHtml
