import IndentHtml.Proofs.Append

/-!
# Blank lines among other lines

A blank line writes nothing, but it may end the block of a directive and keep an `@else` from its
`@if`.  It does neither when it is deeper than the line before it.  Where that line is in a block,
so is the blank line, and after a directive the blank line is the first one of its block.

`Line.Padded lines lines'` says that `lines'` has more blank lines than `lines`, each of them deeper
than the last of the old lines before it.

**Blank lines** (`renderLines_insert_blank`).  A blank line that is deeper than the line before it
may be put in anywhere, and nothing changes on any page.

Padded lists have one script (`Line.Padded.ofLines_eq`), since a script has no blank lines.  The
parts that a directive cuts are padded lists again (`Line.Padded.block`).  Only the block of an
`@else` may start with new lines, those behind the `@else` itself (`Line.Padded.elseBlock`).
-/

namespace IndentHtml

open Script (ofLines elseBlock afterElse)

/-! ### Blank lines in front -/

namespace Line

variable {level : Nat} {pads : List Line}

theorem block_pads (h : ∀ pad ∈ pads, level < pad.level) (lines : List Line) :
    block level (pads ++ lines) = pads ++ block level lines :=
  List.takeWhile_append_of_pos fun pad hpad => decide_eq_true (h pad hpad)

theorem afterBlock_pads (h : ∀ pad ∈ pads, level < pad.level) (lines : List Line) :
    afterBlock level (pads ++ lines) = afterBlock level lines :=
  List.dropWhile_append_of_pos fun pad hpad => decide_eq_true (h pad hpad)

end Line

/-- The script of a list has no trace of the blank lines in front. -/
theorem Script.ofLines_pads {pads : List Line} (h : ∀ pad ∈ pads, pad.isBlank = true)
    (lines : List Line) : ofLines (pads ++ lines) = ofLines lines := by
  induction pads with
  | nil => rfl
  | cons pad pads ih =>
      obtain ⟨hpad, hpads⟩ := List.forall_mem_cons.mp h
      rw [List.cons_append, ofLines, if_pos hpad, ih hpads]

/-! ### Padded lists -/

namespace Line

/-- Blank lines that are all deeper than a level. -/
structure Pads (level : Nat) (pads : List Line) : Prop where
  blank : ∀ pad ∈ pads, pad.isBlank = true
  deeper : ∀ pad ∈ pads, level < pad.level

/-- The second list is the first one with blank lines in between, each of them deeper than the last
line of the first list before it. -/
inductive Padded : List Line → List Line → Prop where
  | nil : Padded [] []
  | cons {line : Line} {pads rest rest' : List Line} :
      Pads line.level pads → Padded rest rest' → Padded (line :: rest) (line :: (pads ++ rest'))

theorem Pads.mono {level level' : Nat} {pads : List Line} (h : Pads level pads)
    (hle : level' ≤ level) : Pads level' pads :=
  ⟨h.blank, fun pad hpad => Nat.lt_of_le_of_lt hle (h.deeper pad hpad)⟩

theorem pads_nil (level : Nat) : Pads level [] :=
  ⟨List.forall_mem_nil _, List.forall_mem_nil _⟩

theorem pads_singleton {level : Nat} {pad : Line} (hblank : pad.isBlank = true)
    (hdeeper : level < pad.level) : Pads level [pad] :=
  ⟨List.forall_mem_singleton.mpr hblank, List.forall_mem_singleton.mpr hdeeper⟩

variable {lines lines' : List Line}

theorem Padded.keep (line : Line) (h : Padded lines lines') :
    Padded (line :: lines) (line :: lines') :=
  .cons (pads_nil line.level) h

theorem Padded.refl (lines : List Line) : Padded lines lines := by
  induction lines with
  | nil => exact .nil
  | cons line rest ih => exact ih.keep line

theorem Padded.prepend (first : List Line) (h : Padded lines lines') :
    Padded (first ++ lines) (first ++ lines') := by
  induction first with
  | nil => exact h
  | cons line first ih => exact ih.keep line

/-- The block of a directive and the lines after it are padded where the lines are. -/
theorem Padded.block (h : Padded lines lines') (level : Nat) :
    Padded (block level lines) (block level lines') ∧
      Padded (afterBlock level lines) (afterBlock level lines') := by
  induction h with
  | nil => exact ⟨.nil, .nil⟩
  | @cons line pads rest rest' hpads hrest ih =>
      by_cases hl : level < line.level
      · -- the new lines are deeper than the line, and in the block with it
        have hdeeper := (hpads.mono (Nat.le_of_lt hl)).deeper
        have hblock (more : List Line) : Line.block level (line :: more) =
            line :: Line.block level more := List.takeWhile_cons_of_pos (decide_eq_true hl)
        have hafter (more : List Line) : afterBlock level (line :: more) =
            afterBlock level more := List.dropWhile_cons_of_pos (decide_eq_true hl)
        rw [hblock, hblock, hafter, hafter, block_pads hdeeper, afterBlock_pads hdeeper]
        exact ⟨.cons hpads ih.1, ih.2⟩
      · have hblock (more : List Line) : Line.block level (line :: more) = [] :=
          List.takeWhile_cons_of_neg (by simpa using hl)
        have hafter (more : List Line) : afterBlock level (line :: more) = line :: more :=
          List.dropWhile_cons_of_neg (by simpa using hl)
        rw [hblock, hblock, hafter, hafter]
        exact ⟨.nil, .cons hpads hrest⟩

/-- The block of an `@else` is padded behind the new lines that follow the `@else`, and so are the
lines after it. -/
theorem Padded.elseBlock (h : Padded lines lines') (level : Nat) :
    (∃ pads inner, Pads level pads ∧ elseBlock level lines' = pads ++ inner ∧
        Padded (elseBlock level lines) inner) ∧
      Padded (afterElse level lines) (afterElse level lines') := by
  cases h with
  | nil => exact ⟨⟨[], [], pads_nil level, rfl, .nil⟩, .nil⟩
  | @cons line pads rest rest' hpads hrest =>
      rw [Script.elseBlock, Script.elseBlock, afterElse, afterElse]
      split
      · next ho =>
          have hlevel : line.level = level := by
            rw [Script.isOtherwise, Bool.and_eq_true] at ho
            exact of_decide_eq_true ho.1
          rw [hlevel] at hpads
          obtain ⟨hblock, hafter⟩ := hrest.block level
          rw [block_pads hpads.deeper, afterBlock_pads hpads.deeper]
          exact ⟨⟨pads, _, hpads, rfl, hblock⟩, hafter⟩
      · exact ⟨⟨[], [], pads_nil level, rfl, .nil⟩, .cons hpads hrest⟩

/-- **Padded lists have one script.** -/
theorem Padded.ofLines_eq (h : Padded lines lines') : ofLines lines' = ofLines lines := by
  fun_induction ofLines lines generalizing lines' with
  | case1 =>
      cases h
      rw [ofLines]
  | case2 line rest _ _ _ _ hb ih =>
      obtain _ | @⟨_, pads, _, rest', hpads, hrest⟩ := h
      rw [ofLines, if_pos hb, Script.ofLines_pads hpads.blank, ih hrest]
  | case3 line rest _ _ _ _ hb hs ih | case4 line rest _ _ _ _ hb hs ih
  | case5 line rest _ _ _ _ hb hs ih | case6 line rest _ _ _ _ hb _ hs ih
  | case7 line rest _ _ _ _ hb _ hs ih =>
      obtain _ | @⟨_, pads, _, rest', hpads, hrest⟩ := h
      have hafter := (Script.ofLines_pads hpads.blank rest').trans (ih hrest)
      rw [ofLines, if_neg hb, hs, ← hafter]
  | case8 line rest _ _ _ _ hb path hs ihYes ihNo ih =>
      obtain _ | @⟨_, pads, _, rest', hpads, hrest⟩ := h
      obtain ⟨hblock, hrest⟩ := hrest.block line.level
      obtain ⟨⟨pads', inner, hpads', heq, hinner⟩, hafter⟩ := hrest.elseBlock line.level
      have hyes := (Script.ofLines_pads hpads.blank _).trans (ihYes hblock)
      have hno := (Script.ofLines_pads hpads'.blank _).trans (ihNo hinner)
      rw [ofLines, if_neg hb, hs, block_pads hpads.deeper, afterBlock_pads hpads.deeper, heq, hyes,
        hno, ih hafter]
  | case9 line rest _ _ _ _ hb path name hs ihBody ih =>
      obtain _ | @⟨_, pads, _, rest', hpads, hrest⟩ := h
      obtain ⟨hblock, hafter⟩ := hrest.block line.level
      have hbody := (Script.ofLines_pads hpads.blank _).trans (ihBody hblock)
      rw [ofLines, if_neg hb, hs, block_pads hpads.deeper, afterBlock_pads hpads.deeper, hbody,
        ih hafter]

/-- A line is put in behind the last one of the first lines. -/
theorem padded_insert {pre : List Line} {last pad : Line} (hlast : pre.getLast? = some last)
    (hblank : pad.isBlank = true) (hdeeper : last.level < pad.level) (post : List Line) :
    Padded (pre ++ post) (pre ++ [pad] ++ post) := by
  obtain ⟨init, rfl⟩ := List.getLast?_eq_some_iff.mp hlast
  have h : Padded (last :: post) (last :: ([pad] ++ post)) :=
    .cons (pads_singleton hblank hdeeper) (.refl post)
  rw [List.append_assoc, List.append_assoc, List.append_assoc]
  exact h.prepend init

end Line

/-- Padded lists make one page of another, under any scope. -/
theorem Page.renderLines_padded {lines lines' : List Line} (h : Line.Padded lines lines')
    (page : Page) (scope : Scope) :
    page.renderLines scope lines' = page.renderLines scope lines := by
  rw [renderLines, renderLines, h.ofLines_eq]

/-- **Blank lines.**  A blank line that is deeper than the line before it is invisible: with it or
without it, lines render to the same HTML, and make the same page of any page under any scope. -/
theorem renderLines_insert_blank {pre : List Line} {last blank : Line}
    (hlast : pre.getLast? = some last) (hblank : blank.isBlank = true)
    (hdeeper : last.level < blank.level) (post : List Line) :
    (∀ data, renderLines data (pre ++ [blank] ++ post) = renderLines data (pre ++ post)) ∧
    ∀ (page : Page) (scope : Scope),
      page.renderLines scope (pre ++ [blank] ++ post) =
        page.renderLines scope (pre ++ post) := by
  have hpadded := Line.padded_insert hlast hblank hdeeper post
  refine ⟨fun data => ?_, Page.renderLines_padded hpadded⟩
  rw [renderLines, renderLines, Page.renderLines_padded hpadded]

/-- A blank line as the only one of a block, with the `@else` behind it. -/
theorem renderLines_insert_blank_before_else :
    ∃ (pre post : List Line) (last blank : Line) (data : Data),
      pre.getLast? = some last ∧ blank.isBlank = true ∧ last.level < blank.level ∧
      pre = ["ul".toList, "  @if no".toList] ∧ blank = "    \t".toList ∧
      post = ["  @else".toList, "    li #\x7bx\x7d".toList] ∧
      renderLines data (pre ++ [blank] ++ post) = renderLines data (pre ++ post) ∧
      renderLines data (pre ++ post) = "<ul>\n<li>1\n</li>\n</ul>\n".toList := by
  let pre : List Line := ["ul".toList, "  @if no".toList]
  let post : List Line := ["  @else".toList, "    li #\x7bx\x7d".toList]
  let data : Data := [("x".toList, .text "1".toList)]
  have hlast : pre.getLast? = some "  @if no".toList := rfl
  have hblank : Line.isBlank "    \t".toList = true := rfl
  have hdeeper : Line.level "  @if no".toList < Line.level "    \t".toList := by decide
  exact ⟨pre, post, _, _, data, hlast, hblank, hdeeper, rfl, rfl, rfl,
    (renderLines_insert_blank hlast hblank hdeeper post).1 data, by decide +kernel⟩

/-- A blank line that is not deeper ends the block of the directive before it. -/
example : renderLines [] ["@if x".toList, "".toList, "  p".toList] ≠
    renderLines [] ["@if x".toList, "  p".toList] := by
  decide +kernel

end IndentHtml
