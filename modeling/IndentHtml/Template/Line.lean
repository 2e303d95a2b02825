import IndentHtml.Text.Basic

/-!
# Lines of a template

The level of a line is half the number of its leading space characters, rounded down; a tab or any
other character ends the count.  The content of a line is what is left after the margin on its
left.
-/

namespace IndentHtml

/-- A line of a template as it was written. -/
abbrev Line := Text

namespace Line

/-- The nesting level of a line. -/
def level (line : Line) : Nat :=
  (line.takeWhile (· = ' ')).length / 2

/-- The line without its left margin. -/
def content (line : Line) : Text :=
  Text.trimLeft line

/-- The left margin of a line. -/
def margin (line : Line) : Text :=
  line.takeWhile Text.isMargin

/-- Holds of a line that is all margin. -/
def isBlank (line : Line) : Bool :=
  Text.isBlank line

/-- The lines at the head of a list that are deeper than a level. -/
def block (level : Nat) (lines : List Line) : List Line :=
  lines.takeWhile fun line => decide (level < Line.level line)

/-- The lines after the block at the head of a list. -/
def afterBlock (level : Nat) (lines : List Line) : List Line :=
  lines.dropWhile fun line => decide (level < Line.level line)

theorem length_block_le (level : Nat) (lines : List Line) :
    (block level lines).length ≤ lines.length :=
  (List.takeWhile_sublist _).length_le

theorem length_afterBlock_le (level : Nat) (lines : List Line) :
    (afterBlock level lines).length ≤ lines.length :=
  (List.dropWhile_sublist _).length_le

end Line

end IndentHtml
