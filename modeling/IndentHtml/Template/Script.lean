import IndentHtml.Template.Directive

/-!
# Scripts

A script is what the lines of a template ask for, in order.  Blank lines are gone, every directive
holds the script of its block, and every step knows the level of its line.  The script of a list
of lines does not depend on any data.

The block of a directive is the run of deeper lines after it, blank lines counted by their own
leading spaces.  An `@else` directly after the block of an `@if` at the same level brings a second
block.
-/

namespace IndentHtml

/-- What the lines of a template ask for. -/
inductive Script where
  | done
  /-- A line that writes nothing itself. -/
  | skip (level : Nat) (rest : Script)
  | doctype (level : Nat) (rest : Script)
  | text (level : Nat) (content : Text) (rest : Script)
  | element (level : Nat) (element : Element) (rest : Script)
  | choice (level : Nat) (path : Text) (yes no rest : Script)
  | loop (level : Nat) (path name : Text) (body rest : Script)
  deriving DecidableEq, Repr

namespace Script

/-- Holds of the `@else` line of an `@if` at a level. -/
def isOtherwise (level : Nat) (line : Line) : Bool :=
  decide (line.level = level) && decide (line.content = Directive.otherwise)

/-- The block of the `@else` line that a list starts with; empty without such a line. -/
def elseBlock (level : Nat) : List Line → List Line
  | [] => []
  | line :: rest => if isOtherwise level line then Line.block level rest else []

/-- The lines after the `@else` line that a list starts with, and after its block. -/
def afterElse (level : Nat) : List Line → List Line
  | [] => []
  | line :: rest => if isOtherwise level line then Line.afterBlock level rest else line :: rest

theorem length_elseBlock_le (level : Nat) (lines : List Line) :
    (elseBlock level lines).length ≤ lines.length := by
  cases lines with
  | nil => exact Nat.le_refl _
  | cons line rest =>
      have := Line.length_block_le level rest
      simp only [elseBlock]
      split
      · simp only [List.length_cons]; omega
      · simp

theorem length_afterElse_le (level : Nat) (lines : List Line) :
    (afterElse level lines).length ≤ lines.length := by
  cases lines with
  | nil => exact Nat.le_refl _
  | cons line rest =>
      have := Line.length_afterBlock_le level rest
      simp only [afterElse]
      split
      · simp only [List.length_cons]; omega
      · exact Nat.le_refl _

/-- The script of a list of lines. -/
def ofLines : List Line → Script
  | [] => done
  | line :: rest =>
      have := Line.length_block_le line.level rest
      have := Line.length_afterBlock_le line.level rest
      have := length_elseBlock_le line.level (Line.afterBlock line.level rest)
      have := length_afterElse_le line.level (Line.afterBlock line.level rest)
      if line.isBlank then ofLines rest
      else
        match Statement.ofContent line.content with
        | .comment => skip line.level (ofLines rest)
        | .otherwise => skip line.level (ofLines rest)
        | .doctype => doctype line.level (ofLines rest)
        | .text content => text line.level content (ofLines rest)
        | .element e => element line.level e (ofLines rest)
        | .condition path =>
            choice line.level path (ofLines (Line.block line.level rest))
              (ofLines (elseBlock line.level (Line.afterBlock line.level rest)))
              (ofLines (afterElse line.level (Line.afterBlock line.level rest)))
        | .loop path name =>
            loop line.level path name (ofLines (Line.block line.level rest))
              (ofLines (Line.afterBlock line.level rest))
termination_by lines => lines.length
decreasing_by all_goals simp only [List.length_cons]; omega

end Script

end IndentHtml
