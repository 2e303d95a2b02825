import IndentHtml.Proofs.Append
import IndentHtml.Proofs.Idempotence

/-!
# Printed expansions

The lines of an expansion can be printed and read again.  They hold no line feed, and none of them
is an include line, whatever margins were put in front of them (`Source.Unfolds.printable`).  So a
second expansion leaves them as they are, from any source and in any directory, and a text with such
lines renders to one HTML (`RendersTo`).

Reading takes a carriage return from the end of a line, and takes no notice of an empty line at the
end of the text (`Text.lines_unlines`).  Where no line ends in a carriage return, only an empty
last line may be lost, and that one renders to nothing (`renderLines_append_empty`).

**Printing** (`Source.render_eq_renderText_unlines`).  The printed expansion of a template renders
as a text to the HTML of the template.  The source that the text is given to may change while it is
being asked, since it is not asked anything.
-/

namespace IndentHtml

/-! ### Lines of a joined text -/

namespace Text

/-- The parts of a text are its lines, but for an empty last one. -/
theorem lines_of_splitOn {t last : Text} {parts : List Text}
    (h : List.splitOn '\n' t = parts ++ [last]) :
    lines t = parts.map chomp ++ if last.isEmpty then [] else [last] := by
  simp only [lines, h, List.dropLast_concat, List.getLastD_concat]

theorem exists_lines_eq (t : Text) :
    ∃ parts last, List.splitOn '\n' t = parts ++ [last] ∧
      lines t = parts.map chomp ++ if last.isEmpty then [] else [last] := by
  rcases List.eq_nil_or_concat (List.splitOn '\n' t) with h | ⟨parts, last, h⟩
  · exact absurd h (List.splitOn_ne_nil '\n' t)
  · rw [List.concat_eq_append] at h
    exact ⟨parts, last, h, lines_of_splitOn h⟩

theorem chomp_subset (line : Text) : chomp line ⊆ line := by
  unfold chomp
  split
  · exact List.dropLast_subset _
  · exact List.Subset.refl _

theorem feed_not_mem_lines {t line : Text} (h : line ∈ lines t) : '\n' ∉ line := by
  obtain ⟨parts, last, hparts, hlines⟩ := exists_lines_eq t
  have hfree : ∀ part ∈ parts ++ [last], '\n' ∉ part := by
    intro part hpart hmem
    exact (mem_of_mem_splitOn (hparts ▸ hpart) hmem).2 rfl
  rw [hlines] at h
  rcases List.mem_append.mp h with h | h
  · obtain ⟨part, hpart, rfl⟩ := List.mem_map.mp h
    intro hmem
    exact hfree part (List.mem_append_left _ hpart) (chomp_subset part hmem)
  · split at h
    · cases h
    · obtain rfl := List.mem_singleton.mp h
      exact hfree line (List.mem_append_right _ List.mem_cons_self)

theorem chomp_of_ne {line : Text} (h : line.getLast? ≠ some '\r') : chomp line = line := by
  unfold chomp
  split
  · next hreturn => exact absurd hreturn h
  · rfl

theorem map_chomp {ls : List Text} (h : ∀ line ∈ ls, line.getLast? ≠ some '\r') :
    ls.map chomp = ls := by
  rw [List.map_congr_left fun line hline => chomp_of_ne (h line hline), List.map_id']

section Joined

variable {ls : List Text} (hfeed : ∀ line ∈ ls, '\n' ∉ line)
  (hreturn : ∀ line ∈ ls, line.getLast? ≠ some '\r')

include hfeed hreturn

/-- **Joined lines are read back**, but for an empty one at the end. -/
theorem lines_unlines : lines (unlines ls) = ls ∨ lines (unlines ls) ++ [[]] = ls := by
  rcases List.eq_nil_or_concat ls with rfl | ⟨init, last, rfl⟩
  · exact .inl rfl
  · rw [List.concat_eq_append] at hfeed hreturn ⊢
    have hsplit := List.splitOn_intercalate '\n' hfeed
      (List.append_ne_nil_of_right_ne_nil init (List.cons_ne_nil last []))
    rw [unlines, lines_of_splitOn hsplit,
      map_chomp fun line hline => hreturn line (List.mem_append_left _ hline)]
    split
    · next hempty =>
        rw [List.isEmpty_iff.mp hempty, List.append_nil]
        exact .inr rfl
    · exact .inl rfl

/-- Lines that are all ended by a line feed are read back. -/
theorem lines_unlines_append (hne : ls ≠ []) : lines (unlines ls ++ ['\n']) = ls := by
  have hsplit : List.splitOn '\n' (unlines ls ++ ['\n']) = ls ++ [[]] := by
    rw [unlines, List.splitOn_append_cons_self, List.splitOn_intercalate '\n' hfeed hne]
    rfl
  rw [lines_of_splitOn hsplit, map_chomp hreturn]
  exact List.append_nil ls

end Joined

end Text

/-! ### Lines of an expansion -/

/-- Holds of a line that is printed on one line and is no include line. -/
structure Line.Printable (line : Line) : Prop where
  unbroken : '\n' ∉ line
  plain : Directive.include? line.content = none

namespace Source

variable {source : Source}

/-- **The lines of an unfolding are printable.** -/
theorem Unfolds.printable {margin : Text} {lines out : List Line} {base : Path}
    (h : source.Unfolds margin lines base out) (hmargin : ∀ c ∈ margin, Text.isMargin c = true)
    (hfeed : '\n' ∉ margin) (hlines : ∀ line ∈ lines, '\n' ∉ line) :
    ∀ line ∈ out, line.Printable := by
  induction h with
  | nil margin base =>
      intro line h
      exact absurd h List.not_mem_nil
  | @plain margin base line rest out hline _ ih =>
      obtain ⟨hfree, hrest⟩ := List.forall_mem_cons.mp hlines
      refine List.forall_mem_cons.mpr ⟨⟨fun hmem => ?_, ?_⟩, ih hmargin hfeed hrest⟩
      · exact (List.mem_append.mp hmem).elim hfeed hfree
      · rw [Line.content_append hmargin]
        exact hline
  | @enter margin base line target content rest inner out hline hread _ _ ihInner ihRest =>
      obtain ⟨hfree, hrest⟩ := List.forall_mem_cons.mp hlines
      -- the lines of the target stand behind the margin of the include line too
      have hinner := ihInner
        (fun c hc => (List.mem_append.mp hc).elim (hmargin c) Line.isMargin_of_mem_margin)
        (fun hmem => (List.mem_append.mp hmem).elim hfeed fun h =>
          hfree ((List.takeWhile_sublist _).subset h))
        (fun line => Text.feed_not_mem_lines)
      exact List.forall_mem_append.mpr ⟨hinner, ihRest hmargin hfeed hrest⟩

theorem expandWith_of_printable (enter : List Line → Path → List Path → Expansion) (base : Path)
    (chain : List Path) {lines : List Line} (h : ∀ line ∈ lines, line.Printable) :
    (source.expandWith enter base chain lines).result = .ok lines :=
  congrArg Expansion.result
    (expandWith_of_withoutIncludes enter base chain fun line hline => (h line hline).plain)

theorem exists_lines_of_loadLines {path : Path} {lines : List Line}
    (h : source.loadLines path = .ok lines) : ∃ t, lines = Text.lines t := by
  rw [loadLines] at h
  split at h
  · split at h
    · next t _ => exact ⟨t, (Except.ok.inj h).symm⟩
    · cases h
  · cases h

/-- The lines of an expansion are printable. -/
theorem printable_of_expand {path : Path} {ls : List Line} (h : source.expand path = .ok ls) :
    ∀ line ∈ ls, line.Printable := by
  rw [expand] at h
  split at h
  · cases h
  · next lines hload =>
      obtain ⟨t, rfl⟩ := exists_lines_of_loadLines hload
      have hunfolds := unfolds_of_expandWithin h
      exact hunfolds.printable (fun c hc => absurd hc List.not_mem_nil) List.not_mem_nil
        fun line => Text.feed_not_mem_lines

end Source

/-! ### Rendering -/

/-- An empty line at the end renders to nothing. -/
theorem renderLines_append_empty (data : Data) (lines : List Line) :
    renderLines data (lines ++ [[]]) = renderLines data lines := by
  have hcut : Line.Cut lines [[]] := by
    intro line _ _ next hnext
    obtain rfl := Option.some.inj hnext
    exact ⟨Nat.zero_le _, by
      simp [Script.isOtherwise, Line.content, Text.trimLeft, Directive.otherwise]⟩
  have hdone : Script.ofLines [[]] = .done := by
    rw [Script.ofLines, if_pos (show Line.isBlank [] = true from rfl), Script.ofLines]
  rw [renderLines, renderLines, Page.renderLines, Page.renderLines, Script.run_ofLines_append hcut,
    hdone, Script.run, Walk.andThen_idle]

/-- Holds of a text that renders to one HTML, whatever the source and the directory are.  A source
that may change is left in the state that it is in. -/
structure RendersTo (t : Text) (data : Data) (html : Text) : Prop where
  steady : ∀ (source : Source) (base : Path), source.renderText t base data = .ok html
  changing : ∀ (σ : Type) (source : ChangingSource σ) (state : σ) (base : Path),
    (source.renderText t base data).run state = (.ok html, state)

theorem WithoutIncludes.rendersTo {t : Text} (h : WithoutIncludes (Text.lines t)) (data : Data) :
    RendersTo t data (renderLines data (Text.lines t)) where
  steady source base := by
    rw [Source.renderText, h.expanded.again source base 0 [] (Nat.zero_le _)]
    rfl
  changing σ source state base := by
    have hrun := h.expanded.againChanging σ source state base 0 [] (Nat.zero_le _)
    rw [ChangingSource.renderText, ChangingSource.run_bind_of_eq hrun]
    rfl

/-- A text that is read as lines without includes, but for an empty one at the end, renders as they
do. -/
theorem WithoutIncludes.rendersTo_of_lines {t : Text} {ls : List Line} (h : WithoutIncludes ls)
    (hread : Text.lines t = ls ∨ Text.lines t ++ [[]] = ls ∨ Text.lines t = ls ++ [[]])
    (data : Data) : RendersTo t data (renderLines data ls) := by
  rcases hread with hread | hread | hread
  · subst hread
    exact h.rendersTo data
  · subst hread
    rw [renderLines_append_empty]
    exact WithoutIncludes.rendersTo (List.forall_mem_append.mp h).1 data
  · have hread_plain : WithoutIncludes (Text.lines t) := by
      rw [hread]
      exact List.forall_mem_append.mpr ⟨h, List.forall_mem_singleton.mpr rfl⟩
    rw [← renderLines_append_empty, ← hread]
    exact hread_plain.rendersTo data

namespace Source

variable {source : Source} {ls : List Line}

/-- **Printing.**  A template whose expansion has no line that ends in a carriage return renders to
the HTML of its printed expansion, which is read from any source and in any directory, with or
without a line feed at its end. -/
theorem render_eq_renderText_unlines {path : Path} (hexpand : source.expand path = .ok ls)
    (hreturn : ∀ line ∈ ls, line.getLast? ≠ some '\r') (data : Data) :
    ∃ html, source.render path data = .ok html ∧ RendersTo (Text.unlines ls) data html ∧
      RendersTo (Text.unlines ls ++ ['\n']) data html := by
  have hprintable := printable_of_expand hexpand
  have hfeed : ∀ line ∈ ls, '\n' ∉ line := fun line hline => (hprintable line hline).unbroken
  have hplain : WithoutIncludes ls := fun line hline => (hprintable line hline).plain
  have hread := Text.lines_unlines hfeed hreturn
  have hreadEnded : Text.lines (Text.unlines ls ++ ['\n']) = ls ∨
      Text.lines (Text.unlines ls ++ ['\n']) = ls ++ [[]] := by
    cases ls with
    | nil => exact .inr rfl
    | cons line rest => exact .inl (Text.lines_unlines_append hfeed hreturn (List.cons_ne_nil _ _))
  refine ⟨renderLines data ls, ?_, hplain.rendersTo_of_lines ?_ data,
    hplain.rendersTo_of_lines ?_ data⟩
  · rw [render, hexpand]
    rfl
  · exact hread.imp_right .inl
  · exact hreadEnded.imp_right .inr

/-- An expansion that ends in an empty line, printed and read by a source that has no templates and
by one that changes. -/
theorem render_eq_renderText_unlines_of_empty_end :
    ∃ (source : Source) (path : Path) (html : Text),
      source.expand path = .ok ["ul".toList, "  li #\x7bx\x7d".toList, []] ∧
      Text.lines (Text.unlines ["ul".toList, "  li #\x7bx\x7d".toList, []]) =
        ["ul".toList, "  li #\x7bx\x7d".toList] ∧
      source.render path [("x".toList, .text "1".toList)] = .ok html ∧
      Store.empty.source.renderText (Text.unlines ["ul".toList, "  li #\x7bx\x7d".toList, []])
        (Path.ofString "b") [("x".toList, .text "1".toList)] = .ok html ∧
      (ChangingSource.growing.renderText
        (Text.unlines ["ul".toList, "  li #\x7bx\x7d".toList, []]) (Path.ofString "b")
        [("x".toList, .text "1".toList)]).run 0 = (.ok html, 0) := by
  let store := (Store.empty.add (Path.ofString "a") "ul\n  @include 'b'\n\n".toList).add
    (Path.ofString "b") "li #\x7bx\x7d".toList
  have hexpand : store.source.expand (Path.ofString "a") =
      .ok ["ul".toList, "  li #\x7bx\x7d".toList, []] := by rfl
  obtain ⟨html, hrender, hprinted, -⟩ := render_eq_renderText_unlines hexpand (by decide +kernel)
    [("x".toList, .text "1".toList)]
  exact ⟨store.source, Path.ofString "a", html, hexpand, by decide +kernel, hrender,
    hprinted.steady Store.empty.source (Path.ofString "b"),
    hprinted.changing Nat ChangingSource.growing 0 (Path.ofString "b")⟩

end Source

end IndentHtml
