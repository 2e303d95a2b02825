import IndentHtml.Proofs.Indentation
import IndentHtml.Proofs.Printing
import Mathlib.Data.List.TFAE
import Mathlib.Tactic.TFAE

/-!
# Margins of include lines

Every line of an included template is put behind the margin of the include line.  The margin may
hold other blank characters than spaces, but only spaces make a level, and only two at a time.

**Margins that nest** (`renderLines_margin_tfae`).  A margin leaves the HTML of all templates as it
is exactly when it is an even number of spaces.  Then, and only then, the level of an included line
is its own level and that of the margin, and an include line stands for its target as it is.

An odd space is worth nothing in front of one line and a level in front of another, so siblings
become nested.  Any other character ends the count of spaces, so that all lines are at the level of
the margin and nested lines become siblings.  Two lines are enough to see either
(`exists_renderLines_margin_ne`).
-/

namespace IndentHtml

/-! ### Levels behind a margin -/

namespace Line

variable {w : Text}

theorem indent_append (hw : ∀ c ∈ w, c = ' ') (line : Line) :
    Line.indent (w ++ line) = w.length + line.indent := by
  rw [indent, indent, List.takeWhile_append_of_pos fun c hc => decide_eq_true (hw c hc),
    List.length_append]

theorem level_eq (line : Line) : line.level = line.indent / 2 := rfl

/-- A character that is no space ends the count of spaces in front of every line. -/
theorem indent_append_of_not_space (h : ¬ ∀ c ∈ w, c = ' ') (line : Line) :
    Line.indent (w ++ line) = Line.indent w := by
  have hstops : (w.takeWhile (· = ' ')).length ≠ w.length := by
    intro hlength
    have hall := List.takeWhile_eq_self_iff.mp ((List.takeWhile_sublist _).eq_of_length hlength)
    exact h fun c hc => of_decide_eq_true (hall c hc)
  rw [indent, indent, List.takeWhile_append, if_neg hstops]

/-- Whole levels of spaces add up with the level of a line. -/
theorem level_append_of_even (hw : ∀ c ∈ w, c = ' ') (heven : Even w.length) (line : Line) :
    Line.level (w ++ line) = Line.level w + line.level := by
  have hmargin := indent_append hw []
  rw [List.append_nil] at hmargin
  obtain ⟨k, hk⟩ := heven
  rw [level_eq, level_eq, level_eq, indent_append hw, hmargin]
  show (w.length + line.indent) / 2 = (w.length + 0) / 2 + line.indent / 2
  omega

theorem margin_append {line : Line} (hw : ∀ c ∈ w, Text.isMargin c = true) :
    Line.margin (w ++ line) = w ++ line.margin :=
  List.takeWhile_append_of_pos hw

end Line

/-! ### Two lines of one content -/

section

variable {line next line' next' : Line}

/-- Two lines render by how much deeper the second one is. -/
theorem renderLines_pair (hline : line.content = ['p']) (hnext : next.content = ['p']) {count : Nat}
    (h : next.level = line.level + count) (data : Data) :
    renderLines data [line, next] = renderLines data [['p'], Line.shift (2 * count) ['p']] := by
  have hshift := Line.relevels_shift count ['p']
  refine renderLines_of_relevels (f := (line.level + ·))
    (fun _ _ hlt => Nat.add_lt_add_left hlt line.level) ?_ data
  refine .cons ⟨hline, rfl⟩ (.cons ⟨hnext.trans hshift.content.symm, ?_⟩ .nil)
  rw [hshift.level, h]
  rfl

/-- Siblings do not render as nested lines do. -/
theorem renderLines_siblings_ne_nested (hline : line.content = ['p']) (hnext : next.content = ['p'])
    (h : next.level = line.level) (hline' : line'.content = ['p'])
    (hnext' : next'.content = ['p']) (h' : next'.level = line'.level + 1) :
    renderLines [] [line, next] ≠ renderLines [] [line', next'] := by
  have hne : renderLines [] [['p'], Line.shift (2 * 0) ['p']] ≠
      renderLines [] [['p'], Line.shift (2 * 1) ['p']] := by decide +kernel
  rwa [renderLines_pair hline hnext (h.trans (Nat.add_zero _).symm),
    renderLines_pair hline' hnext' h']

end

/-- **A margin that is no even number of spaces** changes the HTML of a template. -/
theorem exists_renderLines_margin_ne {w : Text} (hw : ∀ c ∈ w, Text.isMargin c = true)
    (h : ¬ ((∀ c ∈ w, c = ' ') ∧ Even w.length)) :
    ∃ content, (∀ line ∈ Text.lines content, Line.Printable line) ∧
      renderLines [] ((Text.lines content).map (w ++ ·)) ≠
        renderLines [] (Text.lines content) := by
  have hcontent := Line.content_append hw
  by_cases hspace : ∀ c ∈ w, c = ' '
  · -- an odd number of spaces makes a level of the single space of the second line
    have hlines : Text.lines "p\n p".toList = [['p'], [' ', 'p']] := by decide
    have hlevel : Line.level (w ++ [' ', 'p']) = Line.level (w ++ ['p']) + 1 := by
      have hodd := Nat.not_even_iff.mp fun heven => h ⟨hspace, heven⟩
      rw [Line.level_eq, Line.level_eq, Line.indent_append hspace, Line.indent_append hspace]
      show (w.length + 1) / 2 = (w.length + 0) / 2 + 1
      omega
    refine ⟨"p\n p".toList, ?_, ?_⟩
    · rw [hlines]
      exact List.forall_mem_cons.mpr
        ⟨⟨by decide, by decide⟩, List.forall_mem_singleton.mpr ⟨by decide, by decide⟩⟩
    · rw [hlines]
      refine Ne.symm (renderLines_siblings_ne_nested ?_ ?_ ?_ (hcontent ['p'])
        (hcontent [' ', 'p']) hlevel)
      · rfl
      · rfl
      · rfl
  · -- any other character leaves no level to the second line
    have hlines : Text.lines "p\n  p".toList = [['p'], "  p".toList] := by decide
    have hlevel : Line.level (w ++ "  p".toList) = Line.level (w ++ ['p']) := by
      rw [Line.level_eq, Line.level_eq, Line.indent_append_of_not_space hspace,
        Line.indent_append_of_not_space hspace]
    refine ⟨"p\n  p".toList, ?_, ?_⟩
    · rw [hlines]
      exact List.forall_mem_cons.mpr
        ⟨⟨by decide, by decide⟩, List.forall_mem_singleton.mpr ⟨by decide, by decide⟩⟩
    · rw [hlines]
      exact renderLines_siblings_ne_nested (hcontent ['p']) (hcontent "  p".toList) hlevel rfl rfl
        rfl

/-! ### Include lines -/

namespace Source

variable {source : Source} {base : Path} {line : Line} {target content : Text} {depth : Nat}
  {chain : List Path} {out : List Line}

/-- What is clear below open templates is clear below fewer of them. -/
theorem Clear.mono {chain' : List Path} {depth' : Nat} {trail : List Path}
    (h : source.Clear chain depth trail) (hchain : chain' ⊆ chain) (hdepth : depth' ≤ depth) :
    source.Clear chain' depth' trail := by
  refine ⟨h.exist, h.readable, fun path hpath canonical hcanonical => ?_, h.distinct, ?_⟩
  · exact h.offChain path hpath canonical (hchain hcanonical)
  · have hshort := h.short
    omega

/-- An include line is expanded to the expansion of its target behind its margin. -/
theorem expandIncludes_include (hinclude : Directive.include? line.content = some target)
    (hread : source.read (base.target target) = .ok content)
    (h : (source.expandIncludes [line] base depth chain).result = .ok out) :
    ∃ own, (source.expandIncludes (Text.lines content) ((base.target target).parent?.getD base) 0
        [source.canonical (base.target target)]).result = .ok own ∧
      out = own.map (line.margin ++ ·) := by
  have hbudget : maxIncludeDepth + 1 - depth + depth = maxIncludeDepth + 1 := by
    by_contra hdeep
    have hzero : maxIncludeDepth + 1 - depth = 0 := by omega
    rw [expandIncludes, hzero] at h
    cases h
  obtain ⟨-, hclear⟩ := (exists_expandWithin_eq_ok hbudget _ _ _).mp ⟨out, h⟩
  obtain ⟨-, -, content', hread', -, htrails⟩ :=
    forall_clear_iff.mp hclear line List.mem_cons_self target hinclude
  obtain rfl := Except.ok.inj (hread.symm.trans hread')
  -- on its own the target is less deep and has fewer templates above it
  have hstart : maxIncludeDepth + 1 - 0 + 0 = maxIncludeDepth + 1 := rfl
  obtain ⟨own, hown⟩ := (exists_expandWithin_eq_ok hstart _ _
      [source.canonical (base.target target)]).mpr ⟨Nat.zero_le _, fun trail htrail =>
    (htrails trail htrail).mono (List.subset_append_right _ _) (Nat.zero_le _)⟩
  have hindent := (unfolds_of_expandWithin hown).indent line.margin
  rw [List.append_nil] at hindent
  have hunfolds : source.Unfolds [] [line] base (own.map (line.margin ++ ·) ++ []) :=
    .enter hinclude hread hindent (.nil [] base)
  rw [List.append_nil] at hunfolds
  exact ⟨own, hown, hunfolds.unique (unfolds_of_expandWithin h)⟩

theorem expandIncludes_of_printable {lines : List Line} (h : ∀ line ∈ lines, line.Printable)
    (base : Path) (chain : List Path) :
    (source.expandIncludes lines base 0 chain).result = .ok lines :=
  expandWith_of_printable _ base chain h

section

variable {w : Text} (hw : ∀ c ∈ w, Text.isMargin c = true)

include hw

theorem margin_include : Line.margin (w ++ "@include 'a'".toList) = w :=
  (Line.margin_append hw).trans (List.append_nil w)

theorem include?_include :
    Directive.include? (Line.content (w ++ "@include 'a'".toList)) = some ['a'] := by
  rw [Line.content_append hw]
  decide

/-- A store with one template, and an include line for it. -/
theorem expandIncludes_single (hcontent : ∀ line ∈ Text.lines content, Line.Printable line) :
    ((Store.empty.add (Path.ofString "a") content).source.expandIncludes
      [w ++ "@include 'a'".toList] Path.empty 0 []).result =
        .ok ((Text.lines content).map (w ++ ·)) := by
  refine (expandWith_include_eq_ok (include?_include hw)).mpr
    ⟨_, Text.lines content, [], openTarget_eq_ok.mpr ⟨rfl, ?_, content, rfl, rfl⟩,
      expandWith_of_printable _ _ _ hcontent, rfl, ?_⟩
  · exact fun _ h => absurd h List.not_mem_nil
  · rw [margin_include hw, List.append_nil]

end

end Source

/-- **Margins that nest.**  A margin is an even number of spaces exactly when it adds its level to
that of every line, exactly when all files, and all lists of lines, have the same HTML with it in
front of every line as they have without it, and exactly when an include line behind it stands for
the HTML of its target. -/
theorem renderLines_margin_tfae {w : Text} (hw : ∀ c ∈ w, Text.isMargin c = true) :
    List.TFAE [
      (∀ c ∈ w, c = ' ') ∧ Even w.length,
      ∀ line : Line, Line.level (w ++ line) = Line.level w + line.level,
      ∀ (content : Text) (data : Data),
        renderLines data ((Text.lines content).map (w ++ ·)) =
          renderLines data (Text.lines content),
      ∀ (lines : List Line) (data : Data),
        renderLines data (lines.map (w ++ ·)) = renderLines data lines,
      ∀ (source : Source) (base : Path) (depth : Nat) (chain : List Path) (line : Line)
        (target content : Text) (data : Data) (html : Text),
        line.margin = w → Directive.include? line.content = some target →
        source.read (base.target target) = .ok content →
        (source.expandIncludes [line] base depth chain).result.map (renderLines data) = .ok html →
          (source.expandIncludes (Text.lines content) ((base.target target).parent?.getD base) 0
            [source.canonical (base.target target)]).result.map (renderLines data) = .ok html] := by
  tfae_have 1 → 2 := fun ⟨hspace, heven⟩ => Line.level_append_of_even hspace heven
  tfae_have 2 → 4 := by
    intro hlevel lines data
    refine renderLines_of_relevels (f := (Line.level w + ·))
      (fun _ _ hlt => Nat.add_lt_add_left hlt _) ?_ data
    exact List.forall₂_map_right_iff.mpr (List.forall₂_same.mpr fun line _ =>
      ⟨Line.content_append hw line, hlevel line⟩)
  tfae_have 4 → 3 := fun h content => h (Text.lines content)
  tfae_have 3 → 1 := by
    intro h
    by_contra hnot
    obtain ⟨content, -, hne⟩ := exists_renderLines_margin_ne hw hnot
    exact hne (h content [])
  tfae_have 4 → 5 := by
    rintro h source base depth chain line target content data html rfl hinclude hread hhtml
    cases hout : (source.expandIncludes [line] base depth chain).result with
    | error e =>
        rw [hout] at hhtml
        cases hhtml
    | ok out =>
        obtain ⟨own, hown, rfl⟩ := Source.expandIncludes_include hinclude hread hout
        rw [hout, Except.map, h] at hhtml
        rw [hown]
        exact hhtml
  tfae_have 5 → 1 := by
    intro h
    by_contra hnot
    obtain ⟨content, hcontent, hne⟩ := exists_renderLines_margin_ne hw hnot
    have hbehind := congrArg (Except.map (renderLines []))
      (Source.expandIncludes_single hw hcontent)
    have hown := h _ _ _ _ _ _ _ _ _ (Source.margin_include hw) (Source.include?_include hw) rfl
      hbehind
    rw [Source.expandIncludes_of_printable hcontent] at hown
    exact hne (Except.ok.inj hown).symm
  tfae_finish

/-- Two spaces nest every template as it is, and a tab does not. -/
theorem renderLines_margin_two_spaces_tab :
    (∀ (lines : List Line) (data : Data),
      renderLines data (lines.map ("  ".toList ++ ·)) = renderLines data lines) ∧
    ¬ ∀ (content : Text) (data : Data),
      renderLines data ((Text.lines content).map (['\t'] ++ ·)) =
        renderLines data (Text.lines content) := by
  constructor
  · have hmargin : ∀ c ∈ "  ".toList, Text.isMargin c = true := List.all_eq_true.mp (by decide)
    have hspace : ∀ c ∈ "  ".toList, c = ' ' := fun c hc =>
      of_decide_eq_true (List.all_eq_true.mp (show "  ".toList.all (· = ' ') by decide) c hc)
    have heven : Even "  ".toList.length := ⟨1, rfl⟩
    exact ((renderLines_margin_tfae hmargin).out 0 3).mp (And.intro hspace heven)
  · intro h
    have hmargin : ∀ c ∈ ['\t'], Text.isMargin c = true := List.forall_mem_singleton.mpr rfl
    have hspaces := ((renderLines_margin_tfae hmargin).out 0 2).mpr h
    exact absurd (hspaces.1 '\t' List.mem_cons_self) (by decide)

end IndentHtml
