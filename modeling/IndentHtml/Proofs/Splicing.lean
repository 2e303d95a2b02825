import IndentHtml.Proofs.Margins
import IndentHtml.Proofs.Unfolding

/-!
# Spliced lines

An include line is replaced by the lines of its target, those of nested includes among them.  The
include lines that are met at any depth are `Unfolding.Includes`, each behind the margins of those
that lead to it.  A *site* (`Unfolding.Site`) is such a line in an unfolding, together with the
lines that are spliced in for it and the lines before and after these.  Two include lines with one
target are two sites, and what is spliced in for each is what the source gave when it was asked.

**Spliced lines** (`expandIncludes_spliced`).  The lines that are spliced in for an include line are
at its level or deeper, blank lines as well.  So their rendering leaves the tags below that level
alone, and when the include line is in the block of a directive, all of them are.  Nothing is asked
of the source for this; it may change from one question to the next.

Levels do not carry this through nested includes, since an odd space in front of two lines can tell
their levels apart.  The number of leading spaces does (`Line.indent_append_mono`): a margin of
spaces adds the same number to both lines, and in any other margin the count ends.
-/

namespace IndentHtml

open Html (Tag Token)

/-! ### Leading spaces -/

namespace Line

variable {w : Text} {line next : Line}

theorem level_le_of_indent_le (h : line.indent ≤ next.indent) : line.level ≤ next.level :=
  Nat.div_le_div_right h

/-- A margin in front of two lines keeps the order of their leading spaces. -/
theorem indent_append_mono (w : Text) (h : line.indent ≤ next.indent) :
    Line.indent (w ++ line) ≤ Line.indent (w ++ next) := by
  by_cases hspace : ∀ c ∈ w, c = ' '
  · rw [indent_append hspace, indent_append hspace]
    exact Nat.add_le_add_left h w.length
  · rw [indent_append_of_not_space hspace, indent_append_of_not_space hspace]

/-- The leading spaces of a line are all in its margin. -/
theorem indent_margin (line : Line) : Line.indent line.margin = line.indent := by
  rw [indent, indent, margin, List.takeWhile_takeWhile]
  congr 2
  funext c
  by_cases hc : c = ' '
  · simp [hc, Text.isMargin]
  · simp [hc]

/-- A line with a margin in front of it has the leading spaces of the margin at least. -/
theorem indent_le_of_prefix (h : w <+: line) : Line.indent w ≤ line.indent := by
  obtain ⟨t, rfl⟩ := h
  have hnone : indent [] ≤ indent t := Nat.zero_le _
  have hle := indent_append_mono w hnone
  rwa [List.append_nil] at hle

/-- A line that is spliced in has the leading spaces of the include line at least, since these are
all in the margin that it stands behind. -/
theorem indent_le_of_mem_spliced (line : Line) {lines : List Line} {l : Line}
    (h : l ∈ lines.map (line.margin ++ ·)) : line.indent ≤ l.indent := by
  obtain ⟨inner, -, rfl⟩ := List.mem_map.mp h
  rw [← line.indent_margin]
  exact indent_le_of_prefix (List.prefix_append line.margin inner)

end Line

/-! ### Levels of an unfolding -/

namespace Unfolding

variable {u : Unfolding} {line : Line} {before spliced after : List Line}

/-- A line of an unfolding has the leading spaces of the line it comes from at least. -/
theorem exists_indent_le (u : Unfolding) :
    ∀ l ∈ u.lines, ∃ line ∈ u.given, line.indent ≤ l.indent := by
  induction u with
  | nil => exact fun l hl => absurd hl List.not_mem_nil
  | plain line rest ih =>
      refine List.forall_mem_cons.mpr ⟨⟨line, List.mem_cons_self, Nat.le_refl _⟩, fun l hl => ?_⟩
      obtain ⟨next, hnext, hle⟩ := ih l hl
      exact ⟨next, List.mem_cons_of_mem line hnext, hle⟩
  | enter line target rest _ ih =>
      refine List.forall_mem_append.mpr ⟨fun l hl => ?_, fun l hl => ?_⟩
      · exact ⟨line, List.mem_cons_self, line.indent_le_of_mem_spliced hl⟩
      · obtain ⟨next, hnext, hle⟩ := ih l hl
        exact ⟨next, List.mem_cons_of_mem line hnext, hle⟩

/-- Lines that are all deeper than a level unfold to deeper lines. -/
theorem isDeeper {level : Nat} (h : ∀ line ∈ u.given, Outline.isDeeper level line = true) :
    ∀ l ∈ u.lines, Outline.isDeeper level l = true := by
  intro l hl
  obtain ⟨line, hline, hle⟩ := u.exists_indent_le l hl
  have hdeep := of_decide_eq_true (h line hline)
  exact decide_eq_true (Nat.lt_of_lt_of_le hdeep (Line.level_le_of_indent_le hle))

/-- What the block of a line unfolds to is at the head of its block in the unfolding. -/
theorem Resolved.exists_block {first rest : List Line} {directive : Line} (h : u.Resolved)
    (hgiven : u.given = first ++ directive :: rest)
    (hplain : Directive.include? directive.content = none) :
    ∃ v block w : Unfolding, u = v.append (plain directive (block.append w)) ∧ v.given = first ∧
      block.given = rest.takeWhile (Outline.isDeeper directive.level) ∧
      block.lines <+: (block.lines ++ w.lines).takeWhile (Outline.isDeeper directive.level) := by
  obtain ⟨v, more, rfl, hv, hmore⟩ := exists_eq_append hgiven
  cases more with
  | nil => cases hmore
  | enter line target w =>
      obtain ⟨rfl, -⟩ := List.cons.inj hmore
      obtain ⟨⟨text, hinclude⟩, -⟩ := (resolved_append.mp h).2
      rw [hplain] at hinclude
      cases hinclude
  | plain line w =>
      obtain ⟨rfl, hrest⟩ := List.cons.inj hmore
      rw [← List.takeWhile_append_dropWhile (p := Outline.isDeeper line.level) (l := rest)] at hrest
      obtain ⟨block, w, rfl, hblock, -⟩ := exists_eq_append hrest
      have hdeep : ∀ l ∈ block.lines, Outline.isDeeper line.level l = true := by
        refine isDeeper fun l hl => ?_
        rw [hblock] at hl
        exact List.mem_takeWhile_imp hl
      refine ⟨v, block, w, rfl, hv, hblock, ?_⟩
      rw [List.takeWhile_append_of_pos hdeep]
      exact List.prefix_append _ _

/-! ### Sites -/

/-- The include lines of an unfolding and of the targets in it, each behind the margins of those
that lead to it. -/
inductive Includes : Unfolding → Line → Prop where
  | here {u : Unfolding} {line : Line} {target : Text} :
      line ∈ u.given → Directive.include? line.content = some target → Includes u line
  | inside {u inner : Unfolding} {outer line : Line} :
      (outer, inner) ∈ u.targets → Includes inner line → Includes u (outer.margin ++ line)

/-- An include line in an unfolding, with the lines that the unfolding has before it, for it and
after it.  The include lines that lead to it have put their margins in front of it. -/
inductive Site : Unfolding → List Line → Line → List Line → List Line → Prop where
  | here (first : Unfolding) (line : Line) (target last : Unfolding) :
      Site (first.append (enter line target last)) first.lines line
        (target.lines.map (line.margin ++ ·)) last.lines
  | inside {inner : Unfolding} {line : Line} {before spliced after : List Line}
      (first : Unfolding) (outer : Line) (last : Unfolding) :
      Site inner before line spliced after →
        Site (first.append (enter outer inner last))
          (first.lines ++ before.map (outer.margin ++ ·)) (outer.margin ++ line)
          (spliced.map (outer.margin ++ ·)) (after.map (outer.margin ++ ·) ++ last.lines)

/-- The lines at a site make up the unfolding. -/
theorem Site.lines_eq (h : u.Site before line spliced after) :
    u.lines = before ++ (spliced ++ after) := by
  induction h with
  | here first line target last => rw [lines_append, lines]
  | inside first outer last _ ih => simp [lines_append, lines, ih]

/-- The spliced lines have the leading spaces of the include line at least. -/
theorem Site.indent_le (h : u.Site before line spliced after) :
    ∀ l ∈ spliced, line.indent ≤ l.indent := by
  induction h with
  | here first line target last => exact fun l hl => line.indent_le_of_mem_spliced hl
  | inside first outer last _ ih =>
      intro l hl
      obtain ⟨inner, hinner, rfl⟩ := List.mem_map.mp hl
      exact Line.indent_append_mono _ (ih inner hinner)

theorem Site.level_le (h : u.Site before line spliced after) :
    ∀ l ∈ spliced, line.level ≤ l.level :=
  fun l hl => Line.level_le_of_indent_le (h.indent_le l hl)

/-- Where an include line is in the block of a line, all lines spliced in for it are. -/
theorem Site.takeWhile_isDeeper (h : u.Site before line spliced after) {level : Nat}
    {between : List Line} (hdeep : ∀ l ∈ between ++ [line], Outline.isDeeper level l = true) :
    (between ++ (spliced ++ after)).takeWhile (Outline.isDeeper level) =
      between ++ (spliced ++ after.takeWhile (Outline.isDeeper level)) := by
  obtain ⟨hbetween, hline⟩ := List.forall_mem_append.mp hdeep
  have hlt := of_decide_eq_true (hline line (List.mem_singleton_self line))
  have hspliced : ∀ l ∈ spliced, Outline.isDeeper level l = true := fun l hl =>
    decide_eq_true (Nat.lt_of_lt_of_le hlt (h.level_le l hl))
  rw [List.takeWhile_append_of_pos hbetween, List.takeWhile_append_of_pos hspliced]

/-- **Every include line is a site**, when all of them are entered. -/
theorem Includes.exists_site (hincludes : u.Includes line) (h : u.Resolved) :
    ∃ before spliced after, u.Site before line spliced after := by
  induction hincludes with
  | here hline hinclude =>
      obtain ⟨first, inner, last, rfl⟩ := h.exists_enter hline hinclude
      exact ⟨_, _, _, .here first _ inner last⟩
  | inside htarget _ ih =>
      obtain ⟨first, last, rfl⟩ := exists_of_mem_targets htarget
      obtain ⟨-, hinner, -⟩ := (resolved_append.mp h).2
      obtain ⟨_, _, _, hsite⟩ := ih hinner
      exact ⟨_, _, _, .inside first _ last hsite⟩

end Unfolding

/-! ### Walks that leave outer tags alone -/

namespace Walk

/-- The walk leaves the open tags below a level as they are, and closes none of them. -/
structure Keeps (level : Nat) (w : Walk) : Prop where
  stack : ∀ stack, (w stack).2.filter (fun tag => decide (tag.level < level)) =
    stack.filter fun tag => decide (tag.level < level)
  closing : ∀ stack tag, .closing tag ∈ (w stack).1 → level ≤ tag.level

variable {level : Nat}

theorem keeps_idle : Keeps level idle :=
  ⟨fun _ => rfl, fun _ _ h => absurd h List.not_mem_nil⟩

theorem Keeps.andThen {a b : Walk} (ha : Keeps level a) (hb : Keeps level b) :
    Keeps level (a.andThen b) := by
  refine ⟨fun stack => ?_, fun stack tag htag => ?_⟩
  · rw [andThen_apply]
    exact (hb.stack _).trans (ha.stack stack)
  · rw [andThen_apply] at htag
    exact (List.mem_append.mp htag).elim (ha.closing stack tag) (hb.closing _ tag)

theorem keeps_write {token : Token} (h : ∀ tag, token ≠ .closing tag) :
    Keeps level (write token) :=
  ⟨fun _ => rfl, fun _ tag htag => absurd (List.mem_singleton.mp htag).symm (h tag)⟩

theorem keeps_openTag {tag : Tag} (h : level ≤ tag.level) (attributes : List Html.Attribute) :
    Keeps level (openTag tag attributes) := by
  refine ⟨fun stack => ?_, fun stack other hother => ?_⟩
  · exact List.filter_cons_of_neg (by simpa using h)
  · cases List.mem_singleton.mp hother

theorem keeps_close {bound : Nat} (h : level ≤ bound) : Keeps level (close bound) := by
  refine ⟨fun stack => ?_, fun stack tag htag => ?_⟩
  · induction stack with
    | nil => rfl
    | cons tag stack ih =>
        by_cases htag : bound ≤ tag.level
        · have hdeep : ¬ tag.level < level := Nat.not_lt.mpr (Nat.le_trans h htag)
          rw [close_cons htag, ih, List.filter_cons_of_neg (by simpa using hdeep)]
        · rw [close, if_neg htag]
  · induction stack with
    | nil => cases htag
    | cons top stack ih =>
        by_cases htop : bound ≤ top.level
        · rw [close_cons htop] at htag
          rcases List.mem_cons.mp htag with heq | htag
          · cases heq
            exact Nat.le_trans h htop
          · exact ih htag
        · rw [close, if_neg htop] at htag
          cases htag

theorem keeps_forEach {α : Type} {walk : α → Walk} (h : ∀ item, Keeps level (walk item))
    (items : List α) : Keeps level (forEach walk items) := by
  induction items with
  | nil => exact keeps_idle
  | cons item items ih => exact (h item).andThen ih

end Walk

open Walk (Keeps keeps_close)

/-- **Lines at a level or deeper** leave the tags below the level alone, on any stack. -/
theorem Script.keeps_run {level : Nat} {lines : List Line} (h : Outline.AtLeast level lines)
    (scope : Scope) : Keeps level ((Script.ofLines lines).run scope) := by
  have htext : ∀ scope t, Keeps level (Walk.write (textToken scope t)) :=
    fun _ _ => Walk.keeps_write fun _ htoken => by cases htoken
  -- a line closes to its own level, and its block is made of lines of the same list
  fun_induction Script.ofLines lines generalizing scope with
  | case1 => exact Walk.keeps_idle
  | case2 line rest _ _ _ _ hb ih => exact ih (h.of_subset (List.subset_cons_self _ _)) scope
  | case3 line rest _ _ _ _ hb hs ih | case4 line rest _ _ _ _ hb hs ih =>
      have hline := h line List.mem_cons_self (Bool.eq_false_iff.mpr hb)
      exact (keeps_close hline).andThen (ih (h.of_subset (List.subset_cons_self _ _)) scope)
  | case5 line rest _ _ _ _ hb hs ih =>
      have hline := h line List.mem_cons_self (Bool.eq_false_iff.mpr hb)
      exact (keeps_close hline).andThen ((Walk.keeps_write fun _ htoken => by cases htoken).andThen
        (ih (h.of_subset (List.subset_cons_self _ _)) scope))
  | case6 line rest _ _ _ _ hb _ hs ih =>
      have hline := h line List.mem_cons_self (Bool.eq_false_iff.mpr hb)
      exact (keeps_close hline).andThen ((htext scope _).andThen
        (ih (h.of_subset (List.subset_cons_self _ _)) scope))
  | case7 line rest _ _ _ _ hb e hs ih =>
      have hline := h line List.mem_cons_self (Bool.eq_false_iff.mpr hb)
      exact (keeps_close hline).andThen ((Walk.keeps_openTag hline _).andThen
        ((htext scope _).andThen (ih (h.of_subset (List.subset_cons_self _ _)) scope)))
  | case8 line rest _ _ _ _ hb path hs ihYes ihNo ih =>
      have hline := h line List.mem_cons_self (Bool.eq_false_iff.mpr hb)
      have hyes := ihYes (h.of_subset (List.subset_cons_of_subset _
        (Line.block_subset line.level rest))) scope
      have hno := ihNo (h.of_subset (List.subset_cons_of_subset _
        (elseBlock_afterBlock_subset line.level rest))) scope
      have hrest := ih (h.of_subset (List.subset_cons_of_subset _
        (afterElse_afterBlock_subset line.level rest))) scope
      refine (keeps_close hline).andThen (Keeps.andThen ?_
        ((keeps_close (Nat.le_succ_of_le hline)).andThen hrest))
      split
      · exact hyes
      · exact hno
  | case9 line rest _ _ _ _ hb path name hs ihBody ih =>
      have hline := h line List.mem_cons_self (Bool.eq_false_iff.mpr hb)
      have hbody := ihBody (h.of_subset (List.subset_cons_of_subset _
        (Line.block_subset line.level rest)))
      have hrest := ih (h.of_subset (List.subset_cons_of_subset _
        (Line.afterBlock_subset line.level rest))) scope
      exact (keeps_close hline).andThen ((Walk.keeps_forEach (fun item =>
        (hbody (scope.bind name (loopBinding item))).andThen
          (keeps_close (Nat.le_succ_of_le hline))) _).andThen hrest)

/-- Lines at a level or deeper, rendered on any page, close no tag below the level. -/
theorem Page.exists_renderLines_eq {level : Nat} {lines : List Line}
    (h : ∀ line ∈ lines, level ≤ line.level) (page : Page) (scope : Scope) :
    ∃ written stack, page.renderLines scope lines = ⟨stack, page.tokens ++ written⟩ ∧
      (∀ tag, .closing tag ∈ written → level ≤ tag.level) ∧
      stack.filter (fun tag => decide (tag.level < level)) =
        page.stack.filter fun tag => decide (tag.level < level) := by
  have hkeeps := Script.keeps_run (fun line hline _ => h line hline) scope
  exact ⟨_, _, rfl, hkeeps.closing page.stack, hkeeps.stack page.stack⟩

/-! ### Expansions -/

/-- Holds of an unfolding and the lines that it comes to, when what is spliced in for an include
line stays where the include line is. -/
structure Unfolding.Spliced (u : Unfolding) (out : List Line) : Prop where
  /-- Every include line is a site. -/
  sites {line : Line} : u.Includes line → ∃ before spliced after, u.Site before line spliced after
  /-- The lines before it, for it and after it make up the expansion. -/
  out_eq {line : Line} {before spliced after : List Line} :
    u.Site before line spliced after → out = before ++ (spliced ++ after)
  /-- The lines that are spliced in for it are at its level or deeper. -/
  level_le {line : Line} {before spliced after : List Line} :
    u.Site before line spliced after → ∀ l ∈ spliced, line.level ≤ l.level
  /-- Rendered on any page, they close no tag that was opened below that level, and leave the open
  tags below it as they are. -/
  rendered {line : Line} {before spliced after : List Line} :
    u.Site before line spliced after → ∀ (page : Page) (scope : Scope), ∃ written stack,
      page.renderLines scope spliced = ⟨stack, page.tokens ++ written⟩ ∧
      (∀ tag, .closing tag ∈ written → line.level ≤ tag.level) ∧
      stack.filter (fun tag => decide (tag.level < line.level)) =
        page.stack.filter fun tag => decide (tag.level < line.level)
  /-- If the include line is in the block of a directive, so are all of them. -/
  inBlock {line : Line} {before spliced after : List Line} :
    u.Site before line spliced after →
      ∀ first directive between, before = first ++ directive :: between →
        (∀ l ∈ between ++ [line], Outline.isDeeper directive.level l = true) →
          (between ++ (spliced ++ after)).takeWhile (Outline.isDeeper directive.level) =
            between ++ (spliced ++ after.takeWhile (Outline.isDeeper directive.level))
  /-- What the block of a directive unfolds to is at the head of its block in the expansion. -/
  block {first rest : List Line} {directive : Line} :
    u.given = first ++ directive :: rest → Directive.include? directive.content = none →
      ∃ v block w : Unfolding, u = v.append (.plain directive (block.append w)) ∧
        v.given = first ∧ block.given = rest.takeWhile (Outline.isDeeper directive.level) ∧
        out = v.lines ++ directive :: (block.lines ++ w.lines) ∧
        block.lines <+: (block.lines ++ w.lines).takeWhile (Outline.isDeeper directive.level)

theorem Unfolding.Resolved.spliced {u : Unfolding} (h : u.Resolved) : u.Spliced u.lines where
  sites hincludes := hincludes.exists_site h
  out_eq hsite := hsite.lines_eq
  level_le hsite := hsite.level_le
  rendered hsite := Page.exists_renderLines_eq hsite.level_le
  inBlock hsite _ _ _ _ hdeep := hsite.takeWhile_isDeeper hdeep
  block hgiven hplain := by
    obtain ⟨v, block, w, rfl, hv, hblock, hprefix⟩ := h.exists_block hgiven hplain
    refine ⟨v, block, w, rfl, hv, hblock, ?_, hprefix⟩
    rw [lines_append, lines, lines_append]

/-- **Spliced lines.**  An expansion that succeeds has one unfolding, from the state that the source
was in to the state that it is left in.  What is spliced in for an include line of the unfolding,
at any depth, stays where the include line is.  This holds of every source that may change while it
is being asked, and so of every source that does not. -/
theorem expandIncludes_spliced (lines : List Line) (base : Path) (depth : Nat)
    (chain : List Path) :
    (∀ (σ : Type) (source : ChangingSource σ) (state left : σ) (out : List Line)
      (final : List Path),
      (source.expandIncludes lines base depth chain).run state = (⟨.ok out, final⟩, left) →
        ∃ u, source.Unfolds base chain state u left ∧ u.given = lines ∧
          (∀ v left', source.Unfolds base chain state v left' → v.given = lines → v = u) ∧
          u.Spliced out) ∧
    ∀ (source : Source) (out : List Line),
      (source.expandIncludes lines base depth chain).result = .ok out →
        ∃ u, source.steady.Unfolds base chain () u () ∧ u.given = lines ∧
          (∀ v, source.steady.Unfolds base chain () v () → v.given = lines → v = u) ∧
          u.Spliced out := by
  refine ⟨fun σ source state left out final hrun => ?_, fun source out hout => ?_⟩
  · obtain ⟨u, hu, hgiven, hunique, rfl⟩ := ChangingSource.exists_unfolds_of_expandIncludes hrun
    exact ⟨u, hu, hgiven, hunique, hu.resolved.spliced⟩
  · have hrun : (source.steady.expandIncludes lines base depth chain).run () =
        (⟨.ok out, (source.expandIncludes lines base depth chain).chain⟩, ()) := by
      rw [Source.expandIncludes_steady, ← hout]
      rfl
    obtain ⟨u, hu, hgiven, hunique, rfl⟩ := ChangingSource.exists_unfolds_of_expandIncludes hrun
    exact ⟨u, hu, hgiven, fun v hv => hunique v () hv, hu.resolved.spliced⟩

/-- A source that counts what is read from it, and gives other lines each time. -/
def ChangingSource.rereading : ChangingSource Nat where
  isFile _ := pure true
  canonical path := pure path
  read _ := modifyGet fun count =>
    (.ok (if count = 0 then "li\n\n @include 'b'".toList else if count = 1 then "| x".toList
      else "q".toList), count + 1)

/-- Two include lines with one target behind two spaces and a tab, in the block of a directive.  The
first one is given a blank line and an include line of its own behind one more space, the second one
is given something else. -/
theorem expandIncludes_spliced_of_nested :
    ∃ (u : Unfolding) (before spliced after out : List Line) (line : Line),
      (ChangingSource.rereading.expandIncludes ["@if y".toList, "  \t@include 'a'".toList,
        "  \t@include 'a'".toList, "p".toList] Path.empty 0 []).run 0 = (⟨.ok out, []⟩, 3) ∧
      ChangingSource.rereading.Unfolds Path.empty [] 0 u 3 ∧
      u.Site before line spliced after ∧
      before = ["@if y".toList, "  \tli".toList, "  \t".toList] ∧
      line = "  \t @include 'b'".toList ∧ spliced = ["  \t | x".toList] ∧
      after = ["  \tq".toList, "p".toList] ∧ out = before ++ (spliced ++ after) ∧
      (∀ l ∈ spliced, 1 ≤ l.level) ∧
      (out.drop 1).takeWhile (Outline.isDeeper 0) =
        before.drop 1 ++ (spliced ++ ["  \tq".toList]) := by
  let target : Unfolding := .plain "li".toList (.plain [] (.enter " @include 'b'".toList
    (.plain "| x".toList .nil) .nil))
  let last : Unfolding := .enter "  \t@include 'a'".toList (.plain "q".toList .nil)
    (.plain "p".toList .nil)
  have hrun : (ChangingSource.rereading.expandIncludes ["@if y".toList,
      "  \t@include 'a'".toList, "  \t@include 'a'".toList, "p".toList] Path.empty 0 []).run 0 =
      (⟨.ok ["@if y".toList, "  \tli".toList, "  \t".toList, "  \t | x".toList,
        "  \tq".toList, "p".toList], []⟩, 3) := by
    rfl
  have hopen : (ChangingSource.rereading.openTarget Path.empty [] "a".toList).run 0 =
      (.ok ⟨target.given, Path.ofString ".", Path.ofString "./a"⟩, 1) := by rfl
  have hinner : (ChangingSource.rereading.openTarget (Path.ofString ".") [Path.ofString "./a"]
      "b".toList).run 1 = (.ok ⟨["| x".toList], Path.ofString ".", Path.ofString "./b"⟩, 2) := by
    rfl
  have hagain : (ChangingSource.rereading.openTarget Path.empty [] "a".toList).run 2 =
      (.ok ⟨["q".toList], Path.ofString ".", Path.ofString "./a"⟩, 3) := by rfl
  have hincludeA : Directive.include? (Line.content "  \t@include 'a'".toList) =
      some "a".toList := rfl
  have hincludeB : Directive.include? (Line.content " @include 'b'".toList) =
      some "b".toList := rfl
  have htarget : ChangingSource.rereading.Unfolds (Path.ofString ".") [Path.ofString "./a"] 1
      target 2 := by
    refine .plain rfl (.plain rfl (.enter hincludeB hinner ?_ (.nil _ _ _)))
    exact .plain rfl (.nil _ _ _)
  have hlast : ChangingSource.rereading.Unfolds Path.empty [] 2 last 3 := by
    refine .enter hincludeA hagain ?_ (.plain rfl (.nil _ _ _))
    exact .plain rfl (.nil _ _ _)
  have hu : ChangingSource.rereading.Unfolds Path.empty [] 0
      (.plain "@if y".toList (.enter "  \t@include 'a'".toList target last)) 3 :=
    .plain rfl (.enter hincludeA hopen htarget hlast)
  obtain ⟨u, -, -, hunique, hspliced⟩ :=
    (expandIncludes_spliced _ Path.empty 0 []).1 Nat ChangingSource.rereading 0 3 _ [] hrun
  obtain rfl := hunique _ 3 hu rfl
  have hsite := Unfolding.Site.inside (.plain "@if y".toList .nil) "  \t@include 'a'".toList last
    (.here (.plain "li".toList (.plain [] .nil)) " @include 'b'".toList (.plain "| x".toList .nil)
      .nil)
  refine ⟨_, _, _, _, _, _, hrun, hu, hsite, rfl, rfl, rfl, rfl, hspliced.out_eq hsite,
    hspliced.level_le hsite, ?_⟩
  exact hspliced.inBlock hsite [] "@if y".toList _ rfl (by decide)

end IndentHtml
