import IndentHtml.Source.Render
import IndentHtml.Source.Store

/-!
# Expansion

A *trail* is a sequence of include targets: the first one is named by an include line of the given
lines, and each further one by an include line of the target before it.  A trail is `Clear` when
all its targets exist and can be read, none of them is open already, and it is not too long.

**Success** (`expandIncludes_ok_iff`).  Lines are expanded exactly when every trail from them is
clear.  A level of includes is entered for each trail that goes on, and what is checked on entering
a target is what makes a trail clear that starts with it (`Source.clear_cons`).

**Result.**  The lines of an expansion are the unfolding of the given lines (`Source.Unfolds`): the
lines in order, with the unfolding of its target in place of each include line.  A line stands
behind the margins of the include lines that lead to it, outermost first.
-/

namespace IndentHtml

theorem Expansion.prepend_eq_ok {lines out : List Line} {x : Expansion} :
    (x.prepend lines).result = .ok out ↔ ∃ more, x.result = .ok more ∧ out = lines ++ more := by
  obtain ⟨result, chain⟩ := x
  cases result with
  | error e => simp [prepend, Except.map]
  | ok more => simp [prepend, Except.map, eq_comm]

namespace Source

variable {source : Source}

/-! ### Trails -/

/-- The sequences of include targets that start in a list of lines of a directory. -/
inductive Trail (source : Source) : List Line → Path → List Path → Prop where
  /-- An include line names its target. -/
  | last {lines : List Line} {base : Path} {line : Line} {target : Text} :
      line ∈ lines → Directive.include? line.content = some target →
        Trail source lines base [base.target target]
  /-- A target that is entered leads to the targets of its own lines. -/
  | enter {lines : List Line} {base : Path} {line : Line} {target content : Text}
      {trail : List Path} :
      line ∈ lines → Directive.include? line.content = some target →
        source.read (base.target target) = .ok content →
          Trail source (Text.lines content) ((base.target target).parent?.getD base) trail →
            Trail source lines base (base.target target :: trail)

/-- Holds of a path that names none of the templates on a chain of canonical paths. -/
def New (source : Source) (chain : List Path) (path : Path) : Prop :=
  ∀ canonical ∈ chain, Path.same (source.canonical path) canonical = false

/-- A trail that can be followed to its end, from a depth and with a chain of open templates. -/
structure Clear (source : Source) (chain : List Path) (depth : Nat) (trail : List Path) :
    Prop where
  exist : ∀ path ∈ trail, source.isFile path = true
  readable : ∀ path ∈ trail, ∃ content, source.read path = .ok content
  offChain : ∀ path ∈ trail, source.New chain path
  distinct : trail.Pairwise fun earlier later => source.New [source.canonical earlier] later
  short : trail.length ≤ maxIncludeDepth - depth

theorem clear_nil (chain : List Path) (depth : Nat) : source.Clear chain depth [] :=
  ⟨nofun, nofun, nofun, .nil, Nat.zero_le _⟩

theorem new_append {chain more : List Path} {path : Path} :
    source.New (chain ++ more) path ↔ source.New chain path ∧ source.New more path :=
  List.forall_mem_append

/-- A trail is clear when its first target can be entered and the others are clear after it. -/
theorem clear_cons {chain : List Path} {depth : Nat} {path : Path} {trail : List Path} :
    source.Clear chain depth (path :: trail) ↔
      (source.isFile path = true ∧ source.New chain path ∧
        ∃ content, source.read path = .ok content) ∧
      depth + 1 ≤ maxIncludeDepth ∧
      source.Clear (chain ++ [source.canonical path]) (depth + 1) trail := by
  constructor
  · intro h
    obtain ⟨hfirst, hrest⟩ := List.pairwise_cons.mp h.distinct
    have hshort := h.short
    rw [List.length_cons] at hshort
    have hpath : path ∈ path :: trail := List.mem_cons_self
    refine ⟨⟨h.exist path hpath, h.offChain path hpath, h.readable path hpath⟩, by omega,
      fun p hp => h.exist p (List.mem_cons_of_mem _ hp),
      fun p hp => h.readable p (List.mem_cons_of_mem _ hp), fun p hp => ?_, hrest, by omega⟩
    exact new_append.mpr ⟨h.offChain p (List.mem_cons_of_mem _ hp), hfirst p hp⟩
  · rintro ⟨⟨hfile, hnew, hread⟩, hdepth, h⟩
    have hshort := h.short
    refine ⟨List.forall_mem_cons.mpr ⟨hfile, h.exist⟩, List.forall_mem_cons.mpr ⟨hread, h.readable⟩,
      List.forall_mem_cons.mpr ⟨hnew, fun p hp => (new_append.mp (h.offChain p hp)).1⟩,
      List.pairwise_cons.mpr ⟨fun p hp => (new_append.mp (h.offChain p hp)).2, h.distinct⟩, ?_⟩
    rw [List.length_cons]
    omega

/-- All trails from some lines are clear exactly when the target of every include line can be
entered and all trails from there are clear. -/
theorem forall_clear_iff {lines : List Line} {base : Path} {chain : List Path} {depth : Nat} :
    (∀ trail, source.Trail lines base trail → source.Clear chain depth trail) ↔
      ∀ line ∈ lines, ∀ target, Directive.include? line.content = some target →
        source.isFile (base.target target) = true ∧ source.New chain (base.target target) ∧
        ∃ content, source.read (base.target target) = .ok content ∧ depth + 1 ≤ maxIncludeDepth ∧
          ∀ trail,
            source.Trail (Text.lines content) ((base.target target).parent?.getD base) trail →
            source.Clear (chain ++ [source.canonical (base.target target)]) (depth + 1) trail := by
  constructor
  · intro h line hline target htarget
    obtain ⟨⟨hfile, hnew, content, hread⟩, hdepth, -⟩ := clear_cons.mp (h _ (.last hline htarget))
    refine ⟨hfile, hnew, content, hread, hdepth, fun trail htrail => ?_⟩
    exact (clear_cons.mp (h _ (.enter hline htarget hread htrail))).2.2
  · intro h trail htrail
    cases htrail with
    | last hline htarget =>
        obtain ⟨hfile, hnew, content, hread, hdepth, -⟩ := h _ hline _ htarget
        exact clear_cons.mpr ⟨⟨hfile, hnew, content, hread⟩, hdepth, clear_nil _ _⟩
    | enter hline htarget hread hinner =>
        obtain ⟨hfile, hnew, content, hread', hdepth, hclear⟩ := h _ hline _ htarget
        -- the answers of the source depend on the path alone
        obtain rfl := Except.ok.inj (hread.symm.trans hread')
        exact clear_cons.mpr ⟨⟨hfile, hnew, _, hread⟩, hdepth, hclear _ hinner⟩

/-! ### One step -/

theorem new_iff {chain : List Path} {path : Path} :
    source.New chain path ↔ chain.any (Path.same (source.canonical path)) = false := by
  simp [New]

/-- What opening a target takes and what it gives. -/
theorem openTarget_eq_ok {base : Path} {chain : List Path} {target : Text} {t : IncludeTarget} :
    source.openTarget base chain target = .ok t ↔
      source.isFile (base.target target) = true ∧ source.New chain (base.target target) ∧
      ∃ content, source.read (base.target target) = .ok content ∧
        t = ⟨Text.lines content, (base.target target).parent?.getD base,
          source.canonical (base.target target)⟩ := by
  rw [new_iff, openTarget]
  cases hfile : source.isFile (base.target target) with
  | false => simp
  | true =>
      cases hnew : chain.any (Path.same (source.canonical (base.target target))) with
      | true => simp
      | false =>
          cases hread : source.read (base.target target) with
          | error cause => simp
          | ok content => simp [eq_comm]

variable {enter : List Line → Path → List Path → Expansion} {base : Path} {chain : List Path}
  {line : Line} {rest out : List Line}

theorem expandWith_plain_eq_ok (h : Directive.include? line.content = none) :
    (source.expandWith enter base chain (line :: rest)).result = .ok out ↔
      ∃ more, (source.expandWith enter base chain rest).result = .ok more ∧
        out = line :: more := by
  simp only [expandWith, h]
  exact Expansion.prepend_eq_ok

theorem expandWith_include_eq_ok {target : Text}
    (h : Directive.include? line.content = some target) :
    (source.expandWith enter base chain (line :: rest)).result = .ok out ↔
      ∃ t ls more, source.openTarget base chain target = .ok t ∧
        (enter t.lines t.directory (chain ++ [t.canonical])).result = .ok ls ∧
        (source.expandWith enter base chain rest).result = .ok more ∧
        out = ls.map (line.margin ++ ·) ++ more := by
  simp only [expandWith, h]
  cases hopen : source.openTarget base chain target with
  | error e => simp
  | ok t =>
      rcases hinner : enter t.lines t.directory (chain ++ [t.canonical]) with ⟨e | ls, inner⟩
      · simp [hinner]
      · simp [hinner, Expansion.prepend_eq_ok]

/-- A level expands when the target of every include line can be opened and is expanded. -/
theorem exists_expandWith_eq_ok {lines : List Line} :
    (∃ out, (source.expandWith enter base chain lines).result = .ok out) ↔
      ∀ line ∈ lines, ∀ target, Directive.include? line.content = some target →
        ∃ t, source.openTarget base chain target = .ok t ∧
          ∃ ls, (enter t.lines t.directory (chain ++ [t.canonical])).result = .ok ls := by
  induction lines with
  | nil => exact ⟨fun _ line h => absurd h List.not_mem_nil, fun _ => ⟨[], rfl⟩⟩
  | cons line rest ih =>
      rw [List.forall_mem_cons, ← ih]
      cases hline : Directive.include? line.content with
      | none =>
          constructor
          · rintro ⟨out, hout⟩
            obtain ⟨more, hmore, -⟩ := (expandWith_plain_eq_ok hline).mp hout
            exact ⟨nofun, more, hmore⟩
          · rintro ⟨-, more, hmore⟩
            exact ⟨_, (expandWith_plain_eq_ok hline).mpr ⟨more, hmore, rfl⟩⟩
      | some target =>
          constructor
          · rintro ⟨out, hout⟩
            obtain ⟨t, ls, more, hopen, hinner, hmore, -⟩ :=
              (expandWith_include_eq_ok hline).mp hout
            refine ⟨fun target' htarget => ?_, more, hmore⟩
            obtain rfl := Option.some.inj htarget
            exact ⟨t, hopen, ls, hinner⟩
          · rintro ⟨hfirst, more, hmore⟩
            obtain ⟨t, hopen, ls, hinner⟩ := hfirst target rfl
            exact ⟨_, (expandWith_include_eq_ok hline).mpr ⟨t, ls, more, hopen, hinner, hmore, rfl⟩⟩

/-! ### All levels -/

/-- **Expansion within a budget succeeds exactly on clear trails**, when the budget and the depth
add up to one more than the greatest depth. -/
theorem exists_expandWithin_eq_ok {budget depth : Nat} (h : budget + depth = maxIncludeDepth + 1)
    (lines : List Line) (base : Path) (chain : List Path) :
    (∃ out, (source.expandWithin budget depth lines base chain).result = .ok out) ↔
      depth ≤ maxIncludeDepth ∧
        ∀ trail, source.Trail lines base trail → source.Clear chain depth trail := by
  -- the budget is used up at the depth beyond the greatest one
  induction budget generalizing depth lines base chain with
  | zero =>
      refine ⟨fun hout => ?_, fun hclear => ?_⟩
      · obtain ⟨out, hout⟩ := hout
        cases hout
      · omega
  | succ budget ih =>
      have hdepth : depth ≤ maxIncludeDepth := by omega
      have hinner : budget + (depth + 1) = maxIncludeDepth + 1 := by omega
      rw [expandWithin, exists_expandWith_eq_ok, forall_clear_iff, and_iff_right hdepth]
      refine forall₂_congr fun line _ => forall₂_congr fun target _ => ?_
      simp only [openTarget_eq_ok, ih hinner]
      constructor
      · rintro ⟨t, ⟨hfile, hnew, content, hread, rfl⟩, hclear⟩
        exact ⟨hfile, hnew, content, hread, hclear⟩
      · rintro ⟨hfile, hnew, content, hread, hclear⟩
        exact ⟨_, ⟨hfile, hnew, content, hread, rfl⟩, hclear⟩

/-! ### The unfolding -/

/-- The unfolding of lines of a directory, each line of it behind a margin.  A line of a target is
also behind the margin of the include line that leads to it. -/
inductive Unfolds (source : Source) : Text → List Line → Path → List Line → Prop where
  | nil (margin : Text) (base : Path) : Unfolds source margin [] base []
  | plain {margin : Text} {base : Path} {line : Line} {rest out : List Line} :
      Directive.include? line.content = none → Unfolds source margin rest base out →
        Unfolds source margin (line :: rest) base ((margin ++ line) :: out)
  | enter {margin : Text} {base : Path} {line : Line} {target content : Text}
      {rest inner out : List Line} :
      Directive.include? line.content = some target →
        source.read (base.target target) = .ok content →
          Unfolds source (margin ++ line.margin) (Text.lines content)
              ((base.target target).parent?.getD base) inner →
            Unfolds source margin rest base out →
              Unfolds source margin (line :: rest) base (inner ++ out)

/-- An outer margin goes in front of the margin of every line. -/
theorem Unfolds.indent {margin : Text} {lines out : List Line} {base : Path}
    (h : source.Unfolds margin lines base out) (outer : Text) :
    source.Unfolds (outer ++ margin) lines base (out.map (outer ++ ·)) := by
  induction h with
  | nil margin base => exact .nil _ _
  | plain hline _ ih =>
      rw [List.map_cons, ← List.append_assoc]
      exact .plain hline ih
  | enter hline hread _ _ ihInner ihRest =>
      rw [List.map_append]
      refine .enter hline hread ?_ ihRest
      rw [List.append_assoc]
      exact ihInner

/-- Lines have one unfolding only. -/
theorem Unfolds.unique {margin : Text} {lines out other : List Line} {base : Path}
    (h : source.Unfolds margin lines base out) (h' : source.Unfolds margin lines base other) :
    other = out := by
  induction h generalizing other with
  | nil margin base =>
      cases h'
      rfl
  | plain hline _ ih =>
      cases h' with
      | plain _ hrest => rw [ih hrest]
      | enter hline' _ _ _ => rw [hline] at hline'; cases hline'
  | enter hline hread _ _ ihInner ihRest =>
      cases h' with
      | plain hline' _ => rw [hline] at hline'; cases hline'
      | enter hline' hread' hinner hrest =>
          obtain rfl := Option.some.inj (hline.symm.trans hline')
          obtain rfl := Except.ok.inj (hread.symm.trans hread')
          rw [ihInner hinner, ihRest hrest]

/-- A level gives the unfolding if the levels below do. -/
theorem unfolds_of_expandWith {lines : List Line}
    (henter : ∀ {lines base chain out}, (enter lines base chain).result = .ok out →
      source.Unfolds [] lines base out)
    (h : (source.expandWith enter base chain lines).result = .ok out) :
    source.Unfolds [] lines base out := by
  induction lines generalizing out with
  | nil =>
      obtain rfl := Except.ok.inj h
      exact .nil [] base
  | cons line rest ih =>
      cases hline : Directive.include? line.content with
      | none =>
          obtain ⟨more, hmore, rfl⟩ := (expandWith_plain_eq_ok hline).mp h
          exact .plain hline (ih hmore)
      | some target =>
          obtain ⟨t, ls, more, hopen, hinner, hmore, rfl⟩ := (expandWith_include_eq_ok hline).mp h
          obtain ⟨-, -, content, hread, rfl⟩ := openTarget_eq_ok.mp hopen
          -- the target was expanded without a margin and is indented as a whole
          have hindent := (henter hinner).indent line.margin
          rw [List.append_nil] at hindent
          exact .enter hline hread hindent (ih hmore)

theorem unfolds_of_expandWithin {budget depth : Nat} {lines : List Line}
    (h : (source.expandWithin budget depth lines base chain).result = .ok out) :
    source.Unfolds [] lines base out := by
  induction budget generalizing depth lines base chain out with
  | zero => cases h
  | succ budget ih => exact unfolds_of_expandWith ih h

end Source

/-- **Expansion.**  The includes of some lines are expanded exactly when the depth is not beyond the
greatest one and every trail from the lines is clear, and then to the one unfolding of the lines. -/
theorem expandIncludes_ok_iff (source : Source) (lines : List Line) (base : Path) (depth : Nat)
    (chain : List Path) :
    ((∃ out, (source.expandIncludes lines base depth chain).result = .ok out) ↔
      depth ≤ maxIncludeDepth ∧
        ∀ trail, source.Trail lines base trail → source.Clear chain depth trail) ∧
    ∀ out, (source.expandIncludes lines base depth chain).result = .ok out →
      ∀ other, source.Unfolds [] lines base other ↔ other = out := by
  refine ⟨?_, fun out hout other => ?_⟩
  · by_cases hdepth : depth ≤ maxIncludeDepth
    · exact Source.exists_expandWithin_eq_ok (by omega) lines base chain
    · have hbudget : maxIncludeDepth + 1 - depth = 0 := by omega
      rw [Source.expandIncludes, hbudget]
      constructor
      · rintro ⟨out, hout⟩
        cases hout
      · rintro ⟨hle, -⟩
        exact absurd hle hdepth
  · have hunfolds := Source.unfolds_of_expandWithin hout
    refine ⟨fun hother => hunfolds.unique hother, fun heq => ?_⟩
    rw [heq]
    exact hunfolds

/-- A template that includes a second one, which includes a third one, each behind two spaces. -/
theorem expandIncludes_of_two_levels :
    ∃ store : Store,
      (∀ trail, store.source.Trail ["  @include 'a'".toList] Path.empty trail →
        store.source.Clear [] 0 trail) ∧
      store.source.Unfolds [] ["  @include 'a'".toList] Path.empty
        ["  ul".toList, "    li".toList] := by
  let store := (Store.empty.add (Path.ofString "a") "ul\n  @include 'b'".toList).add
    (Path.ofString "b") "li".toList
  have hout : (store.source.expandIncludes ["  @include 'a'".toList] Path.empty 0 []).result =
      .ok ["  ul".toList, "    li".toList] := by rfl
  obtain ⟨hiff, hunfolds⟩ :=
    expandIncludes_ok_iff store.source ["  @include 'a'".toList] Path.empty 0 []
  exact ⟨store, (hiff.mp ⟨_, hout⟩).2, (hunfolds _ hout _).mpr rfl⟩

end IndentHtml
