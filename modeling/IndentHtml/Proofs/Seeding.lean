import IndentHtml.Proofs.Spelling

/-!
# Where a chain starts

A template at a path is the first one on its own chain; the same template given as a text is on no
chain.  So a trail that comes back to the template is a cycle at once under the first reading, and
enters the template a second time under the other one.

In a store with ordinary include targets the second entry never ends well.  From there the same
include lines lead to the same targets as the first time (`Store.exists_trail_respelled`), so the
trail goes on through its own first target once more, which is then on the chain
(`Store.new_of_forall_clear`).

**Seeding** (`Store.render_eq_ok_iff`).  A stored template renders at its path exactly when it
renders as a text in its directory, and then to the same HTML.  An error may be another one.
-/

namespace IndentHtml

namespace Source

theorem map_eq_ok_iff {α β : Type} {x : Except TemplateError α} {f : α → β} {b : β} :
    x.map f = .ok b ↔ ∃ a, x = .ok a ∧ f a = b := by
  cases x <;> simp [Except.map]

/-- A trail can be left at each of its targets for any other trail from there. -/
theorem Trail.through {source : Source} {lines : List Line} {base path : Path}
    {trail : List Path} (h : source.Trail lines base trail) (hpath : path ∈ trail) :
    ∃ before, source.Trail lines base (before ++ [path]) ∧
      ∀ {content dir more}, source.read path = .ok content → path.parent? = some dir →
        source.Trail (Text.lines content) dir more →
          source.Trail lines base (before ++ path :: more) := by
  induction h with
  | @last lines base line target hline htarget =>
      obtain rfl := List.mem_singleton.mp hpath
      refine ⟨[], .last hline htarget, fun hread hdir hmore => .enter hline htarget hread ?_⟩
      rwa [hdir]
  | @enter lines base line target content trail hline htarget hread _ ih =>
      rcases List.mem_cons.mp hpath with rfl | hpath
      · refine ⟨[], .last hline htarget, fun hread hdir hmore => .enter hline htarget hread ?_⟩
        rwa [hdir]
      · obtain ⟨before, hbefore, hthrough⟩ := ih hpath
        exact ⟨base.target target :: before, .enter hline htarget hread hbefore,
          fun hread' hdir hmore => .enter hline htarget hread (hthrough hread' hdir hmore)⟩

/-- The chain does not tell to which lines an expansion ends well. -/
theorem expandIncludes_eq_ok_of_exists {source : Source} {lines out : List Line} {base : Path}
    {depth : Nat} {chain chain' : List Path}
    (h : (source.expandIncludes lines base depth chain).result = .ok out)
    (h' : ∃ other, (source.expandIncludes lines base depth chain').result = .ok other) :
    (source.expandIncludes lines base depth chain').result = .ok out := by
  obtain ⟨other, hother⟩ := h'
  rwa [(unfolds_of_expandWithin hother).unique (unfolds_of_expandWithin h)]

end Source

namespace Store

variable {store : Store} {lines : List Line} {base base' : Path} {trail : List Path}

/-- All targets of a trail are ordinary when those of its lines are. -/
theorem ordinary_of_mem_trail (hstore : store.IncludesOrdinary)
    (h : store.source.Trail lines base trail) (hlines : Line.IncludesOrdinary lines)
    (hbase : base.Slashed) : ∀ path ∈ trail, path.Ordinary := by
  induction h with
  | @last lines base line target hline htarget =>
      exact List.forall_mem_singleton.mpr ((hlines line hline target htarget).target hbase)
  | @enter lines base line target content trail hline htarget hread _ ih =>
      have hordinary := (hlines line hline target htarget).target hbase
      obtain ⟨dir, n, hdir, hslashed, -⟩ := hordinary.exists_parent_normal
      rw [hdir] at ih
      exact List.forall_mem_cons.mpr ⟨hordinary, ih (hstore _ _ hread) hslashed⟩

/-- **A trail can be followed from any spelling of its directory**, to the same templates. -/
theorem exists_trail_respelled (hstore : store.IncludesOrdinary)
    (h : store.source.Trail lines base trail) (hlines : Line.IncludesOrdinary lines)
    (hbase : base.Respelled base') :
    ∃ trail', store.source.Trail lines base' trail' ∧
      trail'.map Path.normal = trail.map Path.normal := by
  induction h generalizing base' with
  | @last lines base line target hline htarget =>
      have hordinary := hlines line hline target htarget
      refine ⟨[base'.target target], .last hline htarget, ?_⟩
      rw [List.map_singleton, List.map_singleton, hbase.target hordinary.slashed]
  | @enter lines base line target content trail hline htarget hread _ ih =>
      have hordinary := hlines line hline target htarget
      have hnormal := hbase.target hordinary.slashed
      obtain ⟨dir, dir', hdir, hdir', hparents⟩ :=
        (hordinary.target hbase.left).exists_parents (hordinary.target hbase.right) hnormal
      rw [hdir] at ih
      obtain ⟨trail', htrail', hsame⟩ := ih (hstore _ _ hread) hparents
      refine ⟨base'.target target :: trail',
        .enter hline htarget (read_respelled hnormal hread) ?_, ?_⟩
      · rwa [hdir']
      · rw [List.map_cons, List.map_cons, hsame, hnormal]

/-- A trail that goes through its own first target again is not clear. -/
theorem not_clear_of_again {before again : List Path} {path : Path} {chain : List Path}
    {depth : Nat} (h : again.map Path.normal = (before ++ [path]).map Path.normal) :
    ¬ store.source.Clear chain depth (before ++ path :: again) := by
  intro hclear
  obtain ⟨first, rest, hfirst⟩ := List.exists_cons_of_ne_nil (List.concat_ne_nil path before)
  rw [hfirst, List.map_cons] at h
  obtain ⟨second, more, rfl, hnormal, -⟩ := List.map_eq_cons_iff.mp h
  have hdistinct := hclear.distinct
  rw [List.append_cons, hfirst, List.cons_append] at hdistinct
  have hnew := (List.pairwise_cons.mp hdistinct).1 second
    (List.mem_append_right _ List.mem_cons_self)
  have hsame := List.forall_mem_singleton.mp hnew
  rw [canonical_respelled hnormal] at hsame
  exact absurd hsame (by simp [Path.same])

/-- No clear trail comes back to the template it starts in. -/
theorem new_of_forall_clear (hstore : store.IncludesOrdinary) {path dir : Path} {template : Text}
    (hpath : path.Ordinary) (hread : store.read path = .ok template)
    (hdir : path.parent? = some dir) {depth : Nat}
    (hclear : ∀ trail, store.source.Trail (Text.lines template) dir trail →
      store.source.Clear [] depth trail)
    (h : store.source.Trail (Text.lines template) dir trail) {target : Path}
    (htarget : target ∈ trail) : store.source.New [store.source.canonical path] target := by
  have hlines := hstore path template hread
  obtain ⟨_, n, hparent, hslashed, -⟩ := hpath.exists_parent_normal
  obtain rfl := Option.some.inj (hparent.symm.trans hdir)
  refine List.forall_mem_singleton.mpr (Bool.eq_false_iff.mpr fun hsame => ?_)
  have hnormal : target.normal = path.normal := Path.normal_eq_of_same hsame
  have hordinary := ordinary_of_mem_trail hstore h hlines hslashed target htarget
  obtain ⟨_, dir', hdir', hdir'', hparents⟩ := hpath.exists_parents hordinary hnormal.symm
  obtain rfl := Option.some.inj (hdir'.symm.trans hdir)
  -- up to the target and then once more up to it
  obtain ⟨before, hbefore, hthrough⟩ := h.through htarget
  obtain ⟨again, hagain, hmap⟩ := exists_trail_respelled hstore hbefore hlines hparents
  have htwice := hthrough (read_respelled hnormal.symm hread) hdir'' hagain
  exact not_clear_of_again hmap (hclear _ htwice)

/-- Trails from a template are clear whether or not the template is on the chain. -/
theorem forall_clear_seeded_iff (hstore : store.IncludesOrdinary) {path dir : Path}
    {template : Text} (hpath : path.Ordinary) (hread : store.read path = .ok template)
    (hdir : path.parent? = some dir) {depth : Nat} :
    (∀ trail, store.source.Trail (Text.lines template) dir trail →
        store.source.Clear [store.source.canonical path] depth trail) ↔
      ∀ trail, store.source.Trail (Text.lines template) dir trail →
        store.source.Clear [] depth trail := by
  constructor
  · intro hclear trail htrail
    exact { hclear trail htrail with offChain := fun _ _ _ h => absurd h List.not_mem_nil }
  · intro hclear trail htrail
    exact { hclear trail htrail with
      offChain := fun _ h => new_of_forall_clear hstore hpath hread hdir hclear htrail h }

/-- A template is expanded to the same lines whether or not it is on the chain. -/
theorem expandIncludes_seeded_iff (hstore : store.IncludesOrdinary) {path dir : Path}
    {template : Text} (hpath : path.Ordinary) (hread : store.read path = .ok template)
    (hdir : path.parent? = some dir) (out : List Line) :
    (store.source.expandIncludes (Text.lines template) dir 0
        [store.source.canonical path]).result = .ok out ↔
      (store.source.expandIncludes (Text.lines template) dir 0 []).result = .ok out := by
  have hbudget : maxIncludeDepth + 1 - 0 + 0 = maxIncludeDepth + 1 := rfl
  have hiff := (Source.exists_expandWithin_eq_ok hbudget (Text.lines template) dir
    [store.source.canonical path]).trans ((and_congr_right fun _ =>
      forall_clear_seeded_iff hstore hpath hread hdir).trans
        (Source.exists_expandWithin_eq_ok hbudget (Text.lines template) dir []).symm)
  exact ⟨fun h => Source.expandIncludes_eq_ok_of_exists h (hiff.mp ⟨out, h⟩),
    fun h => Source.expandIncludes_eq_ok_of_exists h (hiff.mpr ⟨out, h⟩)⟩

/-- **Seeding.**  A stored template renders at its path exactly when it renders as a text in its
directory, and then to the same HTML. -/
theorem render_eq_ok_iff (hstore : store.IncludesOrdinary) {path : Path} {template : Text}
    (hpath : path.Ordinary) (hread : store.read path = .ok template) :
    ∃ dir, path.parent? = some dir ∧ ∀ data html,
      store.source.render path data = .ok html ↔
        store.source.renderText template dir data = .ok html := by
  obtain ⟨dir, n, hdir, -, -⟩ := hpath.exists_parent_normal
  refine ⟨dir, hdir, fun data html => ?_⟩
  have hexpand : store.source.expand path =
      (store.source.expandIncludes (Text.lines template) dir 0
        [store.source.canonical path]).result := by
    rw [expand_eq, read_eq_ok_iff.mp hread, hdir]
    rfl
  rw [Source.render, Source.renderText, hexpand, Source.map_eq_ok_iff, Source.map_eq_ok_iff]
  exact exists_congr fun out =>
    and_congr_left fun _ => expandIncludes_seeded_iff hstore hpath hread hdir out

/-- A template that comes back to itself by way of another one fails at its path and as a text, but
not at the same target. -/
theorem render_eq_ok_iff_of_cycle :
    ∃ (store : Store) (path : Path) (template : Text),
      store.IncludesOrdinary ∧ path.Ordinary ∧ store.read path = .ok template ∧
      (∃ dir, path.parent? = some dir ∧ ∀ data html,
        store.source.render path data = .ok html ↔
          store.source.renderText template dir data = .ok html) ∧
      store.source.render path [] = .error (.includeCycle (Path.ofString "a/../a/t")) ∧
      store.source.renderText template (Path.ofString "a") [] =
        .error (.includeCycle (Path.ofString "a/../a/../a/u")) := by
  let template : Text := "@include '../a/u'".toList
  let path := Path.ofString "a/t"
  let store := (Store.empty.add (Path.ofString "a/u") "@include 't'".toList).add path template
  have hstore : store.IncludesOrdinary := includesOrdinary_of_forall_mem
    (List.forall_mem_cons.mpr ⟨by decide, List.forall_mem_singleton.mpr (by decide)⟩)
  have hpath : path.Ordinary := by decide
  have hread : store.read path = .ok template := by rfl
  exact ⟨store, path, template, hstore, hpath, hread, render_eq_ok_iff hstore hpath hread,
    by decide +kernel, by decide +kernel⟩

end Store

end IndentHtml
