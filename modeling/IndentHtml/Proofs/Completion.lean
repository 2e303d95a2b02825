import IndentHtml.Proofs.Building
import IndentHtml.Proofs.Separation

/-!
# Complete builds

**Builds** (`Build.complete_of_run`).  Let a site be steady.  A build that succeeds leaves the page
of each template that is no partial, rendered as on the disk it started from, and changes nothing
else; once more, it changes nothing.  A build that cannot render a template leaves the pages of the
templates before it and changes nothing else.

The proof follows the templates one after the other.  Between two of them the disk holds the pages
of those that were dealt with, and nothing else was done to it (`Build.Progress`).  Each page is
held in a form that lasts: to write it once more would change nothing.  So it stays when other pages
are written, and a second build writes nothing new.

None of the conditions beyond being apart can be left out (`Build.not_rendered_of_apart`).
-/

namespace IndentHtml

namespace Build

variable {options : BuildOptions} {data : Data} {disk new later : Disk} {path : Path}
  {paths : List Path} {report : BuildReport}

/-! ### Progress -/

/-- Holds of a disk on which the pages of templates were written, and nothing else was done. -/
structure Progress (options : BuildOptions) (data : Data) (disk : Disk) (done : List Path)
    (new : Disk) : Prop where
  grown : Disk.Grown (outputPlaces options disk done) (makes options disk) disk new
  wellFormed : new.root.WellFormed
  /-- Each page is rendered as on the disk of the start, and writing it once more would change
  nothing. -/
  written : ∀ path ∈ done, ∃ page html, page? options path = some page ∧
    disk.source.render path data = .ok html ∧ new.writePage page.output html = (.ok (), new)

theorem Apart.progress (h : Apart options disk) (data : Data) :
    Progress options data disk [] disk :=
  ⟨.refl _ _ _, h.wellFormed, nofun⟩

theorem Progress.complete {done : List Path} (h : Progress options data disk done new) :
    Complete options data disk done new := by
  refine ⟨fun path hpath => ?_, fun l hl => ?_⟩
  · obtain ⟨page, html, hpage, hrender, hwrite⟩ := h.written path hpath
    exact ⟨page, html, hpage, hrender,
      Disk.readText?_eq_some.mpr (Disk.kindOf?_of_writePage hwrite)⟩
  · rcases h.grown.kind l with heq | ⟨hmem, -⟩ | ⟨-, hnone, hdir⟩
    · exact .inl heq
    · exact absurd hmem hl
    · exact .inr ⟨hnone, hdir⟩

theorem subset_templates {before after : List Path}
    (hsplit : pageTemplates options disk = before ++ after) : before ⊆ templates options disk :=
  fun _ hmem => (mem_pageTemplates.mp (hsplit ▸ List.mem_append_left _ hmem)).1

section Step

variable {before after : List Path} (h : Steady options disk)
  (hsplit : pageTemplates options disk = before ++ path :: after)
  (hprogress : Progress options data disk before new)

include h hsplit hprogress

/-- **A page more.** -/
theorem Progress.concat {page : BuiltPage} (hpage : page? options path = some page) {html : Text}
    (hrender : disk.source.render path data = .ok html)
    (hwrite : new.writePage page.output html = (.ok (), later)) :
    Progress options data disk (before ++ [path]) later := by
  have hpath : path ∈ pageTemplates options disk :=
    hsplit ▸ List.mem_append_right _ List.mem_cons_self
  have hstep := grown_writePage hprogress.grown hpath hpage hwrite
  have hwell := Disk.wellFormed_of_writePage hwrite hprogress.wellFormed
  have hmine : {disk.place page.output} ⊆ outputPlaces options disk (before ++ [path]) := by
    rintro l rfl
    exact ⟨path, List.mem_append_right _ (List.mem_singleton_self path), page, hpage, rfl⟩
  refine ⟨(hprogress.grown.mono (outputPlaces_mono (List.subset_append_left _ _)) subset_rfl).trans
    (hstep.mono hmine subset_rfl), hwell, List.forall_mem_append.mpr ⟨fun other hother => ?_,
    List.forall_mem_singleton.mpr ⟨page, html, hpage, hrender, ?_⟩⟩⟩
  · -- the pages before stay, since this one is put at another place
    obtain ⟨otherPage, otherHtml, hotherPage, hotherRender, hotherWrite⟩ :=
      hprogress.written other hother
    have hkind := Disk.kindOf?_of_writePage hotherWrite
    have hne := h.place_ne hsplit hother hpage hotherPage
    rw [← hprogress.grown.place_eq] at hne
    refine ⟨otherPage, otherHtml, hotherPage, hotherRender,
      Disk.writePage_again hotherWrite hstep hwell ?_⟩
    rw [hstep.kindOf?_eq (by rw [hkind]; nofun) hne, hkind]
  · exact Disk.writePage_again hwrite (.refl ∅ ∅ later) hwell (Disk.kindOf?_of_writePage hwrite)

/-- **One page**: its template cannot be rendered on the disk of the start, it cannot be written,
or it is a page more. -/
theorem buildPage_cases :
    ∃ page, page? options path = some page ∧ relative? options path = some page.template ∧
      ((∃ cause, disk.source.render path data = .error cause ∧
          buildPage options data new path = (.error (.renderFailed page.template cause), new)) ∨
        (∃ e later, e.templateError? = none ∧
          buildPage options data new path = (.error e, later)) ∨
        ∃ later, Progress options data disk (before ++ [path]) later ∧
          buildPage options data new path = (.ok page, later)) := by
  have hmem : path ∈ pageTemplates options disk :=
    hsplit ▸ List.mem_append_right _ List.mem_cons_self
  obtain ⟨ns, -, -, hrelative, hpage⟩ := h.exists_page (mem_pageTemplates.mp hmem).1
  refine ⟨_, hpage, hrelative, ?_⟩
  rw [buildPage, hrelative]
  dsimp only
  rw [h.render_eq (subset_templates hsplit) hprogress.grown hmem data]
  cases hrender : disk.source.render path data with
  | error cause => exact .inl ⟨cause, rfl, rfl⟩
  | ok html =>
      dsimp only
      rcases hwrite : new.writePage (outputOf options (Path.ofSegments ns)) html with
        ⟨e | ⟨⟩, later⟩
      · exact .inr (.inl ⟨e, later, Disk.templateError?_of_writePage hwrite, rfl⟩)
      · exact .inr (.inr ⟨later, hprogress.concat h hsplit hpage hrender hwrite, rfl⟩)

end Step

/-! ### Whole builds -/

theorem templateError?_of_load {file : Option Path} {e : SiteError}
    (h : Data.load disk file = .error e) : e.templateError? = none := by
  cases file with
  | none => cases h
  | some p =>
      rw [Data.load] at h
      split at h
      · exact Except.error.inj h ▸ rfl
      · split at h
        · exact Except.error.inj h ▸ rfl
        · split at h
          · cases h
          · exact Except.error.inj h ▸ rfl

/-- How a build can end: with all pages, at a template that cannot be rendered, after the pages
before it, or in another way. -/
inductive Outcome (options : BuildOptions) (data : Data) (disk : Disk) :
    Except SiteError BuildReport × Disk → Prop where
  | all {new : Disk} : Progress options data disk (pageTemplates options disk) new →
      Outcome options data disk (.ok (reportOf options (templates options disk)), new)
  | renderFailed {before after : List Path} {path template : Path} {cause : TemplateError}
      {new : Disk} :
      pageTemplates options disk = before ++ path :: after →
        relative? options path = some template → disk.source.render path data = .error cause →
          Progress options data disk before new →
            Outcome options data disk (.error (.renderFailed template cause), new)
  | other {e : SiteError} {new : Disk} : e.templateError? = none →
      Outcome options data disk (.error e, new)

theorem reportOf_concat_partial (hpath : isPartial path = true) :
    reportOf options (paths ++ [path]) =
      { reportOf options paths with partials := (reportOf options paths).partials + 1 } := by
  simp [reportOf, hpath]

theorem reportOf_concat_page (hpath : isPartial path = false) {page : BuiltPage}
    (hpage : page? options path = some page) :
    reportOf options (paths ++ [path]) =
      { reportOf options paths with pages := (reportOf options paths).pages ++ [page] } := by
  simp [reportOf, hpath, hpage]

/-- **A run over templates** goes from progress to progress. -/
theorem outcome_visitAll (h : Steady options disk) {seen rest : List Path}
    (hsplit : templates options disk = seen ++ rest)
    (hprogress : Progress options data disk (seen.filter fun path => !isPartial path) new) :
    Outcome options data disk (visitAll options data new (reportOf options seen) rest) := by
  induction rest generalizing seen new with
  | nil =>
      rw [List.append_nil] at hsplit
      rw [visitAll, ← hsplit]
      exact .all (by rw [pageTemplates, hsplit]; exact hprogress)
  | cons path rest ih =>
      rw [List.append_cons] at hsplit
      rw [visitAll, visit]
      cases hpartial : isPartial path with
      | true =>
          rw [if_pos rfl, ← reportOf_concat_partial hpartial]
          exact ih hsplit (by simpa [hpartial] using hprogress)
      | false =>
          rw [if_neg Bool.false_ne_true]
          have hpages : pageTemplates options disk =
              (seen.filter fun path => !isPartial path) ++
                path :: rest.filter fun path => !isPartial path := by
            simp [pageTemplates, hsplit, hpartial]
          obtain ⟨page, hpage, hrelative, hcases⟩ := buildPage_cases h hpages hprogress
          rcases hcases with
            ⟨cause, hrender, hbuild⟩ | ⟨e, later, he, hbuild⟩ | ⟨later, hmore, hbuild⟩
          · rw [hbuild]
            exact .renderFailed hpages hrelative hrender hprogress
          · rw [hbuild]
            exact .other he
          · rw [hbuild]
            dsimp only
            rw [← reportOf_concat_page hpartial hpage]
            exact ih hsplit (by simpa [hpartial] using hmore)

section Runs

variable (h : Steady options disk)

include h

/-- A visit keeps to the places of pages and to the directories that can be made. -/
theorem grown_of_visit (hpath : path ∈ templates options disk) {report' : BuildReport}
    (hgrown : Disk.Grown (outputPlaces options disk (pageTemplates options disk))
      (makes options disk) disk new)
    (hvisit : visit options data new report path = (.ok report', later)) :
    Disk.Grown (outputPlaces options disk (pageTemplates options disk)) (makes options disk) disk
      later := by
  rw [visit] at hvisit
  cases hpartial : isPartial path with
  | true =>
      rw [hpartial, if_pos rfl] at hvisit
      obtain rfl := (Prod.mk.inj hvisit).2
      exact hgrown
  | false =>
      obtain ⟨ns, -, -, hrelative, hpage⟩ := h.exists_page hpath
      rw [hpartial, if_neg Bool.false_ne_true, buildPage, hrelative] at hvisit
      dsimp only at hvisit
      cases hrender : new.source.render path data with
      | error cause => simp [hrender] at hvisit
      | ok html =>
          rw [hrender] at hvisit
          dsimp only at hvisit
          rcases hwrite : new.writePage (outputOf options (Path.ofSegments ns)) html with
            ⟨e | ⟨⟩, last⟩
          · simp [hwrite] at hvisit
          · rw [hwrite] at hvisit
            obtain rfl := (Prod.mk.inj hvisit).2
            have hmem := mem_pageTemplates.mpr ⟨hpath, hpartial⟩
            have hstep := grown_writePage hgrown hmem hpage hwrite
            refine hgrown.trans (hstep.mono ?_ subset_rfl)
            rintro l rfl
            exact ⟨path, hmem, _, hpage, rfl⟩

/-- **A run** deals with the templates of the disk it starts from. -/
theorem Steady.run_eq {last : GlobPattern} (hlast : last.IsSuffix)
    (hpattern : PathPattern.ofText options.patternText = .ok (options.patternFor last))
    (hdata : Data.load disk options.data = .ok data) :
    run options disk = visitAll options data disk ⟨[], 0⟩ (templates options disk) := by
  -- a disk differs from the first one only when there are templates
  refine run_eq_visitAll h.wellFormed hlast hpattern hdata
    (P := fun new => new = disk ∨ templates options disk ≠ [] ∧
      Disk.Grown (outputPlaces options disk (pageTemplates options disk)) (makes options disk)
        disk new) ?_ ?_ (.inl rfl)
  · rintro here node hfound new (rfl | ⟨hne, hgrown⟩)
    · exact hfound
    · obtain ⟨path, hpath⟩ := List.exists_mem_of_ne_nil _ hne
      exact h.found_grown (fun p hp => (mem_pageTemplates.mp hp).1) hgrown hpath hfound
  · rintro path hpath new report report' later hnew hvisit
    refine .inr ⟨List.ne_nil_of_mem hpath, grown_of_visit h hpath ?_ hvisit⟩
    rcases hnew with rfl | ⟨-, hgrown⟩
    · exact .refl _ _ _
    · exact hgrown

theorem outcome_run (hdata : Data.load disk options.data = .ok data) :
    Outcome options data disk (run options disk) := by
  rcases h.pattern_cases with ⟨e, hpattern⟩ | ⟨last, hlast, hpattern⟩
  · rw [run, hdata, hpattern]
    exact .other rfl
  · rw [h.run_eq hlast hpattern hdata]
    have hstart : templates options disk = [] ++ templates options disk := rfl
    exact outcome_visitAll h hstart (h.progress data)

section Again

variable (hprogress : Progress options data disk (pageTemplates options disk) new)

include hprogress

/-- A page that is there is built again without a change. -/
theorem buildPage_again (hpath : path ∈ pageTemplates options disk) :
    ∃ page, page? options path = some page ∧
      buildPage options data new path = (.ok page, new) := by
  obtain ⟨page, html, hpage, hrender, hwrite⟩ := hprogress.written path hpath
  obtain ⟨ns, -, -, hrelative, hsome⟩ := h.exists_page (mem_pageTemplates.mp hpath).1
  obtain rfl := Option.some.inj (hsome.symm.trans hpage)
  have hsame := h.render_eq (fun p hp => (mem_pageTemplates.mp hp).1) hprogress.grown hpath data
  refine ⟨_, hpage, ?_⟩
  rw [buildPage, hrelative]
  dsimp only
  rw [hsame, hrender]
  dsimp only
  rw [hwrite]

theorem visit_again (hpath : path ∈ templates options disk) (report : BuildReport) :
    ∃ report', visit options data new report path = (.ok report', new) ∧
      ∀ seen, report = reportOf options seen → report' = reportOf options (seen ++ [path]) := by
  rw [visit]
  cases hpartial : isPartial path with
  | true =>
      rw [if_pos rfl]
      refine ⟨_, rfl, ?_⟩
      rintro seen rfl
      exact (reportOf_concat_partial hpartial).symm
  | false =>
      obtain ⟨page, hpage, hbuild⟩ :=
        buildPage_again h hprogress (mem_pageTemplates.mpr ⟨hpath, hpartial⟩)
      rw [if_neg Bool.false_ne_true, hbuild]
      refine ⟨_, rfl, ?_⟩
      rintro seen rfl
      exact (reportOf_concat_page hpartial hpage).symm

theorem visitAll_again {seen rest : List Path} (hsplit : templates options disk = seen ++ rest) :
    visitAll options data new (reportOf options seen) rest =
      (.ok (reportOf options (templates options disk)), new) := by
  induction rest generalizing seen with
  | nil => rw [visitAll, hsplit, List.append_nil]
  | cons path rest ih =>
      have hpath : path ∈ templates options disk :=
        hsplit ▸ List.mem_append_right _ List.mem_cons_self
      obtain ⟨report', hvisit, hreport⟩ := visit_again h hprogress hpath (reportOf options seen)
      rw [visitAll, hvisit]
      dsimp only
      rw [hreport seen rfl]
      exact ih (by rw [hsplit, List.append_cons])

/-- **A second build** with all pages there changes nothing. -/
theorem run_again (hpath : path ∈ templates options disk)
    (hdata : Data.load disk options.data = .ok data) :
    run options new = (.ok (reportOf options (templates options disk)), new) := by
  have hpages : pageTemplates options disk ⊆ templates options disk :=
    fun p hp => (mem_pageTemplates.mp hp).1
  obtain ⟨here, node, inner, hfound, -⟩ := h.exists_isBelow hpath
  rcases h.pattern_cases with ⟨e, hpattern⟩ | ⟨last, hlast, hpattern⟩
  · rw [templates, hpattern] at hpath
    cases hpath
  · have hsame : templates options new = templates options disk :=
      templates_eq_of_grown h.wellFormed hlast hpattern hprogress.grown hprogress.wellFormed hfound
        fun m hm => h.here_eq hfound ▸ h.not_below_templatesDir hpath hpages m hm
    rw [run_eq_visitAll hprogress.wellFormed hlast hpattern
      (h.load_eq hpages hprogress.grown hdata) (P := fun later => later = new)
      (fun _ _ hthere later heq => heq ▸ hthere) ?_ rfl, hsame]
    · have hstart : templates options disk = [] ++ templates options disk := rfl
      exact visitAll_again h hprogress hstart
    · rintro path hmem later report report' next rfl hvisit
      rw [hsame] at hmem
      obtain ⟨report'', hagain, -⟩ := visit_again h hprogress hmem report
      exact (Prod.mk.inj (hvisit.symm.trans hagain)).2

end Again

/-- The order of the templates is that of their paths. -/
theorem Steady.pairwise_templates :
    (templates options disk).Pairwise fun p q => p.segments < q.segments := by
  rcases h.pattern_cases with ⟨e, hpattern⟩ | ⟨last, hlast, hpattern⟩
  · rw [templates, hpattern]
    exact .nil
  · exact Build.pairwise_templates h.wellFormed hlast hpattern

/-- A successful build has written all pages, and a second one changes nothing. -/
theorem progress_of_run (hrun : run options disk = (.ok report, new)) :
    report = reportOf options (templates options disk) ∧
      (∃ data, Data.load disk options.data = .ok data ∧
        Progress options data disk (pageTemplates options disk) new) ∧
      run options new = (.ok report, new) := by
  cases hdata : Data.load disk options.data with
  | error e =>
      rw [run, hdata] at hrun
      cases hrun
  | ok data =>
      obtain ⟨rfl, hprogress⟩ : report = reportOf options (templates options disk) ∧
          Progress options data disk (pageTemplates options disk) new := by
        have houtcome := outcome_run h hdata
        rw [hrun] at houtcome
        cases houtcome with
        | all hprogress => exact ⟨rfl, hprogress⟩
      refine ⟨rfl, ⟨data, rfl, hprogress⟩, ?_⟩
      cases htemplates : templates options disk with
      | nil =>
          -- nothing was written at all
          obtain rfl : new = disk := by
            rcases h.pattern_cases with ⟨e, hpattern⟩ | ⟨last, hlast, hpattern⟩
            · rw [run, hdata, hpattern] at hrun
              cases hrun
            · rw [h.run_eq hlast hpattern hdata, htemplates] at hrun
              exact (Prod.mk.inj hrun).2.symm
          rw [← htemplates]
          exact hrun
      | cons path paths =>
          rw [← htemplates]
          exact run_again h hprogress (htemplates ▸ List.mem_cons_self) hdata

/-- **Builds.**  When what a build reads does not lie where it writes, a successful build leaves
the page of every template that is no partial, rendered as on the disk of the start, and changes
nothing else; a second build then changes nothing at all.  A build that cannot render a template
leaves the pages of the templates before it and changes nothing else.  The templates come in the
order of their paths. -/
theorem complete_of_run :
    (templates options disk).Pairwise (fun p q => p.segments < q.segments) ∧
    (∀ report new, run options disk = (.ok report, new) →
      report = reportOf options (templates options disk) ∧
      (∃ data, Data.load disk options.data = .ok data ∧
        Complete options data disk (pageTemplates options disk) new) ∧
      run options new = (.ok report, new)) ∧
    ∀ template cause new, run options disk = (.error (.renderFailed template cause), new) →
      ∃ data before path after, Data.load disk options.data = .ok data ∧
        pageTemplates options disk = before ++ path :: after ∧
        relative? options path = some template ∧
        disk.source.render path data = .error cause ∧ Complete options data disk before new := by
  refine ⟨h.pairwise_templates, fun report new hrun => ?_, fun template cause new hrun => ?_⟩
  · obtain ⟨hreport, ⟨data, hdata, hprogress⟩, hagain⟩ := progress_of_run h hrun
    exact ⟨hreport, ⟨data, hdata, hprogress.complete⟩, hagain⟩
  · cases hdata : Data.load disk options.data with
    | error e =>
        rw [run, hdata] at hrun
        obtain ⟨he, -⟩ := Prod.mk.inj hrun
        obtain rfl := Except.error.inj he
        cases templateError?_of_load hdata
    | ok data =>
        have houtcome := outcome_run h hdata
        rw [hrun] at houtcome
        cases houtcome with
        | renderFailed hsplit hrelative hrender hprogress =>
            exact ⟨data, _, _, _, rfl, hsplit, hrelative, hrender, hprogress.complete⟩
        | other he => cases he

end Runs

/-- A site of two pages that include one partial. -/
theorem complete_of_run_of_blog :
    ∃ options disk report new, Steady options disk ∧ run options disk = (.ok report, new) ∧
      report.pages.length = 2 ∧ report.partials = 1 ∧
      (∃ data, Data.load disk options.data = .ok data ∧
        Complete options data disk (pageTemplates options disk) new) ∧
      run options new = (.ok report, new) := by
  let options : BuildOptions :=
    ⟨Path.ofString "views", Path.ofString "dist", none, "pdpug".toList⟩
  let disk := Disk.ofEntries [] [("views".toList, .directory [
    ("_nav.pdpug".toList, .file (.text "nav menu".toList)),
    ("blog".toList, .directory [
      ("post.pdpug".toList, .file (.text "@include \"../_nav.pdpug\"\np post".toList))]),
    ("index.pdpug".toList, .file (.text "@include \"_nav.pdpug\"\np home".toList))])]
  let reached := [Path.ofString "views/blog/../_nav.pdpug", Path.ofString "views/_nav.pdpug"]
  have hclosed : ∀ path ∈ reached, path.parent? ≠ none ∧ disk.source.includes path ⊆ reached := by
    decide +kernel
  have hpages : ∀ path ∈ pageTemplates options disk, disk.source.includes path ⊆ reached := by
    decide +kernel
  have hapart : Apart options disk := apart_of_reached reached rfl (by decide +kernel) hclosed
    hpages (by decide +kernel) (by decide +kernel)
  have hslash : '/' ∉ options.extension := by decide +kernel
  have hdir : options.templatesDir.text ≠ [] := by decide +kernel
  have hbelow : ∀ path ∈ pageTemplates options disk, ∀ page ∈ page? options path,
      ∀ before ∈ page.output.inner.dropLast.inits,
        ¬ disk.place options.templatesDir <+: Disk.placeFrom (disk.start page.output) before := by
    decide +kernel
  have hmade : ∀ l ∈ makes options disk, ¬ disk.place options.templatesDir <+: l := by
    rintro l ⟨path, hpath, page, hpage, ⟨before, hbefore, rfl⟩, -⟩
    exact hbelow path hpath page hpage before ((List.mem_inits _ _).mpr hbefore)
  have hthere : ∀ path ∈ reached, ∀ before ∈ path.inner.inits, before ≠ path.inner →
      disk.kind? (Disk.placeFrom (disk.start path) before) ≠ none := by
    decide +kernel
  have hways : ∀ path ∈ pageTemplates options disk, ∀ target, IsTarget disk path target →
      Disk.Avoids (makes options disk) (disk.start target) target.inner := by
    intro path hpath target htarget
    have hreached : target ∈ reached := mem_of_isTarget hclosed (hpages path hpath) htarget
    exact avoids_makes (hthere target hreached)
  have hsteady : Steady options disk := ⟨hapart, hslash, hdir, hmade, hways⟩
  obtain ⟨report, hreport, hcount⟩ : ∃ report, (run options disk).1 = .ok report ∧
      report.pages.length = 2 ∧ report.partials = 1 :=
    ⟨reportOf options (templates options disk), by decide +kernel⟩
  rcases hrun : run options disk with ⟨answer, new⟩
  obtain rfl : answer = .ok report := by rw [← hreport, hrun]
  obtain ⟨-, hcomplete, hagain⟩ := (complete_of_run hsteady).2.1 report new hrun
  exact ⟨options, disk, report, new, hsteady, hrun, hcount.1, hcount.2, hcomplete, hagain⟩

/-- Holds when a site is apart and yet a build that succeeds leaves a page that is not what its
template is rendered to on the disk of the start. -/
def IsSpoiled (options : BuildOptions) (disk : Disk) : Prop :=
  Apart options disk ∧ ∃ path page html, (run options disk).1.isOk = true ∧
    path ∈ pageTemplates options disk ∧ page? options path = some page ∧
    (run options disk).2.readText? page.output = some html ∧
    ∀ data, Data.load disk options.data = .ok data → disk.source.render path data ≠ .ok html

theorem isSpoiled_of_render (path : Path) (page : BuiltPage) (html : Text)
    (hapart : Apart options disk) (hdata : options.data = none)
    (h : (run options disk).1.isOk = true ∧ path ∈ pageTemplates options disk ∧
      page? options path = some page ∧ (run options disk).2.readText? page.output = some html ∧
      disk.source.render path [] ≠ .ok html) : IsSpoiled options disk := by
  obtain ⟨hok, hpath, hpage, hread, hrender⟩ := h
  refine ⟨hapart, path, page, html, hok, hpath, hpage, hread, fun data hload => ?_⟩
  rw [hdata] at hload
  obtain rfl := Except.ok.inj hload
  exact hrender

/-- Holds when a site is apart and yet a page is missing after a build, although it comes before the
first template that cannot be rendered. -/
def IsCutShort (options : BuildOptions) (disk : Disk) : Prop :=
  Apart options disk ∧ ∃ data before path after other page,
    Data.load disk options.data = .ok data ∧
    pageTemplates options disk = before ++ path :: after ∧
    (disk.source.render path data).isOk = false ∧
    (∀ earlier ∈ before, (disk.source.render earlier data).isOk = true) ∧
    other ∈ before ∧ page? options other = some page ∧
    (run options disk).2.readText? page.output = none

/-- What is apart can still meet: at an include that leads through a directory that the build makes,
in a template that a slash in the extension leads to on another way, in templates that are searched
for at the top of the disk, and at a directory that is made in the templates directory and taken for
a template. -/
theorem not_rendered_of_apart :
    IsSpoiled ⟨Path.ofString "views", Path.ofString "dist", none, "pdpug".toList⟩
      (Disk.ofEntries [] [("views".toList, .directory [
        ("_x.pdpug".toList, .file (.text "p x".toList)),
        ("a.pdpug".toList, .file (.text "p hello".toList)),
        ("b.pdpug".toList, .file (.text "@include \"../dist/../views/_x.pdpug\"".toList))])]) ∧
    IsSpoiled ⟨Path.ofString "views", Path.ofString "out", none, "d/../../*/*.html".toList⟩
      (Disk.ofEntries [] [("views".toList, .directory [
        ("a.html".toList, .file (.text "p a".toList)),
        ("b.html".toList, .file (.text "@include \"a.html\"".toList)),
        ("x.d".toList, Node.emptyDirectory)])]) ∧
    IsSpoiled ⟨Path.empty, Path.ofString "/out", none, "html".toList⟩
      (Disk.ofEntries ["site".toList] [
        ("a.html".toList, .file (.text "p a".toList)),
        ("b.html".toList, .file (.text "@include \"a.html\"".toList))]) ∧
    IsCutShort ⟨Path.ofString "views", Path.ofString "views/s/x.pdpug/../../../dist", none,
        "pdpug".toList⟩
      (Disk.ofEntries [] [("views".toList, .directory [
        ("a.pdpug".toList, .file (.text "p a".toList)),
        ("s".toList, .directory [
          ("y.pdpug".toList, .file (.text "p y".toList)),
          ("z.pdpug".toList, .file (.text "@include \"_none.pdpug\"".toList))])])]) := by
  refine ⟨?_, ?_, ?_, ?_⟩
  · refine isSpoiled_of_render (Path.ofString "views/b.pdpug")
      ⟨Path.ofString "b.pdpug", Path.ofString "dist/b.html"⟩ "<p>x\n</p>\n".toList ?_ rfl
      (by decide +kernel)
    exact apart_of_reached [Path.ofString "views/../dist/../views/_x.pdpug"] rfl (by decide +kernel)
      (by decide +kernel) (by decide +kernel) (by decide +kernel) (by decide +kernel)
  · refine isSpoiled_of_render (Path.ofString "views/x.d/../../views/b.html")
      ⟨Path.ofString "x.d/../../views/b.html", Path.ofString "out/x.d/../../views/b.html"⟩
      "<div><p>a\n</div>\n<div></p>\n</div>\n".toList ?_ rfl (by decide +kernel)
    exact apart_of_reached [Path.ofString "views/x.d/../../views/a.html"] rfl (by decide +kernel)
      (by decide +kernel) (by decide +kernel) (by decide +kernel) (by decide +kernel)
  · refine isSpoiled_of_render (Path.ofString "/site/b.html")
      ⟨Path.ofString "/site/b.html", Path.ofString "/site/b.html"⟩
      "<div><p>a\n</div>\n<div></p>\n</div>\n".toList ?_ rfl (by decide +kernel)
    exact apart_of_reached [Path.ofString "/site/a.html"] rfl (by decide +kernel)
      (by decide +kernel) (by decide +kernel) (by decide +kernel) (by decide +kernel)
  · refine ⟨apart_of_reached [Path.ofString "views/s/_none.pdpug"] rfl (by decide +kernel)
      (by decide +kernel) (by decide +kernel) (by decide +kernel) (by decide +kernel), [],
      [Path.ofString "views/a.pdpug", Path.ofString "views/s/y.pdpug"],
      Path.ofString "views/s/z.pdpug", [], Path.ofString "views/s/y.pdpug",
      ⟨Path.ofString "s/y.pdpug", Path.ofString "views/s/x.pdpug/../../../dist/s/y.html"⟩, rfl, ?_⟩
    decide +kernel

end Build

end IndentHtml
