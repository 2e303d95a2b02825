import IndentHtml.Proofs.Agreeing
import IndentHtml.Proofs.Outputs
import IndentHtml.Proofs.Templates
import IndentHtml.Proofs.Writing
import Mathlib.Data.List.Infix

/-!
# Templates apart from their pages

A build reads its templates from the tree that it writes its pages to.  A site is `Build.Apart` when
the output directory is not in the templates directory, nothing that is read lies in the output
directory, and no two pages have one path.

Being apart is not enough.  A path leads through directories that exist, so a directory that a build
makes on the way to a page can open a way: an include that leads through it finds nothing before
and its target afterwards.  A directory that is made in the templates directory can be taken for a
template.  And two spellings of the settings let the search leave the templates directory: an
extension with a slash, and no templates directory at all.  A site is `Build.Steady` when it is
apart and none of this occurs.

**What stays.**  On a steady site the templates are rendered as before, whatever pages were written
(`Build.Steady.render_eq`), and the data file is as it was (`Build.Steady.load_eq`).
-/

namespace IndentHtml

/-- On a grown disk a file that was there before, and in whose place none was written, is read as
before. -/
theorem Disk.Grown.agreeAt {files directories : Set (List Text)} {old new : Disk}
    (h : Disk.Grown files directories old new) {p : Path} (hfile : new.isFile p = old.isFile p)
    (hp : old.place p ∉ files) : old.source.AgreeAt new.source p where
  isFile := hfile
  canonical hold := by
    obtain ⟨content, hcontent⟩ := isFile_eq_true.mp hold
    obtain ⟨l, hl, -⟩ := Option.bind_eq_some_iff.mp hcontent
    show new.canonical p = old.canonical p
    rw [canonical, canonical, hl, h.locate? hl]
  read hold := by
    obtain ⟨content, hcontent⟩ := isFile_eq_true.mp hold
    exact readTemplate_congr (h.kindOf?_eq (by rw [hcontent]; nofun) hp)

namespace Build

open IndentHtml.Path (IsName)
open Candidate (IsBelow)

/-! ### Pages and places -/

/-- The page of a template that was found. -/
def page? (options : BuildOptions) (path : Path) : Option BuiltPage :=
  (relative? options path).map fun template => ⟨template, outputOf options template⟩

/-- The templates that have pages: those that are not partials. -/
def pageTemplates (options : BuildOptions) (disk : Disk) : List Path :=
  (templates options disk).filter fun path => !isPartial path

/-- The report on templates: their pages, and how many of them are partials. -/
def reportOf (options : BuildOptions) (paths : List Path) : BuildReport :=
  ⟨(paths.filter fun path => !isPartial path).filterMap (page? options), paths.countP isPartial⟩

/-- The places of the pages of templates. -/
def outputPlaces (options : BuildOptions) (disk : Disk) (paths : List Path) : Set (List Text) :=
  {l | ∃ path ∈ paths, ∃ page, page? options path = some page ∧ l = disk.place page.output}

/-- The directories that a build makes: those that are missing on the ways to its pages. -/
def makes (options : BuildOptions) (disk : Disk) : Set (List Text) :=
  {l | ∃ path ∈ pageTemplates options disk, ∃ page, page? options path = some page ∧
    l ∈ disk.missingFor page.output}

/-- Holds of the targets of includes that a template leads to. -/
def IsTarget (disk : Disk) (path target : Path) : Prop :=
  ∃ content trail, disk.source.read path = .ok content ∧
    disk.source.Trail (Text.lines content) (path.parent?.getD Path.empty) trail ∧ target ∈ trail

/-- Holds when what a build reads does not lie where it writes.  A path lies in a directory when its
place does. -/
structure Apart (options : BuildOptions) (disk : Disk) : Prop where
  wellFormed : disk.root.WellFormed
  outputDir : ¬ disk.place options.templatesDir <+: disk.place options.outputDir
  templates : ∀ path ∈ templates options disk,
    ¬ disk.place options.outputDir <+: disk.place path
  targets : ∀ path ∈ pageTemplates options disk, ∀ target, IsTarget disk path target →
    ¬ disk.place options.outputDir <+: disk.place target
  data : ∀ path ∈ options.data, ¬ disk.place options.outputDir <+: disk.place path
  /-- The paths of the pages are pairwise different. -/
  outputs : ((pageTemplates options disk).filterMap (page? options)).Pairwise
    fun page other => page.output ≠ other.output

/-- Holds when, in addition, what a build makes opens no way to anything else. -/
structure Steady (options : BuildOptions) (disk : Disk) : Prop extends Apart options disk where
  /-- A slash would let the search for templates leave the templates directory. -/
  extension : '/' ∉ options.extension
  /-- The search takes the empty path for the top of the disk. -/
  templatesDir : options.templatesDir.text ≠ []
  /-- No directory is made in the templates directory. -/
  made : ∀ l ∈ makes options disk, ¬ disk.place options.templatesDir <+: l
  /-- No include leads through a directory that is made. -/
  targetWays : ∀ path ∈ pageTemplates options disk, ∀ target, IsTarget disk path target →
    Disk.Avoids (makes options disk) (disk.start target) target.inner

/-- Holds when the pages of templates are on a new disk, rendered as on the old one, and nothing
else has changed but that missing directories were made. -/
structure Complete (options : BuildOptions) (data : Data) (disk : Disk) (paths : List Path)
    (new : Disk) : Prop where
  pages : ∀ path ∈ paths, ∃ page html, page? options path = some page ∧
    disk.source.render path data = .ok html ∧ new.readText? page.output = some html
  others : ∀ l, l ∉ outputPlaces options disk paths →
    new.kind? l = disk.kind? l ∨ disk.kind? l = none ∧ new.kind? l = some .directory

variable {options : BuildOptions} {data : Data} {disk new later : Disk} {path : Path}
  {paths more : List Path} {report : BuildReport}

theorem mem_pageTemplates :
    path ∈ pageTemplates options disk ↔ path ∈ templates options disk ∧ isPartial path = false := by
  rw [pageTemplates, List.mem_filter, Bool.not_eq_true']

theorem outputPlaces_mono (h : paths ⊆ more) :
    outputPlaces options disk paths ⊆ outputPlaces options disk more := by
  rintro l ⟨path, hpath, hpage⟩
  exact ⟨path, h hpath, hpage⟩

/-- **A page that is written** is put at its place, and directories are made that were missing. -/
theorem grown_writePage {files : Set (List Text)}
    (hgrown : Disk.Grown files (makes options disk) disk new)
    (hpath : path ∈ pageTemplates options disk) {page : BuiltPage}
    (hpage : page? options path = some page) {html : Text}
    (hwrite : new.writePage page.output html = (.ok (), later)) :
    Disk.Grown {disk.place page.output} (makes options disk) new later := by
  have hstep := Disk.grown_of_writePage hwrite
  rw [hgrown.place_eq] at hstep
  exact hstep.mono subset_rfl fun l hl =>
    ⟨path, hpath, page, hpage, hgrown.missingFor_subset page.output hl⟩

/-! ### Where templates and pages are -/

namespace Steady

variable (h : Steady options disk)

include h

/-- The pattern of a build, if it can be read. -/
theorem pattern_cases :
    (∃ e, PathPattern.ofText options.patternText = .error e) ∨
      ∃ last, GlobPattern.IsSuffix last ∧
        PathPattern.ofText options.patternText = .ok (options.patternFor last) := by
  cases hpattern : PathPattern.ofText options.patternText with
  | error e => exact .inl ⟨e, rfl⟩
  | ok pattern =>
      obtain ⟨last, -, hlast, rfl⟩ := BuildOptions.pattern_eq_of_ofText h.extension hpattern
      exact .inr ⟨last, hlast, rfl⟩

theorem exists_isBelow (hpath : path ∈ Build.templates options disk) :
    ∃ here node inner, Found options disk here node ∧
      IsBelow disk.root options.searchBase here (path, inner) := by
  rcases h.pattern_cases with ⟨e, hpattern⟩ | ⟨last, hlast, hpattern⟩
  · rw [Build.templates, hpattern] at hpath
    cases hpath
  · exact exists_isBelow_of_mem_templates h.wellFormed hlast hpattern hpath

theorem start_searchBase {here : List Text} {node : Node} (hfound : Found options disk here node)
    (new : Disk) : new.start options.searchBase = new.start options.templatesDir := by
  rw [Disk.start, Disk.start, hfound.absolute, BuildOptions.isAbsolute_searchStart h.templatesDir]

theorem here_eq {here : List Text} {node : Node} (hfound : Found options disk here node) :
    here = disk.place options.templatesDir := by
  rw [(Disk.eq_place_of_locate? hfound.located).1, Disk.place, h.start_searchBase hfound,
    hfound.inner]
  rfl

/-- **A template has a page**, whose names are told by those of the template. -/
theorem exists_names (hpath : path ∈ Build.templates options disk) :
    ∃ ns, ns ≠ [] ∧ (∀ n ∈ ns, IsName n) ∧
      disk.place path = disk.place options.templatesDir ++ ns ∧
      relative? options path = some (Path.ofSegments ns) := by
  obtain ⟨here, node, inner, hfound, ns, hne, hns, hpathEq, -⟩ := h.exists_isBelow hpath
  replace hpathEq : path = Candidate.under options.searchBase ns := hpathEq
  have habs : options.searchBase.isAbsolute = options.templatesDir.isAbsolute := by
    rw [hfound.absolute, BuildOptions.isAbsolute_searchStart h.templatesDir]
  refine ⟨ns, hne, hns, ?_, hpathEq ▸ relative?_under hfound.base hfound.inner habs hns hne⟩
  have hstart : disk.start path = disk.start options.templatesDir := by
    rw [hpathEq, Disk.start, Candidate.isAbsolute_under hfound.base hns hne, habs]
    rfl
  rw [Disk.place, hstart, hpathEq, Candidate.inner_under hfound.base hns hne, hfound.inner,
    Disk.placeFrom_append, Disk.placeFrom_names]
  rfl

theorem exists_page (hpath : path ∈ Build.templates options disk) :
    ∃ ns, ns ≠ [] ∧ (∀ n ∈ ns, IsName n) ∧ relative? options path = some (Path.ofSegments ns) ∧
      page? options path =
        some ⟨Path.ofSegments ns, outputOf options (Path.ofSegments ns)⟩ := by
  obtain ⟨ns, hne, hns, -, hrelative⟩ := h.exists_names hpath
  exact ⟨ns, hne, hns, hrelative, by rw [page?, hrelative]; rfl⟩

/-- **The places of pages** are below the output directory. -/
theorem below_outputDir (hpaths : paths ⊆ Build.templates options disk) {l : List Text}
    (hl : l ∈ outputPlaces options disk paths) : disk.place options.outputDir <+: l := by
  obtain ⟨path, hpath, page, hpage, rfl⟩ := hl
  obtain ⟨ns, hne, hns, -, hsome⟩ := h.exists_page (hpaths hpath)
  obtain rfl := Option.some.inj (hsome.symm.trans hpage)
  rw [place_outputOf hne hns]
  exact List.prefix_append _ _

theorem not_mem_outputPlaces (hpaths : paths ⊆ Build.templates options disk) {p : Path}
    (hp : ¬ disk.place options.outputDir <+: disk.place p) :
    disk.place p ∉ outputPlaces options disk paths :=
  fun hmem => hp (h.below_outputDir hpaths hmem)

/-- Pages at one place come from one template. -/
theorem place_ne {before after : List Path} {other : Path}
    (hsplit : pageTemplates options disk = before ++ path :: after) (hother : other ∈ before)
    {page otherPage : BuiltPage} (hpage : page? options path = some page)
    (hotherPage : page? options other = some otherPage) :
    disk.place otherPage.output ≠ disk.place page.output := by
  have hpairwise := List.pairwise_filterMap.mp h.outputs
  rw [hsplit] at hpairwise
  have hne := (List.pairwise_append.mp hpairwise).2.2 other hother path List.mem_cons_self
    otherPage hotherPage page hpage
  have hmem : ∀ p, p ∈ before ++ path :: after → p ∈ Build.templates options disk := fun p hp =>
    (mem_pageTemplates.mp (hsplit ▸ hp)).1
  obtain ⟨ns, hnsne, hns, -, hsome⟩ :=
    h.exists_page (hmem path (List.mem_append_right _ List.mem_cons_self))
  obtain ⟨ms, hmsne, hms, -, hotherSome⟩ :=
    h.exists_page (hmem other (List.mem_append_left _ hother))
  obtain rfl := Option.some.inj (hsome.symm.trans hpage)
  obtain rfl := Option.some.inj (hotherSome.symm.trans hotherPage)
  exact fun hplace => hne (outputOf_eq_of_place_eq hmsne hms hnsne hns hplace)

/-! ### What stays -/

/-- Nothing is written in the templates directory. -/
theorem not_below_templatesDir (hpath : path ∈ Build.templates options disk)
    (hpaths : paths ⊆ Build.templates options disk) :
    ∀ m ∈ outputPlaces options disk paths ∪ makes options disk,
      ¬ disk.place options.templatesDir <+: m := by
  obtain ⟨ns, -, -, hplace, -⟩ := h.exists_names hpath
  rintro m (hm | hm)
  · -- the one directory would be below the other
    intro htemplates
    rcases List.prefix_or_prefix_of_prefix htemplates (h.below_outputDir hpaths hm) with
      habove | habove
    · exact h.outputDir habove
    · exact h.templates path hpath (hplace ▸ habove.trans (List.prefix_append _ _))
  · exact h.made m hm

section Grown

variable (hpaths : paths ⊆ Build.templates options disk)
  (hgrown : Disk.Grown (outputPlaces options disk paths) (makes options disk) disk new)

include hpaths hgrown

theorem found_grown (hpath : path ∈ Build.templates options disk) {here : List Text} {node : Node}
    (hfound : Found options disk here node) : Found options new here node :=
  hfound.grown hgrown fun m hm => h.here_eq hfound ▸ h.not_below_templatesDir hpath hpaths m hm

/-- Templates are as they were. -/
theorem node?_eq (hpath : path ∈ Build.templates options disk) :
    new.node? path = disk.node? path := by
  obtain ⟨here, node, inner, hfound, hbelow⟩ := h.exists_isBelow hpath
  have hnew := h.found_grown hpaths hgrown hpath hfound
  rcases hfound.holds hbelow with husable | hold
  · rw [Candidate.node?_of_isUnusable husable, Candidate.node?_of_isUnusable husable]
  · rcases hnew.holds (hfound.isBelow hnew hbelow) with husable | hthere
    · rw [Candidate.node?_of_isUnusable husable, Candidate.node?_of_isUnusable husable]
    · exact hthere.trans hold.symm

/-- **Templates are rendered as before**, whatever pages were written. -/
theorem render_eq (hpath : path ∈ pageTemplates options disk) (data : Data) :
    new.source.render path data = disk.source.render path data := by
  have hmem := (mem_pageTemplates.mp hpath).1
  have hfile : new.isFile path = disk.isFile path := by
    rw [Disk.isFile, Disk.isFile, h.node?_eq hpaths hgrown hmem]
  refine Source.render_congr data
    (hgrown.agreeAt hfile (h.not_mem_outputPlaces hpaths (h.templates path hmem)))
    fun content hread trail htrail target htarget => ?_
  have hreached : IsTarget disk path target := ⟨content, trail, hread, htrail, htarget⟩
  have hplace := h.not_mem_outputPlaces hpaths (h.targets path hpath target hreached)
  exact hgrown.agreeAt (hgrown.isFile_eq hplace (h.targetWays path hpath target hreached)) hplace

/-- The data file is as it was. -/
theorem load_eq (hdata : Data.load disk options.data = .ok data) :
    Data.load new options.data = .ok data := by
  cases hfile : options.data with
  | none =>
      rw [hfile] at hdata
      exact hdata
  | some p =>
      rw [hfile] at hdata
      cases ht : disk.readText? p with
      | none =>
          rw [Data.load, ht] at hdata
          cases hdata
      | some t =>
          have hkind := Disk.readText?_eq_some.mp ht
          have hnew : new.readText? p = some t := by
            rw [Disk.readText?_eq_some, ← hkind]
            exact hgrown.kindOf?_eq (by rw [hkind]; nofun)
              (h.not_mem_outputPlaces hpaths (h.data p hfile))
          rw [Data.load, ht] at hdata
          rw [Data.load, hnew]
          exact hdata

end Grown

end Steady

/-! ### Checking sites -/

/-- The targets of includes are in a list of paths with all that they include. -/
theorem mem_of_isTarget {reached : List Path}
    (hclosed : ∀ path ∈ reached, path.parent? ≠ none ∧ disk.source.includes path ⊆ reached)
    (hpath : disk.source.includes path ⊆ reached) {target : Path}
    (h : IsTarget disk path target) : target ∈ reached := by
  obtain ⟨content, trail, hread, htrail, htarget⟩ := h
  exact Source.mem_of_mem_trail hclosed
    (fun line hline t ht => hpath (Source.mem_includes hread hline ht)) htrail target htarget

/-- Without data, a site is apart from its pages when its templates and all that they include
are. -/
theorem apart_of_reached (reached : List Path) (hdata : options.data = none)
    (hwell : disk.root.isWellFormed = true)
    (hclosed : ∀ path ∈ reached, path.parent? ≠ none ∧ disk.source.includes path ⊆ reached)
    (hpages : ∀ path ∈ pageTemplates options disk, disk.source.includes path ⊆ reached)
    (hplaces : ¬ disk.place options.templatesDir <+: disk.place options.outputDir ∧
      ∀ path ∈ templates options disk ++ reached,
        ¬ disk.place options.outputDir <+: disk.place path)
    (houtputs : ((pageTemplates options disk).filterMap (page? options)).Pairwise
      fun page other => page.output ≠ other.output) : Apart options disk where
  wellFormed := Node.wellFormed_of_isWellFormed hwell
  outputDir := hplaces.1
  templates path hpath := hplaces.2 path (List.mem_append_left _ hpath)
  targets path hpath _ htarget := hplaces.2 _
    (List.mem_append_right _ (mem_of_isTarget hclosed (hpages path hpath) htarget))
  data path hpath := by
    rw [hdata] at hpath
    cases hpath
  outputs := houtputs

/-- Nothing is made on a way along which all is there. -/
theorem avoids_makes {here : List Text} {cs : List Path.Component}
    (h : ∀ before ∈ cs.inits, before ≠ cs → disk.kind? (Disk.placeFrom here before) ≠ none) :
    Disk.Avoids (makes options disk) here cs := by
  rintro before after rfl hne ⟨path, -, page, -, -, hmissing⟩
  exact h before ((List.mem_inits _ _).mpr (List.prefix_append _ _)) (by simpa using hne) hmissing

end Build

end IndentHtml
