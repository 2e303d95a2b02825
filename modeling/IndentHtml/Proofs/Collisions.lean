import Mathlib.Tactic.TFAE
import IndentHtml.Proofs.Building
import IndentHtml.Proofs.Outputs
import IndentHtml.Proofs.Writing

/-!
# Templates with one page

The page of a template has the stem of its name.  A dot at the front of a name starts no extension,
so `.pug` is all stem and its page is `.pug.html`, which is the page of `.pug.pug` too.

**Two templates of a build have one page** just when they are such a pair in one directory, or the
same template (`Build.outputs_tfae_of_run`).  The build may write its pages where it still looks
for templates, so what is found is not told by the disk it starts from.  What holds of a candidate
on every disk is how its path is spelled: by segments of the templates directory and then by names
(`Candidate.OnWay`).  A step keeps this on the disk it is taken on (`Candidate.onWay_look`), and so
all pages of a run are pages of paths spelled like that (`Build.spelled_of_run`).
-/

namespace IndentHtml

namespace Path

variable {extension stem other : Text}

theorem ofSegments_segments (p : Path) : ofSegments p.segments = p :=
  congrArg Path.mk (List.intercalate_splitOn '/')

theorem eq_of_segments_eq {p q : Path} (h : p.segments = q.segments) : p = q := by
  rw [← ofSegments_segments p, h, ofSegments_segments]

/-! ### Names of pages -/

theorem pageName_append (hdot : '.' ∉ extension) (hstem : stem ≠ []) :
    pageName (stem ++ '.' :: extension) = stem ++ '.' :: "html".toList := by
  rw [pageName, splitExtension_append hdot hstem]

/-- A name that is a dot and the extension alone is all stem. -/
theorem pageName_dot (hdot : '.' ∉ extension) :
    pageName ('.' :: extension) = '.' :: extension ++ '.' :: "html".toList := by
  have hcut : Text.cut? '.' ('.' :: extension).reverse = some (extension.reverse, []) := by
    rw [List.reverse_cons]
    exact Text.cut?_append (mt List.mem_reverse.mp hdot) []
  rw [pageName, splitExtension, hcut]
  rfl

/-- **Names with one page** are the same, or the extension with its dot, once and twice. -/
theorem pageName_eq_iff (hdot : '.' ∉ extension) :
    pageName (stem ++ '.' :: extension) = pageName (other ++ '.' :: extension) ↔
      stem = other ∨ (stem = [] ∧ other = '.' :: extension) ∨
        (other = [] ∧ stem = '.' :: extension) := by
  by_cases hstem : stem = []
  · by_cases hother : other = []
    · simp [hstem, hother]
    · subst hstem
      rw [List.nil_append, pageName_dot hdot, pageName_append hdot hother,
        List.append_left_inj]
      simp [hother, eq_comm]
  · by_cases hother : other = []
    · subst hother
      rw [List.nil_append, pageName_dot hdot, pageName_append hdot hstem,
        List.append_left_inj]
      simp [hstem]
    · rw [pageName_append hdot hstem, pageName_append hdot hother, List.append_left_inj]
      simp [hstem, hother]

end Path

namespace Candidate

open IndentHtml.Path (IsName)

variable {start : Path} {ts : List Text} {last : GlobPattern} {disk : Disk}

/-! ### What a search comes to -/

/-- Holds of segments that a search has followed from where it starts: they lead to a base, which
they spell. -/
structure Reached (start : Path) (ts : List Text) : Prop where
  base : IsBase (under start ts)
  inner : (under start ts).inner = start.inner ++ ts.filterMap Path.innerComponent?
  absolute : (under start ts).isAbsolute = start.isAbsolute

theorem reached_nil (h : IsBase start) : Reached start [] :=
  ⟨h, (List.append_nil _).symm, rfl⟩

theorem Reached.concat (h : Reached start ts) {t : Text} (ht : '/' ∉ t)
    (hgo : goes disk (under start ts) t = true) : Reached start (ts ++ [t]) := by
  have htext : (under start ts).text ≠ [] := by
    rcases h.base with hhere | ⟨htext, -⟩
    · rw [hhere]
      exact List.cons_ne_nil _ _
    · exact htext
  constructor
  · rw [under_concat]
    exact isBase_below h.base ht hgo
  · rw [under_concat, inner_below ht, h.inner, List.filterMap_append, List.append_assoc]
    cases hc : Path.innerComponent? t with
    | none => rw [List.filterMap_cons_none hc]; rfl
    | some c => rw [List.filterMap_cons_some hc]; rfl
  · rw [under_concat, isAbsolute_below htext ht, h.absolute]

/-- Holds of a candidate on the way of a search: a name that may be the next segment of the base, or
names below the base. -/
inductive OnWay (start : Path) (ts : List Text) (last : GlobPattern) : Candidate → Prop
  | toward {before after : List Text} {t name : Text} (hts : ts = before ++ t :: after)
      (hname : IsName name) (hreached : name = t → Reached start (before ++ [t])) :
    OnWay start ts last ⟨below (under start before) name,
      GlobPattern.exactly t :: (after.map GlobPattern.exactly ++ [[.anyDirectories], last])⟩
  | within {ns : List Text} (hbase : Reached start ts) (hne : ns ≠ [])
      (hns : ∀ n ∈ ns, IsName n) : OnWay start ts last (deep last (under (under start ts) ns))

/-- The segments of the base are followed to candidates on the way. -/
theorem onWay_ofPath (hdisk : disk.root.WellFormed) (hslash : ∀ t ∈ ts, '/' ∉ t)
    {before after : List Text} (hts : ts = before ++ after) (h : Reached start before) :
    ∀ c ∈ ofPath disk (under start before)
        (after.map GlobPattern.exactly ++ [[.anyDirectories], last]),
      OnWay start ts last c := by
  induction after generalizing before with
  | nil =>
      obtain rfl : ts = before := by rw [hts, List.append_nil]
      have hbelow : ofPath disk (under start ts) [[.anyDirectories], last] =
          (disk.names (under start ts)).map fun name =>
            deep last (below (under start ts) name) :=
        ofPath_of_wild rfl fun h => absurd h (by decide)
      intro c hc
      rw [List.map_nil, List.nil_append, hbelow] at hc
      obtain ⟨name, hname, rfl⟩ := List.mem_map.mp hc
      have hwithin : OnWay start ts last (deep last (under (under start ts) [name])) :=
        .within h (List.cons_ne_nil _ _)
          (List.forall_mem_singleton.mpr ((Disk.names_of_wellFormed hdisk _).2.1 name hname))
      exact hwithin
  | cons t after ih =>
      have ht : '/' ∉ t := hslash t (hts ▸ List.mem_append_right _ List.mem_cons_self)
      have hmore : ts = (before ++ [t]) ++ after := by rw [hts]; simp
      intro c hc
      rw [List.map_cons, List.cons_append] at hc
      cases hwild : t.any GlobPattern.isWild with
      | false =>
          rw [ofPath_of_plain disk _ hwild] at hc
          split at hc
          · next hgo =>
              rw [← under_concat] at hc
              exact ih hmore (h.concat ht hgo) c hc
          · cases hc
      | true =>
          rw [ofPath_of_isWild hwild] at hc
          obtain ⟨name, hname, rfl⟩ := List.mem_map.mp hc
          refine .toward hts ((Disk.names_of_wellFormed hdisk _).2.1 name hname) ?_
          rintro rfl
          have hgo : goes disk (under start before) name = true := by
            rw [goes, hwild, if_pos rfl]
            exact List.contains_iff_mem.mpr hname
          exact h.concat ht hgo

/-- Holds of a path that names lead to from the base, and whose last name is one that is searched
for. -/
def IsSpelled (start : Path) (ts : List Text) (last : GlobPattern) (path : Path) : Prop :=
  Reached start ts ∧ ∃ ns, ns ≠ [] ∧ (∀ n ∈ ns, IsName n) ∧ path = under (under start ts) ns ∧
    ∃ name, path.fileName? = some name ∧ last.holds name = true

/-- **A look at a candidate on the way** finds a path below the base, and what it leads to is on the
way, whatever the disk holds. -/
theorem onWay_look (hlast : last.IsSuffix) (hdisk : disk.root.WellFormed)
    (hslash : ∀ t ∈ ts, '/' ∉ t) {c : Candidate} (h : OnWay start ts last c) :
    (∀ path, (c.look disk false).1 = some path → IsSpelled start ts last path) ∧
      ∀ d ∈ (c.look disk false).2, OnWay start ts last d := by
  cases h with
  | @toward before after t name hts hname hreached =>
      -- only the name that is spelled like the segment leads on
      by_cases heq : name = t
      · subst heq
        rw [look_exactly hname (by simp), ← under_concat]
        refine ⟨(fun _ hpath => by cases hpath), onWay_ofPath hdisk hslash ?_ (hreached rfl)⟩
        rw [hts, List.append_assoc, List.singleton_append]
      · rw [dead_of_ne hname heq _ disk false]
        exact ⟨(fun _ hpath => by cases hpath), List.forall_mem_nil _⟩
  | @within ns hbase hne hns =>
      rw [look_deep hlast]
      refine ⟨fun path hpath => ?_, fun d hd => ?_⟩
      · dsimp only at hpath
        rw [found] at hpath
        split at hpath
        · next hfile =>
            obtain rfl := Option.some.inj hpath
            exact ⟨hbase, ns, hne, hns, rfl, (Option.any_eq_true last.holds _).mp hfile⟩
        · cases hpath
      · obtain ⟨name, hname, rfl⟩ := List.mem_map.mp hd
        rw [← under_concat]
        refine .within hbase (by simp) (List.forall_mem_append.mpr ⟨hns, ?_⟩)
        exact List.forall_mem_singleton.mpr ((Disk.names_of_wellFormed hdisk _).2.1 name hname)

end Candidate

namespace Build

open Candidate (IsSpelled OnWay)
open IndentHtml.Path (IsName)

variable {options : BuildOptions} {data : Data} {disk new : Disk} {report : BuildReport}
  {last : GlobPattern}

/-! ### The pages of a run -/

/-- Holds of the page of a path that a search for the templates may find. -/
def IsFoundPage (options : BuildOptions) (last : GlobPattern) (page : BuiltPage) : Prop :=
  ∃ path, IsSpelled options.searchStart options.dirParts last path ∧
    relative? options path = some page.template ∧ page.output = outputOf options page.template

theorem isFoundPage_of_buildPage {path : Path} {page : BuiltPage} (hdisk : disk.root.WellFormed)
    (hpath : IsSpelled options.searchStart options.dirParts last path)
    (h : buildPage options data disk path = (.ok page, new)) :
    new.root.WellFormed ∧ IsFoundPage options last page := by
  rw [buildPage] at h
  split at h
  · cases h
  · next template hrelative =>
      split at h
      · cases h
      · dsimp only at h
        split at h
        · next written hwrite =>
            obtain ⟨hpage, rfl⟩ := Prod.mk.inj h
            obtain rfl := Except.ok.inj hpage
            exact ⟨Disk.wellFormed_of_writePage hwrite hdisk, path, hpath, hrelative, rfl⟩
        · cases h

/-- Dealing with a template keeps the disk well formed and adds no other pages. -/
theorem isFoundPage_of_visit {path : Path} {report' : BuildReport} (hdisk : disk.root.WellFormed)
    (hpath : IsSpelled options.searchStart options.dirParts last path)
    (hpages : ∀ page ∈ report.pages, IsFoundPage options last page)
    (h : visit options data disk report path = (.ok report', new)) :
    new.root.WellFormed ∧ ∀ page ∈ report'.pages, IsFoundPage options last page := by
  rw [visit] at h
  split at h
  · obtain ⟨hreport, rfl⟩ := Prod.mk.inj h
    obtain rfl := Except.ok.inj hreport
    exact ⟨hdisk, hpages⟩
  · split at h
    · next page written hbuilt =>
        obtain ⟨hreport, rfl⟩ := Prod.mk.inj h
        obtain rfl := Except.ok.inj hreport
        obtain ⟨hwell, hpage⟩ := isFoundPage_of_buildPage hdisk hpath hbuilt
        exact ⟨hwell, List.forall_mem_append.mpr ⟨hpages, List.forall_mem_singleton.mpr hpage⟩⟩
    · cases h

/-- A search whose candidates are on the way finds only such pages, whatever is written between its
steps. -/
theorem isFoundPage_of_buildAll (hlast : last.IsSuffix) {steps : Nat} {cs : List Candidate}
    {report' : BuildReport} (hdisk : disk.root.WellFormed)
    (hcs : ∀ c ∈ cs, OnWay options.searchStart options.dirParts last c)
    (hpages : ∀ page ∈ report.pages, IsFoundPage options last page)
    (h : buildAll options data steps disk ⟨false, cs⟩ report = (.ok report', new)) :
    ∀ page ∈ report'.pages, IsFoundPage options last page := by
  induction steps generalizing disk cs report with
  | zero =>
      obtain ⟨hreport, -⟩ := Prod.mk.inj h
      exact Except.ok.inj hreport ▸ hpages
  | succ steps ih =>
      cases cs with
      | nil =>
          rw [buildAll_nil] at h
          obtain ⟨hreport, -⟩ := Prod.mk.inj h
          exact Except.ok.inj hreport ▸ hpages
      | cons c cs =>
          obtain ⟨hc, hmore⟩ := List.forall_mem_cons.mp hcs
          obtain ⟨hfound, hinside⟩ :=
            Candidate.onWay_look hlast hdisk BuildOptions.slash_not_mem_dirParts hc
          have hrest := List.forall_mem_append.mpr ⟨hinside, hmore⟩
          rw [buildAll, Search.next?] at h
          dsimp only at h
          cases hlook : (c.look disk false).1 with
          | none =>
              rw [hlook] at h
              exact ih hdisk hrest hpages h
          | some path =>
              rw [hlook] at h
              dsimp only at h
              split at h
              · next report'' disk' hvisit =>
                  obtain ⟨hwell, hmore⟩ :=
                    isFoundPage_of_visit hdisk (hfound path hlook) hpages hvisit
                  exact ih hwell hrest hmore h
              · cases h

/-- **The pages of a run** are those of paths that the search for the templates may find. -/
theorem isFoundPage_of_run (hdisk : disk.root.WellFormed) (hslash : '/' ∉ options.extension)
    (h : run options disk = (.ok report, new)) :
    ∃ last, GlobPattern.ofText ('*' :: '.' :: options.extension) = .ok last ∧
      ∀ page ∈ report.pages, IsFoundPage options last page := by
  rw [run] at h
  split at h
  · cases h
  · split at h
    · cases h
    · next pattern hpattern =>
        obtain ⟨last, hread, hlast, rfl⟩ := BuildOptions.pattern_eq_of_ofText hslash hpattern
        have hreached := Candidate.reached_nil options.isBase_searchStart
        have hstart : ∀ c ∈ (Search.start disk (options.patternFor last)).candidates,
            OnWay options.searchStart options.dirParts last c :=
          Candidate.onWay_ofPath hdisk BuildOptions.slash_not_mem_dirParts
            (List.nil_append options.dirParts).symm hreached
        exact ⟨last, hread, isFoundPage_of_buildAll hlast hdisk hstart (List.forall_mem_nil _) h⟩

/-! ### How templates and pages are spelled -/

/-- How the template of names below the templates directory and its page are spelled: the names
stand behind fixed segments, and the page is at a fixed place. -/
structure Spelling (options : BuildOptions) (disk : Disk) (lead pre here ns : List Text)
    (template : Path) : Prop where
  segments : template.segments = lead ++ ns
  page : (outputOf options template).segments = pre ++ pageNames ns
  place : disk.place (outputOf options template) = here ++ pageNames ns

theorem inner_searchStart (options : BuildOptions) : options.searchStart.inner = [] := by
  rw [BuildOptions.searchStart]
  cases options.fromTop <;> rfl

/-- Below a templates directory a template is spelled by its names. -/
theorem exists_spelling_of_dir (hdir : options.templatesDir.text ≠ []) (disk : Disk) :
    ∃ pre, ∀ ns, ns ≠ [] → (∀ n ∈ ns, IsName n) →
      Candidate.Reached options.searchStart options.dirParts →
      ∃ template, relative? options (Candidate.under options.searchBase ns) = some template ∧
        Spelling options disk [] pre (disk.place options.outputDir) ns template := by
  obtain ⟨pre, -, hpages⟩ := exists_outputOf_eq options
  refine ⟨pre, fun ns hne hns hreached => ⟨Path.ofSegments ns, ?_, ?_⟩⟩
  · have hinner := hreached.inner
    rw [inner_searchStart, List.nil_append, options.filterMap_dirParts] at hinner
    exact relative?_under hreached.base hinner
      (hreached.absolute.trans (BuildOptions.isAbsolute_searchStart hdir)) hns hne
  · exact ⟨Path.segments_ofSegments hne fun n hn => (hns n hn).1, (hpages ns hne hns).2.1,
      place_outputOf hne hns options disk⟩

/-- An absolute path that ends in a name is a template of its own, and its page is beside it. -/
theorem relativeTo?_empty {p : Path} {init : List Text} {name : Text}
    (hp : p.segments = init ++ [name]) (hname : IsName name) (hinit : init ≠ []) :
    p.relativeTo? Path.empty = some p := by
  obtain ⟨first, rest, rfl⟩ := List.exists_cons_of_ne_nil hinit
  have hnonempty : (rest ++ [name]).isEmpty = false := by simp
  rw [Path.relativeTo?, if_pos (by rfl), hp]
  show (if first.isEmpty && (rest ++ [name]).isEmpty then some Path.empty
    else some (Path.ofFirst first (Path.trimSegments (rest ++ [name])))) = _
  rw [Path.trimSegments_concat hname, Path.ofFirst, hnonempty, Bool.and_false,
    if_neg Bool.false_ne_true, if_neg Bool.false_ne_true, ← List.cons_append, ← hp,
    Path.ofSegments_segments]

theorem segments_outputOf_of_isAbsolute {p : Path} {init : List Text} {name : Text}
    (hp : p.segments = init ++ [name]) (hname : IsName name) (habs : p.isAbsolute = true) :
    (outputOf options p).segments = init ++ [Path.pageName name] := by
  rw [outputOf, Path.join, if_pos habs, Path.withExtension_eq hp hname]
  refine Path.segments_ofSegments (by simp) fun s hs => ?_
  rcases List.mem_append.mp hs with hs | hs
  · exact Path.slash_not_mem (hp ▸ List.mem_append_left _ hs)
  · exact List.mem_singleton.mp hs ▸ (Path.isName_pageName hname).1

/-- With an empty templates directory the search starts at the top, and a template is an absolute
path, which the output directory does not change. -/
theorem exists_spelling_of_top (hdir : options.templatesDir.text = []) (disk : Disk) :
    ∃ pre, ∀ ns, ns ≠ [] → (∀ n ∈ ns, IsName n) →
      ∃ template, relative? options (Candidate.under options.searchBase ns) = some template ∧
        Spelling options disk pre pre [] ns template := by
  obtain ⟨templatesDir, outputDir, file, extension⟩ := options
  obtain rfl : templatesDir = Path.empty := congrArg Path.mk hdir
  have hbase : BuildOptions.searchBase ⟨Path.empty, outputDir, file, extension⟩ = ⟨['/']⟩ := rfl
  have htop : (Path.mk ['/']).isAbsolute = true := rfl
  obtain ⟨pre, hspells⟩ := Candidate.exists_spells
    (b := ⟨['/']⟩) (.inr ⟨List.cons_ne_nil _ _, by rw [Path.Bare]; decide⟩)
  obtain ⟨first, rest, rfl⟩ : ∃ first rest, pre = first :: rest := by
    rcases hspells.segments with ⟨heq, -⟩ | ⟨hne, -⟩
    · cases heq
    · exact List.exists_cons_of_ne_nil hne
  refine ⟨first :: rest, fun ns hne hns => ⟨Candidate.under ⟨['/']⟩ ns, ?_⟩⟩
  obtain ⟨hsegments, habs⟩ := hspells.under ns hne hns
  rw [htop] at habs
  obtain ⟨init, name, rfl⟩ := (List.eq_nil_or_concat' ns).resolve_left hne
  have hname : IsName name := hns name (List.mem_append_right _ List.mem_cons_self)
  have hnames : pageNames (init ++ [name]) = init ++ [Path.pageName name] := by simp [pageNames]
  have hself := relativeTo?_empty ((List.append_assoc _ _ _).symm ▸ hsegments) hname (by simp)
  have hpage : (outputOf ⟨Path.empty, outputDir, file, extension⟩
      (Candidate.under ⟨['/']⟩ (init ++ [name]))).segments =
        first :: rest ++ pageNames (init ++ [name]) := by
    rw [hnames, ← List.append_assoc]
    exact segments_outputOf_of_isAbsolute ((List.append_assoc _ _ _).symm ▸ hsegments) hname habs
  have hfirst : first = [] := (Path.isAbsolute_iff hsegments (by simp)).mp habs
  refine ⟨?_, hsegments, hpage, ?_⟩
  · have hhere : Path.empty.withoutHere = Path.empty := rfl
    rw [hbase, relative?, hhere, hself, Option.some_or]
  · rw [Disk.place, Disk.start, (Path.isAbsolute_iff hpage (by simp [hnames])).mpr hfirst,
      if_pos rfl, Path.inner, hpage, List.filterMap_append, hspells.inner,
      Path.filterMap_names (isName_of_mem_pageNames hns hne)]
    exact Disk.placeFrom_names [] _

/-- **A page and its template** end in the same names but for the last one, which is that of the
page. -/
theorem exists_segments_of_isFoundPage (options : BuildOptions) (disk : Disk) :
    ∃ lead pre here, ∀ page,
      IsFoundPage options (GlobPattern.suffix options.extension) page → ∃ init stem,
        page.template.segments = lead ++ init ++ [stem ++ '.' :: options.extension] ∧
        page.output.segments = pre ++ init ++ [Path.pageName (stem ++ '.' :: options.extension)] ∧
        disk.place page.output =
          here ++ init ++ [Path.pageName (stem ++ '.' :: options.extension)] := by
  obtain ⟨lead, pre, here, hspelling⟩ : ∃ lead pre here, ∀ ns, ns ≠ [] → (∀ n ∈ ns, IsName n) →
      Candidate.Reached options.searchStart options.dirParts →
      ∃ template, relative? options (Candidate.under options.searchBase ns) = some template ∧
        Spelling options disk lead pre here ns template := by
    by_cases hdir : options.templatesDir.text = []
    · obtain ⟨pre, hpre⟩ := exists_spelling_of_top hdir disk
      exact ⟨pre, pre, [], fun ns hne hns _ => hpre ns hne hns⟩
    · obtain ⟨pre, hpre⟩ := exists_spelling_of_dir hdir disk
      exact ⟨[], pre, _, hpre⟩
  refine ⟨lead, pre, here, fun page hpage => ?_⟩
  obtain ⟨path, ⟨hreached, ns, hne, hns, rfl, name, hfile, hholds⟩, hrelative, houtput⟩ := hpage
  obtain ⟨template, htemplate, hspells⟩ := hspelling ns hne hns hreached
  obtain rfl : template = page.template := Option.some.inj (htemplate.symm.trans hrelative)
  -- the name that was matched is the last of the names below the directory
  obtain ⟨init, last, rfl⟩ := (List.eq_nil_or_concat' ns).resolve_left hne
  have hlast : IsName last := hns last (List.mem_append_right _ List.mem_cons_self)
  rw [Candidate.under_concat, Candidate.fileName?_below hlast] at hfile
  obtain rfl := Option.some.inj hfile
  obtain ⟨stem, rfl⟩ := GlobPattern.holds_suffix.mp hholds
  have hnames : pageNames (init ++ [stem ++ '.' :: options.extension]) =
      init ++ [Path.pageName (stem ++ '.' :: options.extension)] := by simp [pageNames]
  have hsegments := hspells.page
  have hplace := hspells.place
  rw [hnames, ← List.append_assoc, ← houtput] at hsegments hplace
  exact ⟨init, stem, hspells.segments.trans (List.append_assoc _ _ _).symm, hsegments, hplace⟩

/-! ### Templates with one page -/

/-- Holds of the templates `.x` and `.x.x` of one directory, where `x` is the extension. -/
def AreDoubled (extension : Text) (template other : Path) : Prop :=
  ∃ dir, template.segments = dir ++ ['.' :: extension] ∧
    other.segments = dir ++ ['.' :: extension ++ '.' :: extension]

/-- They stand in one directory, and their pages have one name. -/
theorem AreDoubled.pageName_eq {extension : Text} (hdot : '.' ∉ extension) {template other : Path}
    (h : AreDoubled extension template other) {before before' : List Text} {stem stem' : Text}
    (htemplate : template.segments = before ++ [stem ++ '.' :: extension])
    (hother : other.segments = before' ++ [stem' ++ '.' :: extension]) :
    before = before' ∧ Path.pageName (stem ++ '.' :: extension) =
      Path.pageName (stem' ++ '.' :: extension) := by
  obtain ⟨dir, hone, htwo⟩ := h
  obtain ⟨hdir, hlast⟩ := List.append_inj' (htemplate.symm.trans hone) rfl
  obtain ⟨hdir', hlast'⟩ := List.append_inj' (hother.symm.trans htwo) rfl
  have hpair : Path.pageName ([] ++ '.' :: extension) =
      Path.pageName ('.' :: extension ++ '.' :: extension) :=
    (Path.pageName_eq_iff hdot).mpr (.inr (.inl ⟨rfl, rfl⟩))
  rw [List.singleton_inj.mp hlast, List.singleton_inj.mp hlast']
  exact ⟨hdir.trans hdir'.symm, hpair⟩

theorem plain_of_extension {extension : Text}
    (h : ∀ c ∈ extension, (Text.isLetter c || Text.isDigit c) = true) :
    '.' ∉ extension ∧ '/' ∉ extension ∧ ∀ c ∈ extension, GlobPattern.isWild c = false := by
  have hnot : ∀ c, (Text.isLetter c || Text.isDigit c) = false → c ∉ extension :=
    fun c hc hmem => Bool.false_ne_true (hc.symm.trans (h c hmem))
  refine ⟨hnot '.' rfl, hnot '/' rfl, fun c hc => ?_⟩
  refine GlobPattern.isWild_eq_false_iff.mpr ⟨?_, ?_, ?_, ?_⟩
  · rintro rfl
    exact hnot '?' rfl hc
  · rintro rfl
    exact hnot '*' rfl hc
  · rintro rfl
    exact hnot '[' rfl hc
  · rintro rfl
    exact hnot ']' rfl hc

/-- **Two templates with one page.**  Let a build with an extension of letters and digits succeed.
Two pages of it have the same path, and are at the same place, just when they are pages of the same
template, or of `.x` and `.x.x` in one directory, where `x` is the extension. -/
theorem outputs_tfae_of_run (hdisk : disk.root.WellFormed)
    (hextension : ∀ c ∈ options.extension, (Text.isLetter c || Text.isDigit c) = true)
    (hrun : run options disk = (.ok report, new)) {page other : BuiltPage}
    (hpage : page ∈ report.pages) (hother : other ∈ report.pages) :
    [page.output = other.output,
      new.place page.output = new.place other.output,
      page.template = other.template ∨
        AreDoubled options.extension page.template other.template ∨
        AreDoubled options.extension other.template page.template].TFAE := by
  obtain ⟨hdot, hslash, hwild⟩ := plain_of_extension hextension
  obtain ⟨last, hread, hpages⟩ := isFoundPage_of_run hdisk hslash hrun
  obtain rfl : GlobPattern.suffix options.extension = last :=
    Except.ok.inj ((GlobPattern.ofText_suffix hwild).symm.trans hread)
  obtain ⟨lead, pre, here, hspelling⟩ := exists_segments_of_isFoundPage options new
  obtain ⟨init, stem, htemplate, houtput, hplace⟩ := hspelling page (hpages page hpage)
  obtain ⟨init', stem', htemplate', houtput', hplace'⟩ := hspelling other (hpages other hother)
  tfae_have 1 → 2 := fun h => congrArg new.place h
  tfae_have 2 → 3 := by
    -- places name each node in one way, so the names of the pages are the same
    intro h
    rw [hplace, hplace'] at h
    obtain ⟨hinit, hname⟩ := List.append_inj' h rfl
    obtain rfl := List.append_cancel_left hinit
    rcases (Path.pageName_eq_iff hdot).mp (List.singleton_inj.mp hname) with
      rfl | ⟨rfl, rfl⟩ | ⟨rfl, rfl⟩
    · exact .inl (Path.eq_of_segments_eq (htemplate.trans htemplate'.symm))
    · exact .inr (.inl ⟨_, htemplate, htemplate'⟩)
    · exact .inr (.inr ⟨_, htemplate', htemplate⟩)
  tfae_have 3 → 1 := by
    intro h
    obtain ⟨hinit, hname⟩ : lead ++ init = lead ++ init' ∧
        Path.pageName (stem ++ '.' :: options.extension) =
          Path.pageName (stem' ++ '.' :: options.extension) := by
      rcases h with h | h | h
      · obtain ⟨hdir, hlast⟩ := List.append_inj'
          (htemplate.symm.trans ((congrArg Path.segments h).trans htemplate')) rfl
        exact ⟨hdir, congrArg Path.pageName (List.singleton_inj.mp hlast)⟩
      · exact h.pageName_eq hdot htemplate htemplate'
      · exact (h.pageName_eq hdot htemplate' htemplate).imp Eq.symm Eq.symm
    refine Path.eq_of_segments_eq ?_
    rw [houtput, houtput', List.append_cancel_left hinit, hname]
  tfae_finish

/-- The dots of other names do not bring two templates to one page: `a` and `a.b` have two. -/
theorem outputs_ne_of_dots :
    ∃ options disk report new page other, disk.root.WellFormed ∧
      run options disk = (.ok report, new) ∧ page ∈ report.pages ∧ other ∈ report.pages ∧
      page.template = Path.ofString "a.b.pug" ∧ other.template = Path.ofString "a.pug" ∧
      new.place page.output ≠ new.place other.output := by
  let options : BuildOptions :=
    ⟨Path.ofString "views", Path.ofString "dist", none, "pug".toList⟩
  let disk := Disk.ofEntries [] [("views".toList, .directory [
    ("a.b.pug".toList, .file (.text "p b".toList)), ("a.pug".toList, .file (.text "p a".toList))])]
  let page : BuiltPage := ⟨Path.ofString "a.b.pug", Path.ofString "dist/a.b.html"⟩
  let other : BuiltPage := ⟨Path.ofString "a.pug", Path.ofString "dist/a.html"⟩
  have hdisk : disk.root.WellFormed := Node.wellFormed_of_isWellFormed (by decide +kernel)
  have hextension : ∀ c ∈ options.extension, (Text.isLetter c || Text.isDigit c) = true :=
    List.all_eq_true.mp (by decide +kernel)
  have hreport : (run options disk).1 = .ok ⟨[page, other], 0⟩ := by decide +kernel
  rcases hrun : run options disk with ⟨answer, new⟩
  obtain rfl : answer = .ok ⟨[page, other], 0⟩ := by rw [← hreport, hrun]
  have hpage : page ∈ [page, other] := List.mem_cons_self
  have hother : other ∈ [page, other] := List.mem_cons_of_mem _ List.mem_cons_self
  refine ⟨options, disk, _, new, page, other, hdisk, hrun, hpage, hother, rfl, rfl, ?_⟩
  intro hplace
  have houtput := ((outputs_tfae_of_run hdisk hextension hrun hpage hother).out 1 0).mp hplace
  exact absurd houtput (by decide +kernel)

/-- The page of `.pug` is lost when there is a template `.pug.pug` beside it. -/
theorem overwritten_of_doubled :
    ∃ options disk report new page other, disk.root.WellFormed ∧ options.extension ≠ [] ∧
      (∀ c ∈ options.extension, (Text.isLetter c || Text.isDigit c) = true) ∧
      run options disk = (.ok report, new) ∧ page ∈ report.pages ∧ other ∈ report.pages ∧
      page.template ≠ other.template ∧ page.output = other.output ∧
      disk.source.render (Path.ofString "views/.pug") [] = .ok "<p>first\n</p>\n".toList ∧
      new.readText? page.output = some "<p>second\n</p>\n".toList := by
  let options : BuildOptions :=
    ⟨Path.ofString "views", Path.ofString "dist", none, "pug".toList⟩
  let disk := Disk.ofEntries [] [("views".toList, .directory [
    (".pug".toList, .file (.text "p first".toList)),
    (".pug.pug".toList, .file (.text "p second".toList))])]
  let page : BuiltPage := ⟨Path.ofString ".pug", Path.ofString "dist/.pug.html"⟩
  let other : BuiltPage := ⟨Path.ofString ".pug.pug", Path.ofString "dist/.pug.html"⟩
  have hdisk : disk.root.WellFormed := Node.wellFormed_of_isWellFormed (by decide +kernel)
  have hreport : (run options disk).1 = .ok ⟨[page, other], 0⟩ := by decide +kernel
  have hread : (run options disk).2.readText? page.output =
      some "<p>second\n</p>\n".toList := by decide +kernel
  rcases hrun : run options disk with ⟨answer, new⟩
  rw [hrun] at hreport hread
  obtain rfl : answer = .ok ⟨[page, other], 0⟩ := hreport
  exact ⟨options, disk, _, new, page, other, hdisk, by decide,
    List.all_eq_true.mp (by decide +kernel), hrun, List.mem_cons_self,
    List.mem_cons_of_mem _ List.mem_cons_self, by decide, rfl, by decide +kernel, hread⟩

end Build

end IndentHtml
