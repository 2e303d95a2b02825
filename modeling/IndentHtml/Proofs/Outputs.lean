import IndentHtml.Proofs.Joining
import IndentHtml.Site.Build

/-!
# Templates and their pages

A found template is given relative to the templates directory by the names that the search spelled
below it, however the directory itself is spelled (`Build.relative?_under`).

**Pages.**  The page of a template stands at the same names below the output directory, with
another extension at the end (`Build.place_outputOf`), and pages at one place have one path
(`Build.outputOf_eq_of_place_eq`).  A page never leaves the output directory: its names are single
segments, and none of them is `..`.
-/

namespace IndentHtml

/-! ### Names of pages -/

namespace Path

variable {p : Path} {name : Text}

theorem splitExtension_subset (name : Text) : (splitExtension name).1 ⊆ name := by
  cases hsplit : splitExtension name with
  | mk stem extension =>
      cases extension with
      | some extension =>
          obtain ⟨rfl, -, -⟩ := eq_of_splitExtension hsplit
          exact List.subset_append_left _ _
      | none =>
          unfold splitExtension at hsplit
          split at hsplit
          · split at hsplit
            · exact (Prod.mk.inj hsplit).1 ▸ List.Subset.refl _
            · cases hsplit
          · exact (Prod.mk.inj hsplit).1 ▸ List.Subset.refl _

/-- The file name of the page of a template. -/
def pageName (name : Text) : Text :=
  (splitExtension name).1 ++ '.' :: "html".toList

theorem isName_pageName (h : IsName name) : IsName (pageName name) := by
  have hlength : 5 ≤ (pageName name).length := by
    simp [pageName]
  have hempty : (pageName name).isEmpty = false := by
    rw [Bool.eq_false_iff, ne_eq, List.isEmpty_iff]
    intro hnil
    simp [hnil] at hlength
  have hhere : pageName name ≠ ['.'] := by
    intro heq
    simp [heq] at hlength
  have hup : pageName name ≠ ['.', '.'] := by
    intro heq
    simp [heq] at hlength
  refine ⟨fun hslash => ?_, by simp [innerComponent?, isTrivial, hempty, hhere, hup]⟩
  rcases List.mem_append.mp hslash with hslash | hslash
  · exact h.1 (splitExtension_subset name hslash)
  · exact absurd hslash (by decide)

/-- Another extension replaces the last segment. -/
theorem withExtension_eq {init : List Text} {last : Text} (hp : p.segments = init ++ [last])
    (hlast : IsName last) :
    p.withExtension "html".toList = ofSegments (init ++ [pageName last]) := by
  have hname : p.fileName? = some last := by
    refine fileName?_eq_some_iff.mpr ⟨init.filterMap innerComponent?, ?_⟩
    rw [inner, hp, List.filterMap_append, List.filterMap_cons_some hlast.2]
    rfl
  rw [withExtension, hname, hp]
  cases init with
  | nil => exact congrArg Path.mk List.intercalate_singleton.symm
  | cons first init =>
      rw [List.cons_append]
      dsimp only
      rw [trimSegments_concat hlast]
      split
      · next hnil => simp at hnil
      · rw [List.dropLast_concat]
        rfl

end Path

/-! ### Pages -/

namespace Build

open IndentHtml.Path (IsName)

variable {options : BuildOptions} {b : Path} {ns : List Text}

/-- **The template of a found path** is spelled by the names below the templates directory. -/
theorem relative?_under (hb : Candidate.IsBase b)
    (hinner : b.inner = options.templatesDir.inner)
    (habs : b.isAbsolute = options.templatesDir.isAbsolute) (hns : ∀ n ∈ ns, IsName n)
    (hne : ns ≠ []) :
    relative? options (Candidate.under b ns) = some (Path.ofSegments ns) := by
  have hbase := options.templatesDir.components_withoutHere
  rw [← habs, ← hinner] at hbase
  rw [relative?, Candidate.relativeTo?_under hb hns hne hbase]
  rfl

/-- The names of the page of a template. -/
def pageNames (ns : List Text) : List Text :=
  ns.dropLast ++ [Path.pageName (ns.getLastD [])]

theorem isName_of_mem_pageNames (hns : ∀ n ∈ ns, IsName n) (hne : ns ≠ []) :
    ∀ n ∈ pageNames ns, IsName n := by
  rcases List.eq_nil_or_concat ns with rfl | ⟨init, last, rfl⟩
  · exact absurd rfl hne
  · rw [List.concat_eq_append] at hns ⊢
    obtain ⟨hinit, hlast⟩ := List.forall_mem_append.mp hns
    have hpage := Path.isName_pageName (List.forall_mem_singleton.mp hlast)
    simpa [pageNames] using fun n hn => hn.elim (hinit n) fun h => h ▸ hpage

/-- What is put below the output directory stands after its segments. -/
theorem exists_join_outputDir (dir : Path) :
    ∃ pre, pre.filterMap Path.innerComponent? = dir.inner ∧ (∀ s ∈ pre, '/' ∉ s) ∧
      ∀ q : Path, q.isAbsolute = false →
        (dir.join q).segments = pre ++ q.segments ∧ (dir.join q).isAbsolute = dir.isAbsolute := by
  by_cases hdir : dir.text = []
  · obtain rfl : dir = Path.empty := congrArg Path.mk hdir
    refine ⟨[], rfl, nofun, fun q hq => ?_⟩
    rw [Path.join_empty, hq]
    exact ⟨rfl, rfl⟩
  · obtain ⟨pre, -, hsegments, hjoin⟩ := Path.exists_segments_eq hdir
    refine ⟨pre, ?_, fun s hs => Path.slash_not_mem (p := dir) ?_, fun q hq =>
      ⟨hjoin q hq, Path.isAbsolute_join hdir hq⟩⟩
    · rw [Path.inner]
      rcases hsegments with h | h
      · rw [h]
      · rw [h, List.filterMap_append]
        simp [Path.innerComponent?, Path.isTrivial]
    · rcases hsegments with h | h
      · rwa [h]
      · rw [h]
        exact List.mem_append_left _ hs

theorem isAbsolute_eq_false_of_names {p : Path} (hp : p.segments = ns)
    (hns : ∀ n ∈ ns, IsName n) (hne : ns ≠ []) : p.isAbsolute = false := by
  obtain ⟨n, rest, rfl⟩ := List.exists_cons_of_ne_nil hne
  have hn := (hns n List.mem_cons_self).ne_nil
  exact Bool.eq_false_iff.mpr fun habs => hn ((Path.isAbsolute_iff hp fun h => hn h.1).mp habs)

/-- **The page of a template** is spelled by the names of the page behind segments of the output
directory. -/
theorem exists_outputOf_eq (options : BuildOptions) :
    ∃ pre, pre.filterMap Path.innerComponent? = options.outputDir.inner ∧
      ∀ ns, ns ≠ [] → (∀ n ∈ ns, IsName n) →
        outputOf options (Path.ofSegments ns) = Path.ofSegments (pre ++ pageNames ns) ∧
        (outputOf options (Path.ofSegments ns)).segments = pre ++ pageNames ns ∧
        (outputOf options (Path.ofSegments ns)).isAbsolute = options.outputDir.isAbsolute := by
  obtain ⟨pre, hinner, hslash, hjoin⟩ := exists_join_outputDir options.outputDir
  refine ⟨pre, hinner, fun ns hne hns => ?_⟩
  have hrelative : (Path.ofSegments ns).isAbsolute = false := (Path.inner_join hns).2
  have hnames : (Path.ofSegments ns).segments = ns :=
    Path.segments_ofSegments hne fun n hn => (hns n hn).1
  obtain ⟨hsegments, habs⟩ := hjoin _ hrelative
  rw [hnames] at hsegments
  have hpage := isName_of_mem_pageNames hns hne
  have houtput : outputOf options (Path.ofSegments ns) = Path.ofSegments (pre ++ pageNames ns) := by
    rcases List.eq_nil_or_concat ns with rfl | ⟨init, last, rfl⟩
    · exact absurd rfl hne
    · rw [List.concat_eq_append, ← List.append_assoc] at hsegments
      rw [List.concat_eq_append] at hns ⊢
      rw [outputOf, Path.withExtension_eq hsegments (hns last (by simp))]
      simp [pageNames]
  have houtputSegments : (outputOf options (Path.ofSegments ns)).segments =
      pre ++ pageNames ns := by
    rw [houtput]
    refine Path.segments_ofSegments (by simp [pageNames]) fun s hs => ?_
    exact (List.mem_append.mp hs).elim (hslash s) fun h => (hpage s h).1
  refine ⟨houtput, houtputSegments, ?_⟩
  rw [← habs]
  -- the first segment tells, which is one of the output directory or a name
  cases pre with
  | nil =>
      rw [List.nil_append] at hsegments houtputSegments
      rw [isAbsolute_eq_false_of_names hsegments hns hne,
        isAbsolute_eq_false_of_names houtputSegments hpage (by simp [pageNames])]
  | cons first pre =>
      rw [Bool.eq_iff_iff, Path.isAbsolute_iff hsegments (by simp [hne]),
        Path.isAbsolute_iff houtputSegments (by simp [pageNames])]

section Places

variable (hne : ns ≠ []) (hns : ∀ n ∈ ns, IsName n)

include hne hns

theorem inner_outputOf (options : BuildOptions) :
    (outputOf options (Path.ofSegments ns)).inner =
      options.outputDir.inner ++ (pageNames ns).map .name := by
  obtain ⟨pre, hinner, hpages⟩ := exists_outputOf_eq options
  rw [Path.inner, (hpages ns hne hns).2.1, List.filterMap_append, hinner,
    Path.filterMap_names (isName_of_mem_pageNames hns hne)]

theorem start_outputOf (options : BuildOptions) (disk : Disk) :
    disk.start (outputOf options (Path.ofSegments ns)) = disk.start options.outputDir := by
  obtain ⟨pre, -, hpages⟩ := exists_outputOf_eq options
  rw [Disk.start, Disk.start, (hpages ns hne hns).2.2]

/-- **The place of a page** is below that of the output directory. -/
theorem place_outputOf (options : BuildOptions) (disk : Disk) :
    disk.place (outputOf options (Path.ofSegments ns)) =
      disk.place options.outputDir ++ pageNames ns := by
  rw [Disk.place, start_outputOf hne hns, inner_outputOf hne hns, Disk.placeFrom_append,
    Disk.placeFrom_names]
  rfl

/-- **Pages at one place** have one path. -/
theorem outputOf_eq_of_place_eq {ms : List Text} (hmne : ms ≠ []) (hms : ∀ m ∈ ms, IsName m)
    {options : BuildOptions} {disk : Disk}
    (h : disk.place (outputOf options (Path.ofSegments ns)) =
      disk.place (outputOf options (Path.ofSegments ms))) :
    outputOf options (Path.ofSegments ns) = outputOf options (Path.ofSegments ms) := by
  rw [place_outputOf hne hns, place_outputOf hmne hms] at h
  obtain ⟨pre, -, hpages⟩ := exists_outputOf_eq options
  rw [(hpages ns hne hns).1, (hpages ms hmne hms).1, List.append_cancel_left h]

end Places

end Build

end IndentHtml
