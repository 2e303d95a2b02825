import IndentHtml.Proofs.Searching
import IndentHtml.Site.WatchFilter

/-!
# Watched templates

A build takes a file for a template when its name ends in a dot and the extension.  While a site is
watched, a change counts when the part of the name after its *last* dot is the extension, and a dot
at the front of a name does not count.  So the two agree on the templates of an extension without
dots, other than the one that is named by a dot and the extension alone
(`Build.isRelevant_iff_of_mem_paths`).

Neither exception can be left out (`Build.not_isRelevant_of_dot`).
-/

namespace IndentHtml

namespace Build

variable {options : BuildOptions} {disk : Disk} {pattern : PathPattern} {steps : Nat} {path : Path}

/-- **Watched templates.**  A template that the search of a build finds is watched when it is the
data file, or when the extension has no dot and is not all of the name but a dot. -/
theorem isRelevant_iff_of_mem_paths (hwild : ∀ c ∈ options.extension, GlobPattern.isWild c = false)
    (hslash : '/' ∉ options.extension) {filter : WatchFilter}
    (hextension : filter.extension = options.extension)
    (hpattern : PathPattern.ofText options.patternText = .ok pattern)
    (hpath : path ∈ Search.paths disk steps (Search.start disk pattern)) :
    filter.isRelevant path = true ↔
      filter.dataFile.any (Path.same path) = true ∨
        '.' ∉ options.extension ∧ path.fileName? ≠ some ('.' :: options.extension) := by
  obtain ⟨last, hlast, hsuffix, rfl⟩ := BuildOptions.pattern_eq_of_ofText hslash hpattern
  obtain rfl : GlobPattern.suffix options.extension = last :=
    Except.ok.inj ((GlobPattern.ofText_suffix hwild).symm.trans hlast)
  have hstart : ∀ c ∈ (Search.start disk ⟨options.fromTop,
      options.dirParts.map GlobPattern.exactly ++
        [[.anyDirectories], GlobPattern.suffix options.extension], false⟩).candidates,
      c.EndsIn (GlobPattern.suffix options.extension) :=
    Candidate.endsIn_of_mem_ofPath hsuffix (by simp)
  obtain ⟨name, hname, hholds⟩ := Search.exists_name_of_mem hsuffix hstart hpath
  obtain ⟨stem, rfl⟩ := GlobPattern.holds_suffix.mp hholds
  have hstem : some (stem ++ '.' :: options.extension) ≠ some ('.' :: options.extension) ↔
      stem ≠ [] := by
    simp
  rw [WatchFilter.isRelevant, Bool.or_eq_true, decide_eq_true_iff, hextension, Path.extension?,
    hname, Option.bind_some, Path.splitExtension_append_eq_some_iff, hstem]

/-- The one template of a site is watched. -/
theorem isRelevant_iff_of_index :
    ∃ (options : BuildOptions) (filter : WatchFilter) (disk : Disk) (pattern : PathPattern),
      (∀ c ∈ options.extension, GlobPattern.isWild c = false) ∧ '/' ∉ options.extension ∧
      filter.extension = options.extension ∧
      PathPattern.ofText options.patternText = .ok pattern ∧
      Path.ofString "views/index.pug" ∈
        Search.paths disk (Search.bound disk pattern) (Search.start disk pattern) ∧
      filter.isRelevant (Path.ofString "views/index.pug") = true := by
  let options : BuildOptions :=
    ⟨Path.ofString "views", Path.ofString "dist", none, "pug".toList⟩
  let filter : WatchFilter := ⟨"pug".toList, none⟩
  let disk := Disk.ofEntries [] [("views".toList,
    .directory [("index.pug".toList, .file (.text []))])]
  let pattern : PathPattern := ⟨false, ["views".toList.map .char, [.anyDirectories],
    .anyRun :: ".pug".toList.map .char], false⟩
  have hwild : ∀ c ∈ options.extension, GlobPattern.isWild c = false :=
    GlobPattern.forall_isWild_eq_false (by decide +kernel)
  have hslash : '/' ∉ options.extension := by decide +kernel
  have hpattern : PathPattern.ofText options.patternText = .ok pattern := by rfl
  have hpath : Path.ofString "views/index.pug" ∈
      Search.paths disk (Search.bound disk pattern) (Search.start disk pattern) := by
    decide +kernel
  have hplain : '.' ∉ options.extension ∧
      (Path.ofString "views/index.pug").fileName? ≠ some ('.' :: options.extension) := by
    decide +kernel
  exact ⟨options, filter, disk, pattern, hwild, hslash, rfl, hpattern, hpath,
    (isRelevant_iff_of_mem_paths hwild hslash rfl hpattern hpath).mpr (.inr hplain)⟩

/-- Holds of an extension and the name of a file in the templates directory when a build finds the
file and it is not watched. -/
def IsOverlooked (extension name : Text) : Prop :=
  let options : BuildOptions := ⟨Path.ofString "views", Path.ofString "dist", none, extension⟩
  let filter : WatchFilter := ⟨extension, none⟩
  let disk := Disk.ofEntries [] [("views".toList, .directory [(name, .file (.text []))])]
  let path : Path := ⟨"views/".toList ++ name⟩
  (∀ c ∈ options.extension, GlobPattern.isWild c = false) ∧ '/' ∉ options.extension ∧
  (∃ pattern, PathPattern.ofText options.patternText = .ok pattern ∧
    Search.paths disk (Search.bound disk pattern) (Search.start disk pattern) = [path]) ∧
  filter.isRelevant path = false

/-- A template whose extension has a dot, and one that is named by the extension alone, are found
and not watched. -/
theorem not_isRelevant_of_dot :
    IsOverlooked "html.pug".toList "a.html.pug".toList ∧
      IsOverlooked "pug".toList ".pug".toList := by
  refine ⟨⟨?_, ?_, ⟨_, by rfl, by rfl⟩, by decide +kernel⟩,
    ⟨?_, ?_, ⟨_, by rfl, by rfl⟩, by decide +kernel⟩⟩
  · exact GlobPattern.forall_isWild_eq_false (by decide +kernel)
  · decide +kernel
  · exact GlobPattern.forall_isWild_eq_false (by decide +kernel)
  · decide +kernel

end Build

end IndentHtml
