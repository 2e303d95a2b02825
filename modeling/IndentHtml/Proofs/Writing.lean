import IndentHtml.Proofs.Trees
import IndentHtml.Site.Page

/-!
# Writing pages

A page is written in two steps: the missing directories on the way to it are made, and then the
file is put at its place.

**What is written** (`Disk.grown_of_writePage`).  The disk grows by a file at the place of the page
and by missing directories on the way to it, and by nothing else, and the page can be read back.

**Once is enough** (`Disk.writePage_again`).  On a well-formed disk that has grown since and still
holds the page, writing it once more changes nothing.
-/

namespace IndentHtml

namespace Disk

variable {disk : Disk} {p : Path}

/-- The locations on the way that components lead. -/
def onWay (here : List Text) (cs : List Path.Component) : Set (List Text) :=
  {l | ∃ before, before <+: cs ∧ l = placeFrom here before}

/-- The locations that nothing is at. -/
def missing (disk : Disk) : Set (List Text) :=
  {l | disk.kind? l = none}

theorem Grown.missing_subset {files directories : Set (List Text)} {old new : Disk}
    (h : Grown files directories old new) : new.missing ⊆ old.missing := by
  intro l hl
  by_contra hold
  exact h.present hold hl

/-- The missing directories on the way to a file. -/
def missingFor (disk : Disk) (p : Path) : Set (List Text) :=
  onWay (disk.start p) p.inner.dropLast ∩ disk.missing

theorem Grown.missingFor_subset {files directories : Set (List Text)} {old new : Disk}
    (h : Grown files directories old new) (p : Path) : new.missingFor p ⊆ old.missingFor p := by
  rw [missingFor, missingFor, h.start_eq]
  exact Set.inter_subset_inter_right _ h.missing_subset

theorem onWay_append (here : List Text) (cs ds : List Path.Component) :
    onWay (placeFrom here cs) ds ⊆ onWay here (cs ++ ds) := by
  rintro l ⟨before, hbefore, rfl⟩
  exact ⟨cs ++ before, (List.prefix_append_right_inj cs).mpr hbefore, (placeFrom_append ..).symm⟩

/-! ### Directories -/

/-- **One step of making directories** goes on to what is there, makes a directory that is missing,
or fails. -/
theorem makeAlong_cons (disk : Disk) (here : List Text) (segment : Text) (segments : List Text) :
    (disk.kind? here = some .directory ∧
      disk.kind? (placeFrom here (Path.innerComponent? segment).toList) ≠ none ∧
      disk.makeAlong here (segment :: segments) =
        disk.makeAlong (placeFrom here (Path.innerComponent? segment).toList) segments) ∨
    (disk.kind? here = some .directory ∧ Path.innerComponent? segment = some (.name segment) ∧
      disk.kind? (here ++ [segment]) = none ∧
      disk.makeAlong here (segment :: segments) =
        (disk.putAt (here ++ [segment]) Node.emptyDirectory).makeAlong (here ++ [segment])
          segments) ∨
    ((disk.kind? here = some .directory →
        disk.kind? (placeFrom here (Path.innerComponent? segment).toList) = none) ∧
      disk.makeAlong here (segment :: segments) = (false, disk)) := by
  by_cases hdir : disk.kind? here = some .directory
  · obtain ⟨entries, hentries⟩ := kind?_eq_directory.mp hdir
    have hthere : disk.kind? here ≠ none := by rw [hdir]; nofun
    have habove : disk.kind? here.dropLast ≠ none := by rw [kind?_dropLast hdir]; nofun
    rw [makeAlong, hentries, Path.innerComponent?]
    dsimp only
    rw [contains_eq hentries]
    split
    · exact .inl ⟨hdir, hthere, rfl⟩
    · split
      · exact .inl ⟨hdir, habove, rfl⟩
      · split
        · next hpresent => exact .inl ⟨hdir, Option.isSome_iff_ne_none.mp hpresent, rfl⟩
        · next hmissing =>
            have hnone : disk.kind? (here ++ [segment]) = none := by simpa using hmissing
            split
            · exact .inr (.inr ⟨fun _ => hnone, rfl⟩)
            · exact .inr (.inl ⟨hdir, rfl, hnone, rfl⟩)
  · refine .inr (.inr ⟨fun h => absurd h hdir, ?_⟩)
    rw [makeAlong]
    split
    · next entries hentries => exact absurd (kind?_eq_directory.mpr ⟨entries, hentries⟩) hdir
    · rfl

/-- Making directories makes a disk grow by directories that were missing on the way. -/
theorem grown_makeAlong (disk : Disk) (here segments : List Text) :
    Grown ∅ (onWay here (segments.filterMap Path.innerComponent?) ∩ disk.missing) disk
      (disk.makeAlong here segments).2 := by
  induction segments generalizing disk here with
  | nil => exact .refl _ _ disk
  | cons segment segments ih =>
      rw [filterMap_cons]
      rcases makeAlong_cons disk here segment segments with
        ⟨-, -, heq⟩ | ⟨hdir, hname, hnone, heq⟩ | ⟨-, heq⟩
      · rw [heq]
        exact (ih disk _).mono subset_rfl (Set.inter_subset_inter_left _ (onWay_append _ _ _))
      · rw [heq, hname]
        have hmade : here ++ [segment] ∈ onWay here ([.name segment] ++
            segments.filterMap Path.innerComponent?) :=
          ⟨[.name segment], List.prefix_append _ _, rfl⟩
        have hgrown := grown_putAt_directory hdir hnone
        refine (hgrown.mono subset_rfl ?_).trans ((ih _ _).mono subset_rfl
          (Set.inter_subset_inter (onWay_append here [.name segment] _) hgrown.missing_subset))
        rintro l rfl
        exact ⟨hmade, hnone⟩
      · rw [heq]
        exact .refl _ _ disk

theorem grown_of_makeAlong {new : Disk} {here segments : List Text} {ok : Bool}
    (h : disk.makeAlong here segments = (ok, new)) :
    Grown ∅ (onWay here (segments.filterMap Path.innerComponent?) ∩ disk.missing) disk new := by
  have hgrown := grown_makeAlong disk here segments
  rwa [h] at hgrown

theorem makeAlong_nil (disk : Disk) (here : List Text) :
    disk.makeAlong here [] = (decide (disk.kind? here = some .directory), disk) := by
  rw [makeAlong, kind?]
  cases disk.root.at? here with
  | none => rfl
  | some node => cases node <;> rfl

/-- After directories were made the segments can be followed. -/
theorem followAll?_of_makeAlong {new : Disk} {here segments : List Text}
    (h : disk.makeAlong here segments = (true, new)) :
    ∃ l, new.followAll? here segments = some l ∧ new.kind? l = some .directory := by
  induction segments generalizing disk here with
  | nil =>
      rw [makeAlong_nil] at h
      obtain ⟨hdir, rfl⟩ := Prod.mk.inj h
      exact ⟨here, rfl, of_decide_eq_true hdir⟩
  | cons segment segments ih =>
      rcases makeAlong_cons disk here segment segments with
        ⟨hdir, hthere, heq⟩ | ⟨hdir, hname, hnone, heq⟩ | ⟨-, heq⟩
      · rw [heq] at h
        obtain ⟨l, hl, hkind⟩ := ih h
        have hgrown := grown_of_makeAlong h
        exact ⟨l, followAll?_cons_eq_some.mpr
          ⟨hgrown.directory hdir, hgrown.present hthere, hl⟩, hkind⟩
      · rw [heq] at h
        obtain ⟨l, hl, hkind⟩ := ih h
        have hmade := grown_putAt_directory hdir hnone
        have hgrown := grown_of_makeAlong h
        have hthere : (disk.putAt (here ++ [segment]) Node.emptyDirectory).kind?
            (here ++ [segment]) ≠ none := by
          rw [kind?, at?_putAt_self hdir]
          exact Option.some_ne_none _
        refine ⟨l, followAll?_cons_eq_some.mpr ⟨hgrown.directory (hmade.directory hdir), ?_, ?_⟩,
          hkind⟩
        · rw [hname]
          exact hgrown.present hthere
        · rw [hname]
          exact hl
      · rw [heq] at h
        cases h

/-- Nothing is made on a way that can be followed. -/
theorem makeAlong_of_followAll? {here segments l : List Text}
    (h : disk.followAll? here segments = some l) (hl : disk.kind? l = some .directory) :
    disk.makeAlong here segments = (true, disk) := by
  induction segments generalizing here with
  | nil => rw [makeAlong_nil, Option.some.inj h, hl, decide_eq_true rfl]
  | cons segment segments ih =>
      obtain ⟨hdir, hthere, hrest⟩ := followAll?_cons_eq_some.mp h
      rcases makeAlong_cons disk here segment segments with
        ⟨-, -, heq⟩ | ⟨-, hname, hnone, -⟩ | ⟨hnone, -⟩
      · rw [heq, ih hrest]
      · rw [hname] at hthere
        exact absurd hnone hthere
      · exact absurd (hnone hdir) hthere

theorem wellFormed_makeAlong {new : Disk} {here segments : List Text} {ok : Bool}
    (hdisk : disk.root.WellFormed) (hsegments : ∀ s ∈ segments, '/' ∉ s)
    (h : disk.makeAlong here segments = (ok, new)) : new.root.WellFormed := by
  induction segments generalizing disk here with
  | nil =>
      rw [makeAlong_nil] at h
      obtain ⟨-, rfl⟩ := Prod.mk.inj h
      exact hdisk
  | cons segment segments ih =>
      obtain ⟨hsegment, hmore⟩ := List.forall_mem_cons.mp hsegments
      rcases makeAlong_cons disk here segment segments with
        ⟨-, -, heq⟩ | ⟨hdir, hname, -, heq⟩ | ⟨-, heq⟩
      · rw [heq] at h
        exact ih hdisk hmore h
      · rw [heq] at h
        exact ih (wellFormed_putAt hdisk hdir ⟨hsegment, hname⟩ Node.wellFormed_emptyDirectory)
          hmore h
      · rw [heq] at h
        obtain ⟨-, rfl⟩ := Prod.mk.inj h
        exact hdisk

/-! ### Files -/

/-- Where a file is written: under a name, in a directory that the other segments lead to. -/
structure Writable (disk : Disk) (p : Path) (segments : List Text) (name : Text)
    (here : List Text) : Prop where
  segments_eq : p.segments = segments ++ [name]
  counts : Path.innerComponent? name = some (.name name)
  followed : disk.followAll? (disk.start p) segments = some here
  directory : disk.kind? here = some .directory
  free : disk.kind? (here ++ [name]) ≠ some .directory

theorem fileLocation?_eq_some {l : List Text} :
    disk.fileLocation? p = some l ↔
      ∃ segments name here, (isUnusable p || isTooLong name) = false ∧
        disk.Writable p segments name here ∧ l = here ++ [name] := by
  obtain ⟨init, last, hsegments⟩ : ∃ init last, p.segments = init ++ [last] := by
    rcases List.eq_nil_or_concat p.segments with hnil | ⟨init, last, heq⟩
    · exact absurd hnil (List.splitOn_ne_nil '/' p.text)
    · exact ⟨init, last, by rw [heq, List.concat_eq_append]⟩
  have hlast : p.segments.getLastD [] = last := by rw [hsegments]; simp
  have hinit : p.segments.dropLast = init := by rw [hsegments, List.dropLast_concat]
  have hcounts : (Path.isTrivial last || decide (last = ['.', '.'])) = false ↔
      Path.innerComponent? last = some (.name last) := by
    rw [Path.innerComponent?]
    cases Path.isTrivial last <;> by_cases hup : last = ['.', '.'] <;> simp [hup]
  have hfree : ∀ {here entries}, disk.root.at? here = some (.directory entries) →
      (disk.kind? (here ++ [last]) ≠ some .directory ↔
        ∀ inner, Table.find? entries last ≠ some (.directory inner)) := by
    intro here entries hentries
    rw [kind?_concat hentries]
    cases hfind : Table.find? entries last with
    | none => simp
    | some node => cases node <;> simp [Node.kind]
  rw [fileLocation?, hlast, hinit]
  constructor
  · intro h
    split at h
    · cases h
    · next husable =>
        rw [Bool.not_eq_true, Bool.or_assoc, Bool.or_eq_false_iff] at husable
        split at h
        · cases h
        · next here hhere =>
            split at h
            · next entries hentries =>
                split at h
                · cases h
                · next hfind =>
                    exact ⟨init, last, here, husable.1, ⟨hsegments, hcounts.mp husable.2, hhere,
                      kind?_eq_directory.mpr ⟨entries, hentries⟩, (hfree hentries).mpr hfind⟩,
                      (Option.some.inj h).symm⟩
            · cases h
  · rintro ⟨segments, name, here, husable, hwritable, rfl⟩
    obtain ⟨rfl, hname⟩ := List.append_inj' (hsegments.symm.trans hwritable.segments_eq) rfl
    obtain rfl := List.singleton_inj.mp hname
    obtain ⟨entries, hentries⟩ := kind?_eq_directory.mp hwritable.directory
    have hnot : ¬ (isUnusable p || isTooLong last || Path.isTrivial last ||
        decide (last = ['.', '.'])) = true := by
      rw [Bool.not_eq_true, Bool.or_assoc, husable, hcounts.mpr hwritable.counts]
      rfl
    rw [if_neg hnot, hwritable.followed]
    dsimp only
    rw [hentries]
    dsimp only
    split
    · next inner hfind => exact absurd hfind ((hfree hentries).mp hwritable.free inner)
    · rfl

namespace Writable

variable {segments here : List Text} {name : Text}

theorem inner_eq (h : disk.Writable p segments name here) :
    p.inner = segments.filterMap Path.innerComponent? ++ [.name name] := by
  rw [Path.inner, h.segments_eq, List.filterMap_append, List.filterMap_cons_some h.counts]
  rfl

/-- A file is written at the place of its path. -/
theorem place_eq (h : disk.Writable p segments name here) : disk.place p = here ++ [name] := by
  rw [place, h.inner_eq, placeFrom_append, ← (eq_placeFrom_of_followAll? h.followed).1]
  rfl

theorem fileName?_eq (h : disk.Writable p segments name here) : p.fileName? = some name :=
  Path.fileName?_eq_some_iff.mpr ⟨_, h.inner_eq⟩

theorem isName (h : disk.Writable p segments name here) : Path.IsName name :=
  ⟨Path.slash_not_mem (h.segments_eq ▸ List.mem_append_right _ List.mem_cons_self), h.counts⟩

/-- A written file is found again. -/
theorem locate?_eq (h : disk.Writable p segments name here) (husable : isUnusable p = false)
    (hthere : disk.kind? (here ++ [name]) ≠ none) : disk.locate? p = some (disk.place p) := by
  have htext : p.text.isEmpty = false := by
    rw [Bool.eq_false_iff, ne_eq, List.isEmpty_iff]
    intro hnil
    have hinner := h.inner_eq
    rw [Path.inner, Path.segments, hnil] at hinner
    exact List.append_ne_nil_of_right_ne_nil _ (List.cons_ne_nil _ _) hinner.symm
  have hstep : placeFrom here (Path.innerComponent? name).toList = here ++ [name] := by
    rw [h.counts]
    rfl
  rw [locate?, htext, husable, h.segments_eq, followAll?_append, h.followed, Option.bind_some,
    h.place_eq]
  exact followAll?_cons_eq_some.mpr ⟨h.directory, hstep ▸ hthere, by rw [hstep]; rfl⟩

theorem grown (h : disk.Writable p segments name here) {files directories : Set (List Text)}
    {new : Disk} (hgrown : Grown files directories disk new)
    (hfree : new.kind? (here ++ [name]) ≠ some .directory) :
    new.Writable p segments name here :=
  ⟨h.segments_eq, h.counts, hgrown.start_eq p ▸ hgrown.followAll? h.followed,
    hgrown.directory h.directory, hfree⟩

end Writable

theorem write_eq_true {content : Content} {new : Disk} :
    disk.write p content = (true, new) ↔
      ∃ segments name here, (isUnusable p || isTooLong name) = false ∧
        disk.Writable p segments name here ∧
        new = disk.putAt (here ++ [name]) (.file content) := by
  rw [write]
  constructor
  · intro h
    split at h
    · cases h
    · next l hl =>
        obtain ⟨segments, name, here, husable, hwritable, rfl⟩ := fileLocation?_eq_some.mp hl
        exact ⟨segments, name, here, husable, hwritable, (Prod.mk.inj h).2.symm⟩
  · rintro ⟨segments, name, here, husable, hwritable, rfl⟩
    rw [fileLocation?_eq_some.mpr ⟨segments, name, here, husable, hwritable, rfl⟩]
    rfl

/-! ### Pages -/

variable {html : Text} {new : Disk}

/-- **A page is written** into a directory that was made, if need be, before. -/
theorem writePage_eq_ok :
    disk.writePage p html = (.ok (), new) ↔
      ∃ dir mid, p.parent? = some dir ∧ disk.makeDirectories dir = (true, mid) ∧
        mid.write p (.text html) = (true, new) := by
  have hwrite : ∀ {disk new : Disk}, disk.writeText p html = (.ok (), new) ↔
      disk.write p (.text html) = (true, new) := by
    intro disk new
    rw [writeText]
    rcases disk.write p (.text html) with ⟨_ | _, after⟩ <;> simp
  rw [writePage]
  cases hparent : p.parent? with
  | none =>
      refine iff_of_false (fun h => ?_) (by simp)
      obtain ⟨segments, name, here, -, hwritable, -⟩ := write_eq_true.mp (hwrite.mp h)
      obtain ⟨dir, hdir, -⟩ := Path.exists_parent hwritable.fileName?_eq
      rw [hparent] at hdir
      cases hdir
  | some dir =>
      rcases hmake : disk.makeDirectories dir with ⟨_ | _, mid⟩
      · simp [hmake]
      · simp [hmake, hwrite]

/-- A page that cannot be written is not one that cannot be rendered. -/
theorem templateError?_of_writePage {e : SiteError} (h : disk.writePage p html = (.error e, new)) :
    e.templateError? = none := by
  have hwrite : ∀ {disk : Disk}, disk.writeText p html = (.error e, new) →
      e.templateError? = none := by
    intro disk h
    rw [writeText] at h
    split at h
    · cases h
    · obtain ⟨he, -⟩ := Prod.mk.inj h
      obtain rfl := Except.error.inj he
      rfl
  rw [writePage] at h
  split at h
  · exact hwrite h
  · split at h
    · exact hwrite h
    · obtain ⟨he, -⟩ := Prod.mk.inj h
      obtain rfl := Except.error.inj he
      rfl

theorem makeDirectories_eq_true :
    disk.makeDirectories p = (true, new) ↔
      isUnusable p = false ∧ disk.makeAlong (disk.start p) p.segments = (true, new) := by
  rw [makeDirectories]
  cases isUnusable p <;> simp

/-- The directories that are made for a page were missing on the way to it. -/
theorem grown_of_makeDirectories {dir : Path} {n : Text} (hn : p.fileName? = some n)
    (hdir : p.parent? = some dir) (h : disk.makeDirectories dir = (true, new)) :
    Grown ∅ (disk.missingFor p) disk new := by
  obtain ⟨other, hother, -, habs, hinner⟩ := Path.exists_parent hn
  obtain rfl := Option.some.inj (hother.symm.trans hdir)
  obtain ⟨-, hmake⟩ := makeDirectories_eq_true.mp h
  have hway : disk.missingFor p = onWay (disk.start other) other.inner ∩ disk.missing := by
    rw [missingFor, hinner, List.dropLast_concat, start, start, habs]
  rw [hway]
  exact grown_of_makeAlong hmake

section Written

variable (h : disk.writePage p html = (.ok (), new))

include h

/-- The two steps of writing a page. -/
theorem exists_writable_of_writePage :
    ∃ dir mid segments name here, p.parent? = some dir ∧
      disk.makeDirectories dir = (true, mid) ∧ (isUnusable p || isTooLong name) = false ∧
      mid.Writable p segments name here ∧ here ++ [name] = disk.place p ∧
      new = mid.putAt (here ++ [name]) (.file (.text html)) ∧
      Grown ∅ (disk.missingFor p) disk mid ∧
      Grown {here ++ [name]} ∅ mid new := by
  obtain ⟨dir, mid, hdir, hmake, hwrite⟩ := writePage_eq_ok.mp h
  obtain ⟨segments, name, here, husable, hwritable, rfl⟩ := write_eq_true.mp hwrite
  have hmade := grown_of_makeDirectories hwritable.fileName?_eq hdir hmake
  have hplace : here ++ [name] = disk.place p := by rw [← hwritable.place_eq, hmade.place_eq]
  exact ⟨dir, mid, segments, name, here, hdir, hmake, husable, hwritable, hplace, rfl, hmade,
    grown_putAt_file hwritable.directory hwritable.free _⟩

/-- **What is written** for a page is a file at its place and missing directories on the way to
it. -/
theorem grown_of_writePage :
    Grown {disk.place p} (disk.missingFor p) disk new := by
  obtain ⟨dir, mid, segments, name, here, -, -, -, -, hplace, -, hmade, hfile⟩ :=
    exists_writable_of_writePage h
  rw [hplace] at hfile
  exact (hmade.mono (Set.empty_subset _) subset_rfl).trans
    (hfile.mono subset_rfl (Set.empty_subset _))

/-- **A written page** is read back. -/
theorem kindOf?_of_writePage : new.kindOf? p = some (.file (.text html)) := by
  obtain ⟨dir, mid, segments, name, here, -, -, husable, hwritable, -, rfl, -, hfile⟩ :=
    exists_writable_of_writePage h
  have hkind : (mid.putAt (here ++ [name]) (.file (.text html))).kind? (here ++ [name]) =
      some (.file (.text html)) := by
    rw [kind?, at?_putAt_self hwritable.directory]
    rfl
  have hnew := hwritable.grown hfile (by simp [hkind])
  rw [kindOf?, hnew.locate?_eq (Bool.or_eq_false_iff.mp husable).1 (by simp [hkind]),
    Option.bind_some, hnew.place_eq, hkind]

theorem wellFormed_of_writePage (hdisk : disk.root.WellFormed) : new.root.WellFormed := by
  obtain ⟨dir, mid, segments, name, here, -, hmake, -, hwritable, -, rfl, -, -⟩ :=
    exists_writable_of_writePage h
  have hmid := wellFormed_makeAlong hdisk (fun s hs => Path.slash_not_mem hs)
    (makeDirectories_eq_true.mp hmake).2
  exact wellFormed_putAt hmid hwritable.directory hwritable.isName (Node.wellFormed_file _)

/-- **Once is enough.** A page that is still there is written again without a change. -/
theorem writePage_again {later : Disk} {files directories : Set (List Text)}
    (hgrown : Grown files directories new later) (hlater : later.root.WellFormed)
    (hpage : later.kindOf? p = some (.file (.text html))) :
    later.writePage p html = (.ok (), later) := by
  obtain ⟨dir, mid, segments, name, here, hdir, hmake, husable, hwritable, hplace, rfl, hmade,
    hfile⟩ := exists_writable_of_writePage h
  obtain ⟨l, hl, hpage⟩ := Option.bind_eq_some_iff.mp hpage
  obtain rfl : l = here ++ [name] := by
    rw [(eq_place_of_locate? hl).1, hgrown.place_eq, hfile.place_eq, hwritable.place_eq]
  have hnew := hwritable.grown hfile (by
    simp [kind?, at?_putAt_self hwritable.directory, Node.kind])
  have hagain := hnew.grown hgrown (by simp [hpage])
  -- the directories are there
  obtain ⟨husableDir, hmakeAlong⟩ := makeDirectories_eq_true.mp hmake
  obtain ⟨m, hm, hmdir⟩ := followAll?_of_makeAlong hmakeAlong
  have hway := hgrown.followAll? (hfile.followAll? hm)
  have hmakeAgain : later.makeDirectories dir = (true, later) := by
    rw [makeDirectories_eq_true, hgrown.start_eq, hfile.start_eq, hmade.start_eq]
    exact ⟨husableDir, makeAlong_of_followAll? hway
      (hgrown.directory (hfile.directory hmdir))⟩
  -- and the file is the one that is put there
  have hput : later.putAt (here ++ [name]) (.file (.text html)) = later := by
    rw [putAt, Node.put_eq_self hlater (kind?_eq_file.mp hpage)]
  exact writePage_eq_ok.mpr ⟨dir, later, hdir, hmakeAgain,
    write_eq_true.mpr ⟨segments, name, here, husable, hagain, hput.symm⟩⟩

end Written

end Disk

end IndentHtml
