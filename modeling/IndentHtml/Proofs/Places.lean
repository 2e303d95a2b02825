import IndentHtml.Disk
import IndentHtml.Proofs.NormalForm
import Mathlib.Data.Set.Basic

/-!
# Places

The *place* of a path is the location it would lead to if every directory on its way existed
(`Disk.place`).  A path leads to its place or nowhere (`Disk.eq_place_of_locate?`), and whether it
does depends on what *kinds* of nodes there are: directories, and files with their contents
(`Disk.kind?`).

**Growth.**  A disk has `Grown` when files were written at some locations and missing directories
were made at some others, and nothing else was done to it.  A path that led somewhere still does
(`Disk.Grown.locate?`), and a location without such changes at it or below it holds the very same
tree.
-/

namespace IndentHtml

/-! ### Kinds -/

/-- What a node is, without what is below it. -/
inductive Kind where
  | directory
  | file (content : Content)
  deriving DecidableEq, Repr

namespace Node

/-- The kind of a node. -/
def kind : Node → Kind
  | file content => .file content
  | directory _ => .directory

theorem kind_eq_directory {node : Node} :
    node.kind = .directory ↔ ∃ entries, node = directory entries := by
  cases node with
  | file content => exact ⟨nofun, fun ⟨_, h⟩ => nomatch h⟩
  | directory entries => exact ⟨fun _ => ⟨entries, rfl⟩, fun _ => rfl⟩

theorem kind_eq_file {node : Node} {content : Content} :
    node.kind = .file content ↔ node = file content := by
  cases node with
  | file other => simp [kind]
  | directory entries => simp [kind]

/-- What is at a location is found from any location on the way. -/
theorem at?_append (node : Node) (l m : List Text) :
    node.at? (l ++ m) = (node.at? l).bind fun inner => inner.at? m := by
  induction l generalizing node with
  | nil => rfl
  | cons name l ih =>
      rw [List.cons_append, at?, at?]
      cases node.child? name with
      | none => rfl
      | some child => exact ih child

end Node

namespace Disk

/-- The kind of the node at a location. -/
def kind? (disk : Disk) (location : List Text) : Option Kind :=
  (disk.root.at? location).map Node.kind

variable {disk : Disk}

theorem kind?_eq_directory {location : List Text} :
    disk.kind? location = some .directory ↔
      ∃ entries, disk.root.at? location = some (.directory entries) := by
  rw [kind?, Option.map_eq_some_iff]
  constructor
  · rintro ⟨node, hnode, hkind⟩
    obtain ⟨entries, rfl⟩ := Node.kind_eq_directory.mp hkind
    exact ⟨entries, hnode⟩
  · rintro ⟨entries, hnode⟩
    exact ⟨_, hnode, rfl⟩

theorem kind?_eq_file {location : List Text} {content : Content} :
    disk.kind? location = some (.file content) ↔
      disk.root.at? location = some (.file content) := by
  rw [kind?, Option.map_eq_some_iff]
  constructor
  · rintro ⟨node, hnode, hkind⟩
    rwa [Node.kind_eq_file.mp hkind] at hnode
  · intro hnode
    exact ⟨_, hnode, rfl⟩

theorem kind?_eq_none {location : List Text} :
    disk.kind? location = none ↔ disk.root.at? location = none := by
  rw [kind?, Option.map_eq_none_iff]

/-- What is at a location below a directory is the entry of the directory. -/
theorem kind?_concat {here : List Text} {entries : List (Text × Node)}
    (h : disk.root.at? here = some (.directory entries)) (name : Text) :
    disk.kind? (here ++ [name]) = (Table.find? entries name).map Node.kind := by
  rw [kind?, Node.at?_append, h, Option.bind_some, Node.at?, Node.child?]
  cases Table.find? entries name <;> rfl

/-- A directory has an entry of a name exactly when something is at the location below it. -/
theorem contains_eq {here : List Text} {entries : List (Text × Node)}
    (h : disk.root.at? here = some (.directory entries)) (name : Text) :
    Table.contains entries name = (disk.kind? (here ++ [name])).isSome := by
  rw [kind?_concat h, Option.isSome_map, Table.contains]

/-! ### The place of a path -/

/-- The location that one component leads to. -/
def stepPlace (here : List Text) : Path.Component → List Text
  | .root => []
  | .here => here
  | .up => here.dropLast
  | .name t => here ++ [t]

/-- The location that components lead to. -/
def placeFrom (here : List Text) (cs : List Path.Component) : List Text :=
  cs.foldl stepPlace here

/-- The location that a path leads to if it leads anywhere. -/
def place (disk : Disk) (p : Path) : List Text :=
  placeFrom (disk.start p) p.inner

theorem placeFrom_append (here : List Text) (cs ds : List Path.Component) :
    placeFrom here (cs ++ ds) = placeFrom (placeFrom here cs) ds :=
  List.foldl_append

/-- Names lead further down, one after the other. -/
theorem placeFrom_names (here names : List Text) :
    placeFrom here (names.map .name) = here ++ names := by
  induction names generalizing here with
  | nil => rw [List.append_nil]; rfl
  | cons name names ih =>
      rw [List.map_cons, placeFrom, List.foldl_cons, ← placeFrom, ih, stepPlace, List.append_assoc,
        List.singleton_append]

/-- Above something there is a directory. -/
theorem kind?_of_append {here more : List Text} (h : disk.kind? (here ++ more) ≠ none)
    (hmore : more ≠ []) : disk.kind? here = some .directory := by
  rw [ne_eq, kind?_eq_none, Node.at?_append] at h
  cases hnode : disk.root.at? here with
  | none => simp [hnode] at h
  | some node =>
      cases node with
      | directory entries => exact kind?_eq_directory.mpr ⟨entries, hnode⟩
      | file content =>
          cases more with
          | nil => exact absurd rfl hmore
          | cons name more => simp [hnode, Node.at?, Node.child?] at h

/-- Above a directory there is a directory.  The topmost one is its own parent. -/
theorem kind?_dropLast {here : List Text} (h : disk.kind? here = some .directory) :
    disk.kind? here.dropLast = some .directory := by
  rcases List.eq_nil_or_concat here with rfl | ⟨init, last, rfl⟩
  · exact h
  · rw [List.concat_eq_append] at h ⊢
    rw [List.dropLast_concat]
    exact kind?_of_append (by rw [h]; nofun) (List.cons_ne_nil _ _)

/-- **One step.**  A segment is followed from a directory to something that is there. -/
theorem follow?_eq_some {here next : List Text} {segment : Text} :
    disk.follow? here segment = some next ↔
      disk.kind? here = some .directory ∧
      next = placeFrom here (Path.innerComponent? segment).toList ∧
      disk.kind? next ≠ none := by
  by_cases hdir : disk.kind? here = some .directory
  · obtain ⟨entries, hentries⟩ := kind?_eq_directory.mp hdir
    have hthere : disk.kind? here ≠ none := hdir.symm ▸ Option.some_ne_none _
    have habove : disk.kind? here.dropLast ≠ none :=
      (kind?_dropLast hdir).symm ▸ Option.some_ne_none _
    rw [and_iff_right hdir, follow?, hentries, Path.innerComponent?]
    dsimp only
    rw [contains_eq hentries]
    split
    · exact ⟨fun h => Option.some.inj h ▸ ⟨rfl, hthere⟩, fun h => h.1 ▸ rfl⟩
    · split
      · exact ⟨fun h => Option.some.inj h ▸ ⟨rfl, habove⟩, fun h => h.1 ▸ rfl⟩
      · split
        · next hthere =>
            exact ⟨fun h => Option.some.inj h ▸ ⟨rfl, Option.isSome_iff_ne_none.mp hthere⟩,
              fun h => h.1 ▸ rfl⟩
        · next hmissing =>
            refine ⟨fun h => absurd h.symm (Option.some_ne_none _), fun h => absurd ?_ hmissing⟩
            rw [h.1] at h
            exact Option.isSome_iff_ne_none.mpr h.2
  · rw [iff_false_right fun h => hdir h.1, follow?]
    split
    · next entries hentries => exact absurd (kind?_eq_directory.mpr ⟨entries, hentries⟩) hdir
    · exact (Option.some_ne_none _).symm

/-- What counts of some segments, with the first one apart. -/
theorem filterMap_cons (segment : Text) (segments : List Text) :
    (segment :: segments).filterMap Path.innerComponent? =
      (Path.innerComponent? segment).toList ++ segments.filterMap Path.innerComponent? := by
  cases h : Path.innerComponent? segment <;> simp [h]

/-- Segments are followed when the first one leads from a directory to something, and the others go
on from its place. -/
theorem followAll?_cons_eq_some {here l : List Text} {segment : Text} {segments : List Text} :
    disk.followAll? here (segment :: segments) = some l ↔
      disk.kind? here = some .directory ∧
      disk.kind? (placeFrom here (Path.innerComponent? segment).toList) ≠ none ∧
      disk.followAll? (placeFrom here (Path.innerComponent? segment).toList) segments = some l := by
  rw [followAll?, Option.bind_eq_some_iff]
  constructor
  · rintro ⟨next, hnext, hrest⟩
    obtain ⟨hdir, rfl, hthere⟩ := follow?_eq_some.mp hnext
    exact ⟨hdir, hthere, hrest⟩
  · rintro ⟨hdir, hthere, hrest⟩
    exact ⟨_, follow?_eq_some.mpr ⟨hdir, rfl, hthere⟩, hrest⟩

/-- Segments are followed part by part. -/
theorem followAll?_append (here : List Text) (segments more : List Text) :
    disk.followAll? here (segments ++ more) =
      (disk.followAll? here segments).bind fun next => disk.followAll? next more := by
  induction segments generalizing here with
  | nil => rfl
  | cons segment segments ih =>
      rw [List.cons_append, followAll?, followAll?]
      cases disk.follow? here segment with
      | none => rfl
      | some next => exact ih next

/-- Segments are followed to their place, where there is something. -/
theorem eq_placeFrom_of_followAll? {here l : List Text} {segments : List Text}
    (h : disk.followAll? here segments = some l) :
    l = placeFrom here (segments.filterMap Path.innerComponent?) ∧
      (segments ≠ [] → disk.kind? l ≠ none) := by
  induction segments generalizing here with
  | nil => exact ⟨(Option.some.inj h).symm, fun hne => absurd rfl hne⟩
  | cons segment segments ih =>
      obtain ⟨-, hthere, hrest⟩ := followAll?_cons_eq_some.mp h
      obtain ⟨hl, hmore⟩ := ih hrest
      refine ⟨by rw [hl, filterMap_cons, placeFrom_append], fun _ => ?_⟩
      cases segments with
      | nil => exact Option.some.inj hrest ▸ hthere
      | cons next segments => exact hmore (List.cons_ne_nil _ _)

/-- **A path leads to its place** or nowhere. -/
theorem eq_place_of_locate? {p : Path} {l : List Text} (h : disk.locate? p = some l) :
    l = disk.place p ∧ disk.kind? l ≠ none := by
  rw [locate?] at h
  split at h
  · cases h
  · obtain ⟨hl, hthere⟩ := eq_placeFrom_of_followAll? h
    exact ⟨hl, hthere (List.splitOn_ne_nil '/' p.text)⟩

/-! ### Questions about paths -/

/-- The kind of what a path leads to. -/
def kindOf? (disk : Disk) (p : Path) : Option Kind :=
  (disk.locate? p).bind disk.kind?

/-- The questions about a path are all answered by the kind of what it leads to. -/
theorem map_kind_node? (disk : Disk) (p : Path) :
    (disk.node? p).map Node.kind = disk.kindOf? p := by
  rw [node?, kindOf?, Option.map_bind]
  rfl

theorem isFile_eq_true {p : Path} :
    disk.isFile p = true ↔ ∃ content, disk.kindOf? p = some (.file content) := by
  rw [isFile, ← map_kind_node?]
  cases disk.node? p with
  | none => simp
  | some node => cases node <;> simp [Node.kind]

theorem isDirectory_eq_true {p : Path} :
    disk.isDirectory p = true ↔ disk.kindOf? p = some .directory := by
  rw [isDirectory, ← map_kind_node?]
  cases disk.node? p with
  | none => simp
  | some node => cases node <;> simp [Node.kind]

theorem isPresent_eq_true {p : Path} : disk.isPresent p = true ↔ disk.kindOf? p ≠ none := by
  rw [isPresent, ← map_kind_node?, Option.isSome_iff_ne_none, ne_eq, ne_eq,
    Option.map_eq_none_iff]

/-- A text is read from a path that leads to a file with this text. -/
theorem readText?_eq_some {p : Path} {t : Text} :
    disk.readText? p = some t ↔ disk.kindOf? p = some (.file (.text t)) := by
  rw [readText?, ← map_kind_node?]
  cases disk.node? p with
  | none => simp
  | some node =>
      cases node with
      | directory entries => simp [Node.kind]
      | file content => cases content <;> simp [Node.kind]

/-- Two disks read a template alike when it is of one kind on both. -/
theorem readTemplate_congr {disk' : Disk} {p : Path} (h : disk'.kindOf? p = disk.kindOf? p) :
    disk'.readTemplate p = disk.readTemplate p := by
  rw [← map_kind_node?, ← map_kind_node?] at h
  rw [readTemplate, readTemplate]
  cases hnode : disk.node? p with
  | none =>
      rw [hnode, Option.map_none, Option.map_eq_none_iff] at h
      rw [h]
  | some node =>
      rw [hnode, Option.map_some] at h
      obtain ⟨node', hnode', hkind⟩ := Option.map_eq_some_iff.mp h
      rw [hnode']
      cases node with
      | file content => rw [Node.kind_eq_file.mp hkind]
      | directory entries =>
          obtain ⟨entries', rfl⟩ := Node.kind_eq_directory.mp hkind
          rfl

/-! ### Growth -/

/-- What is left of a disk when files were written at some locations and missing directories were
made at others. -/
structure Grown (files directories : Set (List Text)) (old new : Disk) : Prop where
  current : new.current = old.current
  kind : ∀ l, new.kind? l = old.kind? l ∨
    (l ∈ files ∧ old.kind? l ≠ some .directory ∧ ∃ content, new.kind? l = some (.file content)) ∨
    (l ∈ directories ∧ old.kind? l = none ∧ new.kind? l = some .directory)
  /-- A tree with no changes in it is the same tree. -/
  tree : ∀ l, (∀ m ∈ files ∪ directories, ¬ l <+: m) → new.root.at? l = old.root.at? l

/-- Holds of a way that leads through none of some locations.  It may end at one. -/
def Avoids (locations : Set (List Text)) (here : List Text) (cs : List Path.Component) : Prop :=
  ∀ before after, cs = before ++ after → after ≠ [] → placeFrom here before ∉ locations

/-- What is left of a way avoids what the way avoids. -/
theorem avoids_append {locations : Set (List Text)} {here : List Text}
    {cs ds : List Path.Component} (h : Avoids locations here (cs ++ ds)) :
    Avoids locations (placeFrom here cs) ds := by
  intro before after heq hne
  rw [← placeFrom_append]
  exact h (cs ++ before) after (by rw [heq, List.append_assoc]) hne

namespace Grown

variable {files directories files' directories' : Set (List Text)} {old mid new : Disk}

theorem refl (files directories : Set (List Text)) (disk : Disk) :
    Grown files directories disk disk :=
  ⟨rfl, fun _ => .inl rfl, fun _ _ => rfl⟩

/-- A disk that has grown at some locations has grown at more. -/
theorem mono (h : Grown files directories old new) (hfiles : files ⊆ files')
    (hdirectories : directories ⊆ directories') : Grown files' directories' old new := by
  refine ⟨h.current, fun l => ?_, fun l hl => h.tree l fun m hm => ?_⟩
  · rcases h.kind l with heq | ⟨hl, hfile⟩ | ⟨hl, hdir⟩
    · exact .inl heq
    · exact .inr (.inl ⟨hfiles hl, hfile⟩)
    · exact .inr (.inr ⟨hdirectories hl, hdir⟩)
  · exact hl m (Set.union_subset_union hfiles hdirectories hm)

/-- A directory is still one, on a disk that has grown. -/
theorem directory (h : Grown files directories old new) {l : List Text}
    (hl : old.kind? l = some .directory) : new.kind? l = some .directory := by
  rcases h.kind l with heq | ⟨-, hnot, -⟩ | ⟨-, -, hnew⟩
  · rw [heq, hl]
  · exact absurd hl hnot
  · exact hnew

/-- What was there is still there. -/
theorem present (h : Grown files directories old new) {l : List Text}
    (hl : old.kind? l ≠ none) : new.kind? l ≠ none := by
  rcases h.kind l with heq | ⟨-, -, content, hnew⟩ | ⟨-, -, hnew⟩
  · rwa [heq]
  · rw [hnew]
    nofun
  · rw [hnew]
    nofun

/-- Growth after growth is growth.  What was missing after the first step was missing before it too,
since nothing is taken away. -/
theorem trans (h : Grown files directories old mid) (h' : Grown files directories mid new) :
    Grown files directories old new := by
  refine ⟨h'.current.trans h.current, fun l => ?_, fun l hl => (h'.tree l hl).trans (h.tree l hl)⟩
  rcases h'.kind l with heq | ⟨hl, hnot, hfile⟩ | ⟨hl, hnone, hdir⟩
  · rw [heq]
    exact h.kind l
  · exact .inr (.inl ⟨hl, fun hold => hnot (h.directory hold), hfile⟩)
  · refine .inr (.inr ⟨hl, ?_, hdir⟩)
    by_contra hold
    exact h.present hold hnone

/-- Segments that were followed are still followed, to the same location. -/
theorem followAll? (h : Grown files directories old new) {here l segments : List Text}
    (hl : old.followAll? here segments = some l) : new.followAll? here segments = some l := by
  induction segments generalizing here with
  | nil => exact hl
  | cons segment segments ih =>
      obtain ⟨hdir, hthere, hrest⟩ := followAll?_cons_eq_some.mp hl
      exact followAll?_cons_eq_some.mpr ⟨h.directory hdir, h.present hthere, ih hrest⟩

theorem start_eq (h : Grown files directories old new) (p : Path) : new.start p = old.start p := by
  rw [start, start, h.current]

/-- The place of a path does not depend on what has grown. -/
theorem place_eq (h : Grown files directories old new) (p : Path) : new.place p = old.place p := by
  rw [place, place, h.start_eq]

/-- **A path that led somewhere** leads there on a grown disk. -/
theorem locate? (h : Grown files directories old new) {p : Path} {l : List Text}
    (hl : old.locate? p = some l) : new.locate? p = some l := by
  rw [Disk.locate?] at hl ⊢
  split at hl
  · cases hl
  · next husable => rw [if_neg husable, h.start_eq, h.followAll? hl]

theorem isDirectory (h : Grown files directories old new) {p : Path}
    (hp : old.isDirectory p = true) : new.isDirectory p = true := by
  obtain ⟨l, hl, hkind⟩ := Option.bind_eq_some_iff.mp (isDirectory_eq_true.mp hp)
  exact isDirectory_eq_true.mpr
    (Option.bind_eq_some_iff.mpr ⟨l, h.locate? hl, h.directory hkind⟩)

theorem isPresent (h : Grown files directories old new) {p : Path}
    (hp : old.isPresent p = true) : new.isPresent p = true := by
  obtain ⟨kind, hkind⟩ := Option.ne_none_iff_exists'.mp (isPresent_eq_true.mp hp)
  obtain ⟨l, hl, hkind⟩ := Option.bind_eq_some_iff.mp hkind
  refine isPresent_eq_true.mpr ?_
  rw [kindOf?, h.locate? hl]
  exact h.present (by rw [hkind]; nofun)

/-- A path that led to something leads to something of the same kind, unless a file was written
there. -/
theorem kindOf?_eq (h : Grown files directories old new) {p : Path}
    (hp : old.kindOf? p ≠ none) (hfiles : old.place p ∉ files) :
    new.kindOf? p = old.kindOf? p := by
  cases hl : old.locate? p with
  | none => rw [kindOf?, hl] at hp; exact absurd rfl hp
  | some l =>
      obtain ⟨rfl, hthere⟩ := eq_place_of_locate? hl
      rw [kindOf?, kindOf?, hl, h.locate? hl, Option.bind_some, Option.bind_some]
      rcases h.kind (old.place p) with heq | ⟨hmem, -⟩ | ⟨-, hnone, -⟩
      · exact heq
      · exact absurd hmem hfiles
      · exact absurd hnone hthere

section Back

variable {here l segments : List Text} {content : Content}

/-- Nothing has changed on a way to an old file. -/
theorem kind?_back (h : Grown files directories old new)
    (hl : new.followAll? here segments = some l) (hfile : new.kind? l = some (.file content))
    (hnew : l ∉ files) (hway : Avoids directories here (segments.filterMap Path.innerComponent?)) :
    new.kind? here = old.kind? here := by
  rcases h.kind here with heq | ⟨hmem, -, other, hother⟩ | ⟨hmem, -, hdir⟩
  · exact heq
  · cases segments with
    | nil => exact absurd (Option.some.inj hl ▸ hmem) hnew
    | cons segment segments =>
        have hdir := (followAll?_cons_eq_some.mp hl).1
        rw [hother] at hdir
        cases hdir
  · -- a made directory is no file, so the way goes on from it
    have hne : segments.filterMap Path.innerComponent? ≠ [] := by
      intro hnil
      have hhere := (eq_placeFrom_of_followAll? hl).1
      rw [hnil] at hhere
      obtain rfl : l = here := hhere
      rw [hfile] at hdir
      cases hdir
    exact absurd hmem (hway [] _ rfl hne)

/-- **A way to an old file** that leads through no new directory was there before. -/
theorem followAll?_back (h : Grown files directories old new)
    (hl : new.followAll? here segments = some l) (hfile : new.kind? l = some (.file content))
    (hnew : l ∉ files) (hway : Avoids directories here (segments.filterMap Path.innerComponent?)) :
    old.followAll? here segments = some l := by
  induction segments generalizing here with
  | nil => exact hl
  | cons segment segments ih =>
      have hhere := h.kind?_back hl hfile hnew hway
      obtain ⟨hdir, hthere, hrest⟩ := followAll?_cons_eq_some.mp hl
      rw [filterMap_cons] at hway
      replace hway := avoids_append hway
      have hnext := h.kind?_back hrest hfile hnew hway
      exact followAll?_cons_eq_some.mpr ⟨hhere ▸ hdir, hnext ▸ hthere, ih hrest hway⟩

end Back

/-- **A file that is not new** was there, when the way to it leads through no new directory. -/
theorem isFile_eq (h : Grown files directories old new) {p : Path} (hp : old.place p ∉ files)
    (hway : Avoids directories (old.start p) p.inner) : new.isFile p = old.isFile p := by
  rw [Bool.eq_iff_iff, isFile_eq_true, isFile_eq_true]
  constructor
  · rintro ⟨content, hcontent⟩
    obtain ⟨l, hl, hfile⟩ := Option.bind_eq_some_iff.mp hcontent
    obtain rfl : l = old.place p := (eq_place_of_locate? hl).1.trans (h.place_eq p)
    have hback : old.locate? p = some (old.place p) := by
      rw [Disk.locate?] at hl ⊢
      split at hl
      · cases hl
      · next husable =>
          rw [h.start_eq] at hl
          rw [if_neg husable, h.followAll?_back hl hfile hp hway]
    have hold : old.kindOf? p ≠ none := by
      rw [kindOf?, hback]
      exact (eq_place_of_locate? hback).2
    exact ⟨content, by rw [← h.kindOf?_eq hold hp, hcontent]⟩
  · rintro ⟨content, hcontent⟩
    refine ⟨content, ?_⟩
    rw [h.kindOf?_eq (by rw [hcontent]; nofun) hp, hcontent]

end Grown

end Disk

end IndentHtml
