import IndentHtml.Text.Basic

/-!
# Paths

A path is a text whose segments are separated by `/`.  It is shown as it was written, but compared
by its components: empty segments and the segment `.` count only at the front.  Functions that cut
a path keep the spelling of the part they leave.
-/

namespace IndentHtml

/-- A path as it was written. -/
structure Path where
  text : Text
  deriving DecidableEq, Repr

namespace Path

/-- A component of a path. -/
inductive Component where
  /-- The leading `/` of an absolute path. -/
  | root
  /-- A leading `.`. -/
  | here
  /-- The segment `..`. -/
  | up
  | name (text : Text)
  deriving DecidableEq, Repr

/-- The path of a string. -/
def ofString (s : String) : Path := ⟨s.toList⟩

/-- The empty path. -/
def empty : Path := ⟨[]⟩

/-- The pieces of a path between its slashes; there is always at least one. -/
def segments (p : Path) : List Text :=
  List.splitOn '/' p.text

/-- The path of a list of segments. -/
def ofSegments (segments : List Text) : Path :=
  ⟨List.intercalate ['/'] segments⟩

/-- Holds of a segment that names nothing when it is not the first one. -/
def isTrivial (segment : Text) : Bool :=
  segment.isEmpty || segment = ['.']

/-- The component of a segment after the first one. -/
def innerComponent? (segment : Text) : Option Component :=
  if isTrivial segment then none
  else if segment = ['.', '.'] then some .up
  else some (.name segment)

/-- The component of the first segment. -/
def firstComponent (segment : Text) : Component :=
  if segment.isEmpty then .root
  else if segment = ['.'] then .here
  else if segment = ['.', '.'] then .up
  else .name segment

/-- The components of a path. -/
def components (p : Path) : List Component :=
  if p.text.isEmpty then []
  else
    match p.segments with
    | [] => []
    | first :: rest => firstComponent first :: rest.filterMap innerComponent?

/-- Equality of paths: the components agree. -/
def same (p q : Path) : Bool :=
  decide (p.components = q.components)

/-- Holds of a path that starts with a slash. -/
def isAbsolute (p : Path) : Bool :=
  match p.text with
  | '/' :: _ => true
  | _ => false

/-- One path below another.  An absolute path replaces the one it is put below. -/
def join (p q : Path) : Path :=
  if q.isAbsolute then q
  else if p.text.isEmpty || p.text.getLast? = some '/' then ⟨p.text ++ q.text⟩
  else ⟨p.text ++ '/' :: q.text⟩

/-! ### The last component -/

/-- Drops the trivial segments at the end of a list. -/
def trimSegments (segments : List Text) : List Text :=
  (segments.reverse.dropWhile isTrivial).reverse

/-- The path of a first segment and later ones, where nothing but an empty first segment is the
root. -/
def ofFirst (first : Text) (rest : List Text) : Path :=
  if first.isEmpty && rest.isEmpty then ⟨['/']⟩ else ofSegments (first :: rest)

/-- The path without its last component.  The empty path and the root have no parent. -/
def parent? (p : Path) : Option Path :=
  match p.segments with
  | [] => none
  | first :: rest =>
      match trimSegments rest with
      | [] => if first.isEmpty then none else some empty
      | rest => some (ofFirst first (trimSegments rest.dropLast))

/-- The last component, if it is a name. -/
def fileName? (p : Path) : Option Text :=
  match p.components.getLast? with
  | some (.name n) => some n
  | _ => none

/-- The parts of a file name before and after its last dot.  A dot at the front does not count. -/
def splitExtension (name : Text) : Text × Option Text :=
  match Text.cut? '.' name.reverse with
  | some (after, before) =>
      if before.isEmpty then (name, none) else (before.reverse, some after.reverse)
  | none => (name, none)

/-- The extension of the file name, without its dot. -/
def extension? (p : Path) : Option Text :=
  p.fileName?.bind fun name => (splitExtension name).2

/-- The path with another extension.  A path that does not end in a name stays as it is. -/
def withExtension (p : Path) (extension : Text) : Path :=
  match p.fileName?, p.segments with
  | some name, first :: rest =>
      let renamed := (splitExtension name).1 ++ '.' :: extension
      match trimSegments rest with
      | [] => ⟨renamed⟩
      | rest => ofSegments (first :: (rest.dropLast ++ [renamed]))
  | _, _ => p

/-! ### Relative paths -/

/-- Drops as many nontrivial segments as asked for, and the trivial ones before the next one. -/
def dropSegments : Nat → List Text → List Text
  | _, [] => []
  | count, segment :: rest =>
      if isTrivial segment then dropSegments count rest
      else
        match count with
        | 0 => segment :: rest
        | count + 1 => dropSegments count rest

/-- What follows the components of `base` in a path, if the path starts with them. -/
def relativeTo? (p base : Path) : Option Path :=
  if base.components.isPrefixOf p.components then
    match p.segments, base.components.length with
    | [], _ => some p
    | first :: rest, 0 =>
        let rest' := trimSegments rest
        if first.isEmpty && rest.isEmpty then some empty else some (ofFirst first rest')
    | _ :: rest, count + 1 => some (ofSegments (trimSegments (dropSegments count rest)))
  else none

/-- The path of a list of components, each below the one before. -/
def ofComponents (cs : List Component) : Path :=
  cs.foldl (fun p c => p.join ⟨spelling c⟩) empty
where
  /-- The spelling of a component. -/
  spelling : Component → Text
    | .root => ['/']
    | .here => ['.']
    | .up => ['.', '.']
    | .name t => t

/-- The path without `.` components. -/
def withoutHere (p : Path) : Path :=
  ofComponents (p.components.filter (· ≠ .here))

/-! ### What extensions are -/

/-- What follows the last dot of a name is its extension, unless that dot is the first character. -/
theorem splitExtension_append {stem extension : Text} (hdot : '.' ∉ extension) (hne : stem ≠ []) :
    splitExtension (stem ++ '.' :: extension) = (stem, some extension) := by
  have hreverse : (stem ++ '.' :: extension).reverse =
      extension.reverse ++ '.' :: stem.reverse := by
    rw [List.reverse_append, List.reverse_cons, List.append_assoc, List.singleton_append]
  have hcut := Text.cut?_append (mt List.mem_reverse.mp hdot) stem.reverse
  rw [splitExtension, hreverse, hcut]
  simp [hne]

theorem eq_of_splitExtension {name stem extension : Text}
    (h : splitExtension name = (stem, some extension)) :
    name = stem ++ '.' :: extension ∧ '.' ∉ extension ∧ stem ≠ [] := by
  unfold splitExtension at h
  split at h
  · next after before hcut =>
      split at h
      · cases h
      · next hne =>
          obtain ⟨rfl, hafter⟩ := Prod.mk.inj h
          obtain rfl := Option.some.inj hafter
          have hname := congrArg List.reverse (Text.eq_of_cut? hcut)
          refine ⟨?_, mt List.mem_reverse.mp (Text.not_mem_of_cut? hcut), ?_⟩
          · rw [List.reverse_reverse] at hname
            simp [hname]
          · simpa [List.isEmpty_iff] using hne
  · cases h

/-- A name that ends in a dot and an extension has this extension when there is no dot in it and
something before it. -/
theorem splitExtension_append_eq_some_iff {stem extension : Text} :
    (splitExtension (stem ++ '.' :: extension)).2 = some extension ↔
      '.' ∉ extension ∧ stem ≠ [] := by
  constructor
  · intro h
    obtain ⟨hname, hdot, hne⟩ := eq_of_splitExtension (Prod.ext rfl h)
    have hstem := List.append_inj_left' hname rfl
    exact ⟨hdot, hstem ▸ hne⟩
  · rintro ⟨hdot, hne⟩
    rw [splitExtension_append hdot hne]

end Path

end IndentHtml
