import IndentHtml.Path.Normal
import Mathlib.Data.List.Basic
import Mathlib.Data.List.DropRight

/-!
# Normal forms by segments

Only some segments of a path count: the names and the `..` (`Path.inner`).  The normal form of a
path is reached by following these from the root or from nowhere (`Path.normal_eq`), so all that
matters of a path for its normal form is whether it is absolute and which of its segments count.

A path is `Ordinary` when it ends in a name and has no backslash.  Then

* its parent has everything that counts but the last name (`Path.exists_parent`), and
* an ordinary include target is followed from the normal form of the directory it is found in, or
  is taken as it is when it is absolute (`Path.normal_target`).

So the normal form of a target depends on the normal form of the directory and not on its
spelling.  Both conditions are needed: the parent of `a/..` is `a`, and a backslash at the end of a
directory is trimmed away when a target is joined to it.
-/

namespace IndentHtml

namespace Path

/-! ### What counts of a path -/

/-- The components of the segments that count, without a leading root or `.`. -/
def inner (p : Path) : List Component :=
  p.segments.filterMap innerComponent?

theorem innerComponent?_of_isTrivial {s : Text} (h : isTrivial s = true) :
    innerComponent? s = none := by
  rw [innerComponent?, if_pos h]

/-- A segment that counts has the same component at the front as anywhere else. -/
theorem innerComponent?_of_not_isTrivial {s : Text} (h : isTrivial s = false) :
    innerComponent? s = some (firstComponent s) := by
  obtain ⟨hempty, hhere⟩ : s.isEmpty = false ∧ s ≠ ['.'] := by
    simpa [isTrivial] using h
  rw [innerComponent?, h, firstComponent, hempty, if_neg hhere]
  simp only [Bool.false_eq_true, if_false]
  split <;> rfl

theorem innerComponent?_eq_some_name {s n : Text} (h : innerComponent? s = some (.name n)) :
    n = s := by
  rw [innerComponent?] at h
  split at h
  · cases h
  · split at h
    · cases h
    · exact (Component.name.inj (Option.some.inj h)).symm

/-! ### The first character -/

theorem isAbsolute_cons (c : Char) (t : Text) :
    (Path.mk (c :: t)).isAbsolute = decide (c = '/') := by
  by_cases hc : c = '/'
  · subst hc
    rfl
  · simp [isAbsolute, hc]

theorem segments_cons_slash (t : Text) : segments ⟨'/' :: t⟩ = [] :: segments ⟨t⟩ :=
  Text.splitOn_cons_self '/' t

theorem exists_segments_cons {c : Char} (hc : c ≠ '/') (t : Text) :
    ∃ part parts, segments ⟨c :: t⟩ = (c :: part) :: parts := by
  obtain ⟨part, parts, ht⟩ := List.exists_cons_of_ne_nil (List.splitOn_ne_nil '/' t)
  exact ⟨part, parts, Text.splitOn_cons_of_ne hc ht⟩

/-- A path is absolute when its first segment is empty and not the only one. -/
theorem isAbsolute_iff {p : Path} {first : Text} {rest : List Text}
    (h : p.segments = first :: rest) (hne : ¬ (first = [] ∧ rest = [])) :
    p.isAbsolute = true ↔ first = [] := by
  obtain ⟨t⟩ := p
  cases t with
  | nil =>
      obtain ⟨rfl, rfl⟩ := List.cons.inj h
      exact absurd ⟨rfl, rfl⟩ hne
  | cons c t =>
      by_cases hc : c = '/'
      · subst hc
        rw [segments_cons_slash] at h
        obtain ⟨rfl, -⟩ := List.cons.inj h
        exact ⟨fun _ => rfl, fun _ => rfl⟩
      · obtain ⟨part, parts, hsegments⟩ := exists_segments_cons hc t
        rw [hsegments] at h
        obtain ⟨rfl, -⟩ := List.cons.inj h
        simp [isAbsolute_cons, hc]

/-! ### The normal form -/

/-- **The components of a path** are a root or a `.`, if it starts with one, and what counts. -/
theorem exists_components_eq (p : Path) :
    ∃ lead, p.components = lead ++ p.inner ∧
      (p.isAbsolute = true ∧ lead = [.root] ∨
        p.isAbsolute = false ∧ (lead = [] ∨ lead = [.here])) := by
  obtain ⟨t⟩ := p
  cases t with
  | nil => exact ⟨[], rfl, .inr ⟨rfl, .inl rfl⟩⟩
  | cons c t =>
      by_cases hc : c = '/'
      · subst hc
        refine ⟨[.root], ?_, .inl ⟨rfl, rfl⟩⟩
        simp only [components, inner, segments_cons_slash]
        rfl
      · obtain ⟨part, parts, hsegments⟩ := exists_segments_cons hc t
        have hrelative : isAbsolute ⟨c :: t⟩ = false := by
          rw [isAbsolute_cons, decide_eq_false hc]
        have hcomponents : components ⟨c :: t⟩ =
            firstComponent (c :: part) :: parts.filterMap innerComponent? := by
          rw [components, hsegments]
          rfl
        rw [hcomponents, inner, hsegments]
        cases htrivial : isTrivial (c :: part) with
        | true =>
            have hhere : c :: part = ['.'] := by simpa [isTrivial] using htrivial
            refine ⟨[.here], ?_, .inr ⟨hrelative, .inr rfl⟩⟩
            rw [List.filterMap_cons_none (innerComponent?_of_isTrivial htrivial), hhere]
            rfl
        | false =>
            refine ⟨[], ?_, .inr ⟨hrelative, .inl rfl⟩⟩
            rw [List.filterMap_cons_some (innerComponent?_of_not_isTrivial htrivial)]
            rfl

/-- The normal form of a path is reached by following what counts of it. -/
theorem normal_eq (p : Path) : p.normal = p.inner.foldl NormalPath.step ⟨p.isAbsolute, []⟩ := by
  obtain ⟨lead, hcomponents, hlead⟩ := p.exists_components_eq
  rw [normal, hcomponents, List.foldl_append]
  rcases hlead with ⟨habs, rfl⟩ | ⟨habs, rfl | rfl⟩
  · rw [habs]
    rfl
  · rw [habs]
    rfl
  · rw [habs]
    rfl

theorem fileName?_eq_some_iff {p : Path} {n : Text} :
    p.fileName? = some n ↔ ∃ before, p.inner = before ++ [.name n] := by
  obtain ⟨lead, hcomponents, hlead⟩ := p.exists_components_eq
  -- a leading root or `.` is no name
  have hname : p.components.getLast? = some (.name n) ↔ p.inner.getLast? = some (.name n) := by
    rw [hcomponents, List.getLast?_append]
    rcases hlead with ⟨-, rfl⟩ | ⟨-, rfl | rfl⟩ <;> cases p.inner.getLast? <;> simp
  rw [← List.getLast?_eq_some_iff, ← hname, fileName?]
  split
  · next m hm => simp [hm]
  · next hm => exact ⟨nofun, fun h => absurd h (hm n)⟩

/-! ### Segments of cut paths -/

theorem slash_not_mem {p : Path} {s : Text} (h : s ∈ p.segments) : '/' ∉ s :=
  fun hmem => (Text.mem_of_mem_splitOn h hmem).2 rfl

theorem segments_ofSegments {ss : List Text} (hne : ss ≠ []) (h : ∀ s ∈ ss, '/' ∉ s) :
    (ofSegments ss).segments = ss :=
  List.splitOn_intercalate '/' h hne

theorem exists_eq_trimSegments_append (ss : List Text) :
    ∃ trivials, ss = trimSegments ss ++ trivials ∧ ∀ s ∈ trivials, isTrivial s = true :=
  ⟨ss.rtakeWhile isTrivial, (List.rdropWhile_append_rtakeWhile ..).symm,
    fun _ hs => List.mem_rtakeWhile_imp hs⟩

theorem filterMap_innerComponent?_of_isTrivial {ss : List Text}
    (h : ∀ s ∈ ss, isTrivial s = true) : ss.filterMap innerComponent? = [] :=
  List.filterMap_eq_nil_iff.mpr fun s hs => innerComponent?_of_isTrivial (h s hs)

theorem filterMap_trimSegments (ss : List Text) :
    (trimSegments ss).filterMap innerComponent? = ss.filterMap innerComponent? := by
  obtain ⟨trivials, heq, htrivial⟩ := exists_eq_trimSegments_append ss
  have hcount := congrArg (List.filterMap innerComponent?) heq
  rw [List.filterMap_append, filterMap_innerComponent?_of_isTrivial htrivial, List.append_nil]
    at hcount
  exact hcount.symm

theorem trimSegments_subset (ss : List Text) : trimSegments ss ⊆ ss := by
  obtain ⟨trivials, heq, -⟩ := exists_eq_trimSegments_append ss
  intro s hs
  rw [heq]
  exact List.mem_append_left _ hs

/-- The last segment that is left counts. -/
theorem not_isTrivial_of_trimSegments_eq {ss before : List Text} {last : Text}
    (h : trimSegments ss = before ++ [last]) : isTrivial last = false := by
  have hnot := List.head?_dropWhile_not isTrivial ss.reverse
  have hrev : ss.reverse.dropWhile isTrivial = last :: before.reverse := by
    rw [← List.reverse_reverse (ss.reverse.dropWhile isTrivial), ← trimSegments, h]
    simp
  rw [hrev] at hnot
  simpa using hnot

/-! ### Ordinary paths -/

/-- Holds of a path without backslashes. -/
def Slashed (p : Path) : Prop :=
  '\\' ∉ p.text

/-- A path that ends in a name and has no backslash. -/
structure Ordinary (p : Path) : Prop where
  named : ∃ n, p.fileName? = some n
  slashed : p.Slashed

instance (p : Path) : Decidable p.Ordinary :=
  decidable_of_iff (p.fileName?.isSome = true ∧ '\\' ∉ p.text)
    ⟨fun h => ⟨Option.isSome_iff_exists.mp h.1, h.2⟩,
      fun h => ⟨Option.isSome_iff_exists.mpr h.named, h.slashed⟩⟩

theorem slashed_iff {p : Path} : p.Slashed ↔ ∀ s ∈ p.segments, '\\' ∉ s := by
  constructor
  · intro h s hs hmem
    exact h (Text.mem_of_mem_splitOn hs hmem).1
  · intro h hmem
    have hjoin : List.intercalate ['/'] p.segments = p.text := List.intercalate_splitOn '/'
    rw [← hjoin] at hmem
    rcases Text.mem_intercalate hmem with hmem | ⟨s, hs, hmem⟩
    · exact absurd hmem (by decide)
    · exact h s hs hmem

/-- The path of a first segment and later ones is taken apart into them again, but for the second
segment of a lone root. -/
theorem segments_ofFirst {first : Text} {rest : List Text} (h : ∀ s ∈ first :: rest, '/' ∉ s) :
    (ofFirst first rest).segments =
      if first = [] ∧ rest = [] then [[], []] else first :: rest := by
  rw [ofFirst]
  by_cases hroot : first = [] ∧ rest = []
  · obtain ⟨rfl, rfl⟩ := hroot
    rfl
  · have hnot : ¬ (first.isEmpty && rest.isEmpty) = true := by
      simpa [List.isEmpty_iff] using hroot
    rw [if_neg hnot, if_neg hroot, segments_ofSegments (List.cons_ne_nil _ _) h]

theorem inner_ofFirst {first : Text} {rest : List Text} (h : ∀ s ∈ first :: rest, '/' ∉ s) :
    (ofFirst first rest).inner = (first :: rest).filterMap innerComponent? := by
  rw [inner, segments_ofFirst h]
  split
  · next hroot =>
      rw [hroot.1, hroot.2]
      rfl
  · rfl

theorem isAbsolute_ofFirst {first : Text} {rest : List Text} (h : ∀ s ∈ first :: rest, '/' ∉ s) :
    (ofFirst first rest).isAbsolute = true ↔ first = [] := by
  by_cases hroot : first = [] ∧ rest = []
  · obtain ⟨rfl, rfl⟩ := hroot
    exact ⟨fun _ => rfl, fun _ => rfl⟩
  · exact isAbsolute_iff (by rw [segments_ofFirst h, if_neg hroot]) hroot

theorem slashed_ofFirst {first : Text} {rest : List Text} (h : ∀ s ∈ first :: rest, '/' ∉ s)
    (hslashed : ∀ s ∈ first :: rest, '\\' ∉ s) : (ofFirst first rest).Slashed := by
  rw [slashed_iff, segments_ofFirst h]
  split
  · decide
  · exact hslashed

section Parent

variable {p : Path} {first last n : Text} {rest init : List Text} {before : List Component}

/-- The parent of a path with nothing that counts after its first segment, which is a name. -/
theorem parent?_of_lone_name (hsegments : p.segments = first :: rest)
    (htrim : trimSegments rest = []) (hinner : p.inner = before ++ [.name n]) :
    p.parent? = some empty ∧ p.isAbsolute = false ∧ before = [] := by
  have hcount : p.inner = [first].filterMap innerComponent? := by
    rw [inner, hsegments, ← List.singleton_append, List.filterMap_append,
      ← filterMap_trimSegments rest, htrim, List.filterMap_nil, List.append_nil]
  have hne : first ≠ [] := by
    rintro rfl
    rw [hinner] at hcount
    simp [innerComponent?, isTrivial] at hcount
  refine ⟨?_, Bool.eq_false_iff.mpr fun habs => ?_, ?_⟩
  · simp only [parent?, hsegments, htrim, List.isEmpty_iff, if_neg hne]
  · exact hne ((isAbsolute_iff hsegments fun h => hne h.1).mp habs)
  · have hlength := congrArg List.length (hinner.symm.trans hcount)
    have hle := List.length_filterMap_le innerComponent? [first]
    rw [List.length_append, List.length_singleton] at hlength
    rw [List.length_singleton] at hle
    exact List.length_eq_zero_iff.mp (by omega)

/-- The parent of a path whose last segment that counts is not the first one. -/
theorem parent?_of_trimSegments_eq (hsegments : p.segments = first :: rest)
    (htrim : trimSegments rest = init ++ [last]) :
    p.parent? = some (ofFirst first (trimSegments init)) ∧
      first :: trimSegments init ⊆ p.segments ∧
      (ofFirst first (trimSegments init)).isAbsolute = p.isAbsolute ∧
      p.inner = (ofFirst first (trimSegments init)).inner ++ [firstComponent last] := by
  have hlast := innerComponent?_of_not_isTrivial (not_isTrivial_of_trimSegments_eq htrim)
  have hsub : first :: trimSegments init ⊆ p.segments := by
    have hinit : init ⊆ trimSegments rest := by
      rw [htrim]
      exact List.subset_append_left _ _
    rw [hsegments]
    exact List.cons_subset_cons first (List.Subset.trans (trimSegments_subset init)
      (List.Subset.trans hinit (trimSegments_subset rest)))
  have hslash : ∀ s ∈ first :: trimSegments init, '/' ∉ s := by
    intro s hs
    exact slash_not_mem (hsub hs)
  have hrest : rest ≠ [] := by
    rintro rfl
    simp [trimSegments] at htrim
  refine ⟨?_, hsub, ?_, ?_⟩
  · simp only [parent?, hsegments]
    split
    · next hnil => simp [hnil] at htrim
    · rw [htrim, List.dropLast_concat]
  · rw [Bool.eq_iff_iff, isAbsolute_ofFirst hslash,
      isAbsolute_iff hsegments fun h => hrest h.2]
  · rw [inner, hsegments, inner_ofFirst hslash, ← List.singleton_append, List.filterMap_append,
      ← filterMap_trimSegments rest, htrim, ← List.singleton_append (l := trimSegments init),
      List.filterMap_append, List.filterMap_append, filterMap_trimSegments,
      List.filterMap_cons_some hlast, List.filterMap_nil, List.append_assoc]

/-- **The parent of a path that ends in a name** has what counts of it but this name. -/
theorem exists_parent (hn : p.fileName? = some n) :
    ∃ dir, p.parent? = some dir ∧ (p.Slashed → dir.Slashed) ∧ dir.isAbsolute = p.isAbsolute ∧
      p.inner = dir.inner ++ [.name n] := by
  obtain ⟨before, hinner⟩ := fileName?_eq_some_iff.mp hn
  cases hsegments : p.segments with
  | nil => exact absurd hsegments (List.splitOn_ne_nil '/' p.text)
  | cons first rest =>
      rcases List.eq_nil_or_concat (trimSegments rest) with htrim | ⟨init, last, htrim⟩
      · obtain ⟨hparent, hrelative, rfl⟩ := parent?_of_lone_name hsegments htrim hinner
        exact ⟨empty, hparent, fun _ => List.not_mem_nil, hrelative.symm, hinner⟩
      · rw [List.concat_eq_append] at htrim
        obtain ⟨hparent, hsub, habs, hdir⟩ := parent?_of_trimSegments_eq hsegments htrim
        have hname : firstComponent last = .name n :=
          List.singleton_inj.mp (List.append_inj_right' (hdir.symm.trans hinner) rfl)
        have hslashed : p.Slashed → (ofFirst first (trimSegments init)).Slashed := fun h =>
          slashed_ofFirst (fun s hs => slash_not_mem (hsub hs))
            fun s hs => slashed_iff.mp h s (hsub hs)
        exact ⟨_, hparent, hslashed, habs, hname ▸ hdir⟩

theorem Ordinary.exists_parent (h : p.Ordinary) :
    ∃ dir n, p.parent? = some dir ∧ dir.Slashed ∧ dir.isAbsolute = p.isAbsolute ∧
      p.inner = dir.inner ++ [.name n] := by
  obtain ⟨n, hn⟩ := h.named
  obtain ⟨dir, hparent, hslashed, habs, hinner⟩ := Path.exists_parent hn
  exact ⟨dir, n, hparent, hslashed h.slashed, habs, hinner⟩

end Parent

/-! ### Targets -/

/-- A target without backslashes has a root of its own when it is absolute. -/
theorem hasOwnRoot_eq {t : Text} (h : '\\' ∉ t) : hasOwnRoot t = (Path.mk t).isAbsolute := by
  unfold hasOwnRoot
  split
  · rfl
  · exact absurd List.mem_cons_self h
  · exact absurd (by simp) h
  · next hslash _ _ =>
      cases t with
      | nil => rfl
      | cons c t =>
          rw [isAbsolute_cons]
          exact (decide_eq_false fun hc => hslash t (by rw [hc])).symm

theorem inner_append (t u : Text) :
    (Path.mk (t ++ '/' :: u)).inner = (Path.mk t).inner ++ (Path.mk u).inner := by
  rw [inner, segments, List.splitOn_append_cons_self, List.filterMap_append]
  rfl

theorem inner_of_slashes {t : Text} (h : ∀ c ∈ t, c = '/') : (Path.mk t).inner = [] := by
  induction t with
  | nil => rfl
  | cons c t ih =>
      obtain ⟨rfl, ht⟩ := List.forall_mem_cons.mp h
      exact (inner_append [] t).trans (ih ht)

/-- Slashes at the end of a path count for nothing. -/
theorem inner_append_slashes (t : Text) {slashes : Text} (h : ∀ c ∈ slashes, c = '/') :
    (Path.mk (t ++ slashes)).inner = (Path.mk t).inner := by
  cases slashes with
  | nil => rw [List.append_nil]
  | cons c slashes =>
      obtain ⟨rfl, hmore⟩ := List.forall_mem_cons.mp h
      rw [inner_append, inner_of_slashes hmore, List.append_nil]

/-- Of a path without backslashes only slashes are trimmed. -/
theorem Slashed.exists_eq_append {p : Path} (h : p.Slashed) :
    ∃ slashes, p.text = p.text.rdropWhile isSeparator ++ slashes ∧ ∀ c ∈ slashes, c = '/' := by
  refine ⟨p.text.rtakeWhile isSeparator, (List.rdropWhile_append_rtakeWhile ..).symm,
    fun c hc => ?_⟩
  have hsep : c = '/' ∨ c = '\\' := by simpa [isSeparator] using List.mem_rtakeWhile_imp hc
  refine hsep.resolve_right fun hback => h ?_
  rw [← hback]
  exact (List.rtakeWhile_suffix _ _).subset hc

theorem map_separator {t : Text} (h : '\\' ∉ t) :
    t.map (fun c => if isSeparator c then '/' else c) = t := by
  have hkeep : ∀ c ∈ t, (if isSeparator c then '/' else c) = c := by
    intro c hc
    split
    · next hsep =>
        have hcases : c = '/' ∨ c = '\\' := by simpa [isSeparator] using hsep
        exact (hcases.resolve_right fun hback => h (hback ▸ hc)).symm
    · rfl
  rw [List.map_congr_left hkeep, List.map_id']

/-- A relative target stands behind a spelling of the directory. -/
theorem exists_target_eq {base : Path} {t : Text} (hbase : base.Slashed) (ht : '\\' ∉ t)
    (hrel : (Path.mk t).isAbsolute = false) :
    ∃ dir : Text, base.target t = ⟨dir ++ '/' :: t⟩ ∧ '\\' ∉ dir ∧
      (Path.mk dir).inner = base.inner ∧
      (Path.mk (dir ++ '/' :: t)).isAbsolute = base.isAbsolute := by
  have htarget : base.target t =
      ⟨List.rdropWhile isSeparator (if base.text.isEmpty then ['.'] else base.text) ++
        '/' :: t⟩ := by
    rw [target, hasOwnRoot_eq ht, hrel, map_separator ht]
    rfl
  obtain ⟨slashes, htext, hslashes⟩ := hbase.exists_eq_append
  obtain ⟨text⟩ := base
  cases text with
  | nil => exact ⟨['.'], htarget, by decide, rfl, rfl⟩
  | cons c text =>
      replace htext : c :: text = (c :: text).rdropWhile isSeparator ++ slashes := htext
      refine ⟨(c :: text).rdropWhile isSeparator, htarget, fun hmem => hbase ?_, ?_, ?_⟩
      · show '\\' ∈ c :: text
        rw [htext]
        exact List.mem_append_left _ hmem
      · rw [← inner_append_slashes _ hslashes, ← htext]
      · -- the first character tells, and it is a slash if nothing is left of the directory
        cases hdir : (c :: text).rdropWhile isSeparator with
        | nil =>
            have hc : c = '/' := by
              refine hslashes c ?_
              rw [hdir, List.nil_append] at htext
              rw [← htext]
              exact List.mem_cons_self
            rw [List.nil_append, isAbsolute_cons, isAbsolute_cons, hc]
        | cons d dir =>
            rw [hdir, List.cons_append] at htext
            rw [List.cons_append, isAbsolute_cons, isAbsolute_cons, (List.cons.inj htext).1]

/-- **A target** is followed from the directory it is found in, unless it is absolute. -/
theorem normal_target {base : Path} {t : Text} (hbase : base.Slashed) (ht : '\\' ∉ t) :
    (base.target t).normal =
      if (Path.mk t).isAbsolute then (Path.mk t).normal
      else (Path.mk t).inner.foldl NormalPath.step base.normal := by
  split
  · next habs => rw [target, hasOwnRoot_eq ht, if_pos habs]
  · next habs =>
      obtain ⟨dir, htarget, -, hinner, hdir⟩ :=
        exists_target_eq hbase ht (Bool.eq_false_iff.mpr habs)
      rw [htarget, normal_eq, hdir, inner_append, hinner, List.foldl_append, ← normal_eq]

/-- An ordinary target leads to an ordinary path. -/
theorem Ordinary.target {base : Path} {t : Text} (ht : (Path.mk t).Ordinary)
    (hbase : base.Slashed) : (base.target t).Ordinary := by
  obtain ⟨⟨n, hn⟩, hslashed⟩ := ht
  cases habs : (Path.mk t).isAbsolute with
  | true =>
      have htarget : base.target t = ⟨t⟩ := by
        rw [Path.target, hasOwnRoot_eq hslashed, if_pos habs]
      exact htarget ▸ ⟨⟨n, hn⟩, hslashed⟩
  | false =>
      obtain ⟨dir, htarget, hdir, -, -⟩ := exists_target_eq hbase hslashed habs
      obtain ⟨before, hbefore⟩ := fileName?_eq_some_iff.mp hn
      rw [htarget]
      refine ⟨⟨n, fileName?_eq_some_iff.mpr ⟨(Path.mk dir).inner ++ before, ?_⟩⟩, fun hmem => ?_⟩
      · rw [inner_append, hbefore, List.append_assoc]
      · rcases List.mem_append.mp hmem with hmem | hmem
        · exact hdir hmem
        · rcases List.mem_cons.mp hmem with hmem | hmem
          · exact absurd hmem (by decide)
          · exact hslashed hmem

/-! ### Normal forms as paths -/

/-- Holds of a normal path whose names are single segments that count. -/
def NamesCount (n : NormalPath) : Prop :=
  ∀ name ∈ n.names, '/' ∉ name ∧ innerComponent? name = some (.name name)

theorem NamesCount.step {n : NormalPath} (hn : NamesCount n) {s : Text} {c : Component}
    (hs : '/' ∉ s) (hc : innerComponent? s = some c) : NamesCount (n.step c) := by
  cases c with
  | root =>
      intro name h
      exact absurd h List.not_mem_nil
  | here => exact hn
  | up =>
      intro name h
      exact hn name (List.dropLast_subset _ h)
  | name t =>
      obtain rfl := innerComponent?_eq_some_name hc
      intro name h
      rcases List.mem_append.mp h with h | h
      · exact hn name h
      · obtain rfl := List.mem_singleton.mp h
        exact ⟨hs, hc⟩

theorem namesCount_normal (p : Path) : NamesCount p.normal := by
  have hfollow : ∀ (ss : List Text) (n : NormalPath), (∀ s ∈ ss, '/' ∉ s) → NamesCount n →
      NamesCount ((ss.filterMap innerComponent?).foldl NormalPath.step n) := by
    intro ss
    induction ss with
    | nil =>
        intro n _ hn
        exact hn
    | cons s ss ih =>
        intro n hss hn
        obtain ⟨hs, hmore⟩ := List.forall_mem_cons.mp hss
        cases hc : innerComponent? s with
        | none =>
            rw [List.filterMap_cons_none hc]
            exact ih n hmore hn
        | some c =>
            rw [List.filterMap_cons_some hc]
            exact ih _ hmore (hn.step hs hc)
  rw [normal_eq]
  exact hfollow _ _ (fun s hs => slash_not_mem hs) fun name h => absurd h List.not_mem_nil

theorem foldl_step_names (names : List Text) (n : NormalPath) :
    (names.map Component.name).foldl NormalPath.step n = { n with names := n.names ++ names } := by
  induction names generalizing n with
  | nil => rw [List.append_nil]; rfl
  | cons name names ih =>
      rw [List.map_cons, List.foldl_cons, ih]
      simp [NormalPath.step]

/-- A list of names that count is read back from the path they make. -/
theorem inner_join {names : List Text}
    (h : ∀ name ∈ names, '/' ∉ name ∧ innerComponent? name = some (.name name)) :
    (Path.mk (List.intercalate ['/'] names)).inner = names.map .name ∧
      (Path.mk (List.intercalate ['/'] names)).isAbsolute = false := by
  cases names with
  | nil => exact ⟨rfl, rfl⟩
  | cons name names =>
      have hsegments :
          (Path.mk (List.intercalate ['/'] (name :: names))).segments = name :: names :=
        segments_ofSegments (List.cons_ne_nil _ _) fun s hs => (h s hs).1
      constructor
      · rw [inner, hsegments, List.filterMap_congr fun s hs => (h s hs).2, List.filterMap_eq_map']
      · have hne : name ≠ [] := by
          rintro rfl
          cases (h [] List.mem_cons_self).2
        exact Bool.eq_false_iff.mpr fun habs =>
          hne ((isAbsolute_iff hsegments fun h => hne h.1).mp habs)

/-- **A normal form is its own normal form** when it is read as a path. -/
theorem normal_toPath (p : Path) : p.normal.toPath.normal = p.normal := by
  obtain ⟨hinner, hrel⟩ := inner_join p.namesCount_normal
  cases hnormal : p.normal with
  | mk absolute names =>
      rw [hnormal] at hinner hrel
      cases absolute with
      | true =>
          have hroot : (NormalPath.mk true names).toPath =
              ⟨[] ++ '/' :: List.intercalate ['/'] names⟩ := rfl
          rw [hroot, normal_eq, inner_append, hinner]
          exact foldl_step_names names _
      | false =>
          have hjoin : (NormalPath.mk false names).toPath = ⟨List.intercalate ['/'] names⟩ := rfl
          rw [hjoin, normal_eq, hinner, hrel]
          exact foldl_step_names names _

/-- Paths whose normal forms are one path have one normal form. -/
theorem normal_eq_of_same {p q : Path} (h : same p.normal.toPath q.normal.toPath = true) :
    p.normal = q.normal := by
  have hcomponents : p.normal.toPath.components = q.normal.toPath.components := of_decide_eq_true h
  have hnormal : p.normal.toPath.normal = q.normal.toPath.normal :=
    congrArg (List.foldl NormalPath.step NormalPath.empty) hcomponents
  rwa [normal_toPath, normal_toPath] at hnormal

/-! ### Two spellings -/

/-- Two spellings of one directory: without backslashes, and with one normal form. -/
structure Respelled (p q : Path) : Prop where
  left : p.Slashed
  right : q.Slashed
  normal : p.normal = q.normal

/-- A target found under two spellings of a directory is one target. -/
theorem Respelled.target {base base' : Path} (h : base.Respelled base') {t : Text}
    (ht : '\\' ∉ t) : (base.target t).normal = (base'.target t).normal := by
  rw [normal_target h.left ht, normal_target h.right ht, h.normal]

theorem Ordinary.exists_parent_normal {p : Path} (h : p.Ordinary) :
    ∃ dir n, p.parent? = some dir ∧ dir.Slashed ∧ p.normal = dir.normal.step (.name n) := by
  obtain ⟨dir, n, hparent, hslashed, habs, hinner⟩ := h.exists_parent
  refine ⟨dir, n, hparent, hslashed, ?_⟩
  rw [p.normal_eq, dir.normal_eq, hinner, List.foldl_append, habs]
  rfl

/-- The parents of two spellings of an ordinary path are two spellings of its directory. -/
theorem Ordinary.exists_parents {p q : Path} (hp : p.Ordinary) (hq : q.Ordinary)
    (h : p.normal = q.normal) :
    ∃ dir dir', p.parent? = some dir ∧ q.parent? = some dir' ∧ dir.Respelled dir' := by
  obtain ⟨dir, n, hparent, hslashed, hnormal⟩ := hp.exists_parent_normal
  obtain ⟨dir', n', hparent', hslashed', hnormal'⟩ := hq.exists_parent_normal
  refine ⟨dir, dir', hparent, hparent', hslashed, hslashed', ?_⟩
  rw [hnormal, hnormal'] at h
  obtain ⟨habs, hnames⟩ := NormalPath.mk.inj h
  cases hd : dir.normal with
  | mk absolute names =>
      cases hd' : dir'.normal with
      | mk absolute' names' =>
          rw [hd, hd'] at habs hnames
          rw [NormalPath.mk.injEq]
          exact ⟨habs, List.append_inj_left' hnames rfl⟩

end Path

end IndentHtml
