import IndentHtml.Glob.Search
import IndentHtml.Proofs.Trees
import Mathlib.Data.List.Induction

/-!
# Joined paths

A relative path that is put below another one stands after its segments, but for an empty one at
the end (`Path.exists_segments_eq`).  So what counts of the two is put together
(`Path.inner_join_path`).

**Below a base.**  A search spells the paths below its base by the segments of the base and then by
names (`Candidate.exists_spells`), and these names are what follows the base in the path
(`Candidate.relativeTo?_under`).
-/

namespace IndentHtml

namespace Path

/-! ### Joining -/

variable {p q : Path} {n : Text}

theorem isAbsolute_eq_false_of_not_mem {t : Text} (h : '/' ∉ t) :
    (Path.mk t).isAbsolute = false := by
  cases t with
  | nil => rfl
  | cons c t =>
      rw [isAbsolute_cons, decide_eq_false]
      rintro rfl
      exact h List.mem_cons_self

/-- A relative path that is put below another one stands after its segments, but for an empty one
at the end. -/
theorem exists_segments_eq (hp : p.text ≠ []) :
    ∃ pre, pre ≠ [] ∧ (p.segments = pre ∨ p.segments = pre ++ [[]]) ∧
      ∀ q : Path, q.isAbsolute = false → (p.join q).segments = pre ++ q.segments := by
  obtain ⟨t⟩ := p
  have hjoin : ∀ q : Path, q.isAbsolute = false → Path.join ⟨t⟩ q =
      if t.getLast? = some '/' then ⟨t ++ q.text⟩ else ⟨t ++ '/' :: q.text⟩ := by
    intro q hq
    have hne : t.isEmpty = false := by
      rw [Bool.eq_false_iff, ne_eq, List.isEmpty_iff]
      exact hp
    simp [join, hq, hne]
  by_cases hslash : t.getLast? = some '/'
  · obtain ⟨init, rfl⟩ := List.getLast?_eq_some_iff.mp hslash
    refine ⟨(Path.mk init).segments, List.splitOn_ne_nil _ _,
      .inr (List.splitOn_append_cons_self init []), fun q hq => ?_⟩
    rw [hjoin q hq, if_pos hslash, segments, List.append_assoc, List.singleton_append,
      List.splitOn_append_cons_self]
    rfl
  · refine ⟨(Path.mk t).segments, List.splitOn_ne_nil _ _, .inl rfl, fun q hq => ?_⟩
    rw [hjoin q hq, if_neg hslash, segments, List.splitOn_append_cons_self]
    rfl

theorem join_empty (q : Path) : Path.empty.join q = q := by
  rw [join]
  split <;> rfl

/-- What counts of a joined path counts of one of its parts. -/
theorem inner_join_path (p : Path) (hq : q.isAbsolute = false) :
    (p.join q).inner = p.inner ++ q.inner := by
  by_cases hp : p.text = []
  · obtain rfl : p = empty := congrArg Path.mk hp
    rw [join_empty]
    rfl
  · obtain ⟨pre, -, hsegments, hjoin⟩ := exists_segments_eq hp
    rw [inner, hjoin q hq, List.filterMap_append, inner, inner]
    rcases hsegments with h | h
    · rw [h]
    · rw [h, List.filterMap_append]
      simp [innerComponent?, isTrivial]

/-- A path starts where the path that it is put below starts. -/
theorem isAbsolute_join (hp : p.text ≠ []) (hq : q.isAbsolute = false) :
    (p.join q).isAbsolute = p.isAbsolute := by
  obtain ⟨t⟩ := p
  cases t with
  | nil => exact absurd rfl hp
  | cons c t =>
      rw [join, hq]
      simp only [Bool.false_eq_true, if_false]
      split <;> simp [isAbsolute_cons]

theorem segments_of_not_mem {t : Text} (h : '/' ∉ t) : (Path.mk t).segments = [t] :=
  List.splitOn_eq_singleton h

/-- A text without a slash counts as one component, or as none. -/
theorem inner_of_not_mem {t : Text} (h : '/' ∉ t) :
    (Path.mk t).inner = (innerComponent? t).toList := by
  rw [inner, segments_of_not_mem h]
  cases hc : innerComponent? t <;> simp [hc]

/-- The components of a path with a segment more. -/
theorem components_join (hp : p.text ≠ []) (hn : '/' ∉ n) :
    (p.join ⟨n⟩).components = p.components ++ (innerComponent? n).toList := by
  obtain ⟨pre, hpre, hsegments, hjoin⟩ := exists_segments_eq hp
  replace hjoin := hjoin ⟨n⟩ (isAbsolute_eq_false_of_not_mem hn)
  rw [segments_of_not_mem hn] at hjoin
  obtain ⟨first, rest, rfl⟩ := List.exists_cons_of_ne_nil hpre
  have hjoined : (p.join ⟨n⟩).text.isEmpty = false := by
    rw [Bool.eq_false_iff, ne_eq, List.isEmpty_iff]
    intro hnil
    rw [segments, hnil] at hjoin
    simp at hjoin
  have htext : p.text.isEmpty = false := by
    rw [Bool.eq_false_iff, ne_eq, List.isEmpty_iff]
    exact hp
  have hlast : [n].filterMap innerComponent? = (innerComponent? n).toList := by
    cases hc : innerComponent? n <;> simp [hc]
  rw [components, components, hjoined, htext, hjoin]
  rcases hsegments with h | h
  · rw [h]
    simp [List.filterMap_append, hlast]
  · rw [h]
    simp [List.filterMap_append, hlast, innerComponent?, isTrivial]

/-- What counts of a path is `..` and names. -/
theorem mem_inner {c : Component} (h : c ∈ p.inner) :
    c = .up ∨ ∃ n, IsName n ∧ c = .name n := by
  obtain ⟨s, hs, hc⟩ := List.mem_filterMap.mp h
  have hslash := slash_not_mem hs
  rw [innerComponent?] at hc
  split at hc
  · cases hc
  · next htrivial =>
      split at hc
      · exact .inl (Option.some.inj hc).symm
      · next hup =>
          refine .inr ⟨s, ⟨hslash, ?_⟩, (Option.some.inj hc).symm⟩
          rw [innerComponent?, if_neg htrivial, if_neg hup]

/-- Holds of the components of a path that count. -/
def Counts (c : Component) : Prop :=
  '/' ∉ ofComponents.spelling c ∧ innerComponent? (ofComponents.spelling c) = some c

theorem counts_of_mem_inner {c : Component} (h : c ∈ p.inner) : Counts c := by
  rcases mem_inner h with rfl | ⟨n, hn, rfl⟩
  · exact ⟨by decide, rfl⟩
  · exact hn

theorem Counts.ne_nil {c : Component} (h : Counts c) : ofComponents.spelling c ≠ [] := by
  intro hnil
  have hc := h.2
  rw [hnil] at hc
  cases hc

/-- A component that counts is read back from its spelling. -/
theorem Counts.components_spelling {c : Component} (h : Counts c) :
    (Path.mk (ofComponents.spelling c)).components = [c] := by
  have htrivial : isTrivial (ofComponents.spelling c) = false := by
    rw [Bool.eq_false_iff]
    intro htrivial
    have hc := h.2
    rw [innerComponent?_of_isTrivial htrivial] at hc
    cases hc
  have hempty : (ofComponents.spelling c).isEmpty = false := by
    rw [Bool.eq_false_iff, ne_eq, List.isEmpty_iff]
    exact h.ne_nil
  have hfirst := (innerComponent?_of_not_isTrivial htrivial).symm.trans h.2
  rw [components, hempty, segments_of_not_mem h.1]
  exact congrArg (· :: []) (Option.some.inj hfirst)

/-- Components that count are spelled out one below the other. -/
theorem components_foldl_join {cs : List Component} (hcs : ∀ c ∈ cs, Counts c)
    (hp : p.text ≠ []) :
    (cs.foldl (fun p c => p.join ⟨ofComponents.spelling c⟩) p).components = p.components ++ cs := by
  induction cs generalizing p with
  | nil => rw [List.append_nil]; rfl
  | cons c cs ih =>
      obtain ⟨hc, hmore⟩ := List.forall_mem_cons.mp hcs
      have hrelative := isAbsolute_eq_false_of_not_mem hc.1
      have hne : (p.join ⟨ofComponents.spelling c⟩).text ≠ [] := by
        rw [join, hrelative]
        simp only [Bool.false_eq_true, if_false]
        split <;> simp [hp]
      rw [List.foldl_cons, ih hmore hne, components_join hp hc.1, hc.2, List.append_assoc]
      rfl

/-- **A path without `.`** has the other components. -/
theorem components_withoutHere (p : Path) :
    p.withoutHere.components = (if p.isAbsolute then [.root] else []) ++ p.inner := by
  have hcounts : ∀ c ∈ p.inner, Counts c := fun c hc => counts_of_mem_inner hc
  have hhere : p.inner.filter (· ≠ .here) = p.inner := by
    refine List.filter_eq_self.mpr fun c hc => ?_
    rcases mem_inner hc with rfl | ⟨n, -, rfl⟩ <;> rfl
  have hfilter : p.components.filter (· ≠ .here) =
      (if p.isAbsolute then [.root] else []) ++ p.inner := by
    obtain ⟨lead, hcomponents, hlead⟩ := p.exists_components_eq
    rw [hcomponents, List.filter_append, hhere]
    rcases hlead with ⟨habs, rfl⟩ | ⟨habs, rfl | rfl⟩ <;> rw [habs] <;> rfl
  rw [withoutHere, hfilter, ofComponents]
  cases p.isAbsolute with
  | true =>
      have htop : (Path.mk ['/']).components = [.root] := rfl
      have hjoin := components_foldl_join hcounts (p := ⟨['/']⟩) (List.cons_ne_nil _ _)
      rw [htop] at hjoin
      exact hjoin
  | false =>
      cases hinner : p.inner with
      | nil => rfl
      | cons c cs =>
          rw [hinner] at hcounts
          obtain ⟨hc, hmore⟩ := List.forall_mem_cons.mp hcounts
          have hjoin := components_foldl_join hmore (p := ⟨ofComponents.spelling c⟩) hc.ne_nil
          rw [hc.components_spelling, ← join_empty ⟨ofComponents.spelling c⟩] at hjoin
          exact hjoin

end Path

/-! ### Paths below a base -/

namespace Path

theorem IsName.ne_nil {n : Text} (h : IsName n) : n ≠ [] := by
  rintro rfl
  cases h.2

theorem IsName.ne_here {n : Text} (h : IsName n) : n ≠ ['.'] := by
  rintro rfl
  cases h.2

theorem filterMap_names {ns : List Text} (h : ∀ n ∈ ns, IsName n) :
    ns.filterMap innerComponent? = ns.map .name := by
  rw [List.filterMap_congr fun n hn => (h n hn).2, List.filterMap_eq_map']

/-- Only the segment `.` is read as the starting directory, at the front of a path. -/
theorem eq_of_firstComponent_eq_here {s : Text} (h : firstComponent s = .here) : s = ['.'] := by
  rw [firstComponent] at h
  split at h
  · cases h
  · split at h
    · assumption
    · split at h <;> cases h

/-- Holds of a path that does not start with `.`. -/
def Bare (p : Path) : Prop :=
  p.segments.head? ≠ some ['.']

/-- A path that does not start with `.` has a root or nothing before what counts of it. -/
theorem Bare.components_eq {p : Path} (h : p.Bare) :
    p.components = (if p.isAbsolute then [.root] else []) ++ p.inner := by
  obtain ⟨lead, hcomponents, hlead⟩ := p.exists_components_eq
  rw [hcomponents]
  rcases hlead with ⟨habs, rfl⟩ | ⟨habs, rfl | rfl⟩
  · rw [habs]
    rfl
  · rw [habs]
    rfl
  · -- a leading `.` is the first segment
    exfalso
    rw [components] at hcomponents
    split at hcomponents
    · cases hcomponents
    · cases hsegments : p.segments with
      | nil => exact List.splitOn_ne_nil '/' p.text hsegments
      | cons first rest =>
          rw [hsegments] at hcomponents
          have hfirst := eq_of_firstComponent_eq_here (List.cons.inj hcomponents).1
          rw [Bare, hsegments, List.head?_cons, hfirst] at h
          exact h rfl

end Path

namespace Candidate

open IndentHtml.Path (IsName)

variable {b p : Path} {n : Text}

theorem isHere_iff : isHere p = true ↔ p.components = [.here] :=
  decide_eq_true_iff

/-- Nothing counts of the starting directory. -/
theorem inner_of_isHere (h : isHere p = true) : p.inner = [] ∧ p.isAbsolute = false := by
  obtain ⟨lead, hcomponents, hlead⟩ := p.exists_components_eq
  rw [isHere_iff.mp h] at hcomponents
  rcases hlead with ⟨-, rfl⟩ | ⟨habs, rfl | rfl⟩
  · cases (List.cons.inj hcomponents).1
  · rw [List.nil_append] at hcomponents
    have hmem : Path.Component.here ∈ p.inner := by
      rw [← hcomponents]
      exact List.mem_cons_self
    rcases Path.mem_inner hmem with h | ⟨n, -, h⟩ <;> cases h
  · exact ⟨(List.cons.inj hcomponents).2.symm, habs⟩

/-- A path that does not start with `.` is not the starting directory. -/
theorem isHere_of_bare (h : p.Bare) : isHere p = false := by
  rw [Bool.eq_false_iff]
  intro hhere
  have hcomponents := h.components_eq
  rw [isHere_iff.mp hhere, (inner_of_isHere hhere).1, (inner_of_isHere hhere).2] at hcomponents
  cases hcomponents

/-- A name counts behind what counts of the path that it is put below. -/
theorem inner_below (hn : '/' ∉ n) :
    (below p n).inner = p.inner ++ (Path.innerComponent? n).toList := by
  rw [below]
  split
  · next h => rw [(inner_of_isHere h).1, Path.inner_of_not_mem hn, List.nil_append]
  · rw [Path.inner_join_path p (Path.isAbsolute_eq_false_of_not_mem hn), Path.inner_of_not_mem hn]

theorem isAbsolute_below (hp : p.text ≠ []) (hn : '/' ∉ n) :
    (below p n).isAbsolute = p.isAbsolute := by
  have hrelative := Path.isAbsolute_eq_false_of_not_mem hn
  rw [below]
  split
  · next h => rw [(inner_of_isHere h).2, hrelative]
  · exact Path.isAbsolute_join hp hrelative

/-- A path ends in the name that was put below it. -/
theorem fileName?_below (hn : IsName n) : (below p n).fileName? = some n := by
  refine Path.fileName?_eq_some_iff.mpr ⟨p.inner, ?_⟩
  rw [inner_below hn.1, hn.2]
  rfl

/-- The path that names lead to from a base. -/
def under (b : Path) (ns : List Text) : Path :=
  ns.foldl below b

theorem under_concat (b : Path) (ns : List Text) (n : Text) :
    under b (ns ++ [n]) = below (under b ns) n := by
  rw [under, List.foldl_append]
  rfl

/-- A base of a search: the starting directory itself, or a path that does not start with it. -/
def IsBase (b : Path) : Prop :=
  b = ⟨['.']⟩ ∨ b.text ≠ [] ∧ b.Bare

/-- The segments that stand before the names in the paths below a base. -/
structure Spells (b : Path) (pre : List Text) : Prop where
  inner : pre.filterMap Path.innerComponent? = b.inner
  /-- They are those of the base but for an empty one at its end. -/
  segments : b = ⟨['.']⟩ ∧ pre = [] ∨
    pre ≠ [] ∧ pre.head? ≠ some ['.'] ∧ (b.segments = pre ∨ b.segments = pre ++ [[]])
  under : ∀ ns, ns ≠ [] → (∀ n ∈ ns, IsName n) →
    (under b ns).segments = pre ++ ns ∧ (under b ns).isAbsolute = b.isAbsolute

/-- A name goes behind a path that ends in a name. -/
theorem segments_below {init : List Text} {last : Text} (hp : p.segments = init ++ [last])
    (hlast : IsName last) (hn : IsName n) :
    (below p n).segments = p.segments ++ [n] ∧ (below p n).isAbsolute = p.isAbsolute := by
  have htext : p.text ≠ [] := by
    intro hnil
    rw [Path.segments, hnil] at hp
    have hends : [([] : Text)] = init ++ [last] := hp
    have hempty := congrArg List.getLast? hends
    rw [List.getLast?_concat] at hempty
    exact hlast.ne_nil (Option.some.inj hempty).symm
  have hnot : isHere p = false := by
    rw [Bool.eq_false_iff]
    intro h
    have hinner := (inner_of_isHere h).1
    rw [Path.inner, hp, List.filterMap_append, List.filterMap_cons_some hlast.2] at hinner
    simp at hinner
  refine ⟨?_, isAbsolute_below htext hn.1⟩
  obtain ⟨pre, -, hsegments, hjoin⟩ := Path.exists_segments_eq htext
  rw [below, hnot, if_neg Bool.false_ne_true, hjoin ⟨n⟩ (Path.isAbsolute_eq_false_of_not_mem hn.1),
    Path.segments_of_not_mem hn.1]
  rcases hsegments with h | h
  · rw [h]
  · rw [h] at hp
    exact absurd (List.singleton_inj.mp (List.append_inj_right' hp rfl)).symm hlast.ne_nil

/-- **The paths below a base** are spelled by the segments of the base and then by names. -/
theorem exists_spells (hb : IsBase b) : ∃ pre, Spells b pre := by
  obtain ⟨pre, hinner, hsegments, hbelow⟩ : ∃ pre : List Text,
      pre.filterMap Path.innerComponent? = b.inner ∧
      (b = ⟨['.']⟩ ∧ pre = [] ∨
        pre ≠ [] ∧ pre.head? ≠ some ['.'] ∧ (b.segments = pre ∨ b.segments = pre ++ [[]])) ∧
      ∀ n, IsName n → (below b n).segments = pre ++ [n] ∧
        (below b n).isAbsolute = b.isAbsolute := by
    rcases hb with rfl | ⟨htext, hbare⟩
    · refine ⟨[], rfl, .inl ⟨rfl, rfl⟩, fun n hn => ?_⟩
      exact ⟨Path.segments_of_not_mem hn.1, Path.isAbsolute_eq_false_of_not_mem hn.1⟩
    · have hnot := isHere_of_bare hbare
      obtain ⟨pre, hne, hsegments, hjoin⟩ := Path.exists_segments_eq htext
      have hinner : pre.filterMap Path.innerComponent? = b.inner := by
        rw [Path.inner]
        rcases hsegments with h | h
        · rw [h]
        · rw [h, List.filterMap_append]
          simp [Path.innerComponent?, Path.isTrivial]
      have hhead : pre.head? ≠ some ['.'] := by
        obtain ⟨first, rest, rfl⟩ := List.exists_cons_of_ne_nil hne
        rcases hsegments with h | h
        · rwa [Path.Bare, h] at hbare
        · rwa [Path.Bare, h] at hbare
      refine ⟨pre, hinner, .inr ⟨hne, hhead, hsegments⟩, fun n hn => ⟨?_, ?_⟩⟩
      · rw [below, hnot, if_neg Bool.false_ne_true,
          hjoin ⟨n⟩ (Path.isAbsolute_eq_false_of_not_mem hn.1), Path.segments_of_not_mem hn.1]
      · exact isAbsolute_below htext hn.1
  refine ⟨pre, hinner, hsegments, fun ns hne hns => ?_⟩
  -- only the first name is put below the base itself
  induction ns using List.reverseRecOn with
  | nil => exact absurd rfl hne
  | append_singleton ns n ih =>
      obtain ⟨hns, hn⟩ := List.forall_mem_append.mp hns
      replace hn := List.forall_mem_singleton.mp hn
      rw [under_concat]
      rcases List.eq_nil_or_concat ns with rfl | ⟨init, last, rfl⟩
      · exact hbelow n hn
      · rw [List.concat_eq_append] at hns ih ⊢
        obtain ⟨hsegments, habs⟩ := ih (by simp) hns
        have hlast : IsName last := hns last (by simp)
        rw [← List.append_assoc] at hsegments
        obtain ⟨hstep, hstepAbs⟩ := segments_below hsegments hlast hn
        rw [hstep, hstepAbs, hsegments, habs]
        simp

end Candidate

/-! ### Relative paths -/

namespace Path

theorem IsName.isTrivial_eq {n : Text} (h : IsName n) : isTrivial n = false := by
  rw [Bool.eq_false_iff]
  intro htrivial
  have hc := h.2
  rw [innerComponent?_of_isTrivial htrivial] at hc
  cases hc

theorem trimSegments_concat {init : List Text} {last : Text} (h : IsName last) :
    trimSegments (init ++ [last]) = init ++ [last] := by
  rw [trimSegments, List.reverse_concat, List.dropWhile_cons, h.isTrivial_eq,
    if_neg Bool.false_ne_true, ← List.reverse_concat, List.reverse_reverse]

/-- Names are no segments that are trimmed at the end of a path. -/
theorem trimSegments_names {ns : List Text} (h : ∀ n ∈ ns, IsName n) : trimSegments ns = ns := by
  rcases List.eq_nil_or_concat ns with rfl | ⟨init, last, rfl⟩
  · rfl
  · rw [List.concat_eq_append] at h ⊢
    exact trimSegments_concat (h last (by simp))

/-- Dropping all that counts before some names leaves the names. -/
theorem dropSegments_append {pre ns : List Text} (hns : ∀ n ∈ ns, IsName n) (hne : ns ≠ []) :
    dropSegments (pre.filterMap innerComponent?).length (pre ++ ns) = ns := by
  induction pre with
  | nil =>
      obtain ⟨n, ns, rfl⟩ := List.exists_cons_of_ne_nil hne
      simp [dropSegments, (hns n List.mem_cons_self).isTrivial_eq]
  | cons s pre ih =>
      cases htrivial : isTrivial s with
      | true =>
          rw [List.filterMap_cons_none (innerComponent?_of_isTrivial htrivial)]
          simpa [dropSegments, htrivial] using ih
      | false =>
          rw [List.filterMap_cons_some (innerComponent?_of_not_isTrivial htrivial)]
          simpa [dropSegments, htrivial] using ih

end Path

namespace Candidate

open IndentHtml.Path (IsName)

variable {b : Path} {ns : List Text}

section Names

variable (hb : IsBase b) (hns : ∀ n ∈ ns, IsName n) (hne : ns ≠ [])

include hb hns hne

/-- What counts of a path below a base is what counts of the base and then the names. -/
theorem inner_under : (under b ns).inner = b.inner ++ ns.map .name := by
  obtain ⟨pre, hspells⟩ := exists_spells hb
  rw [Path.inner, (hspells.under ns hne hns).1, List.filterMap_append, hspells.inner,
    Path.filterMap_names hns]

theorem isAbsolute_under : (under b ns).isAbsolute = b.isAbsolute := by
  obtain ⟨pre, hspells⟩ := exists_spells hb
  exact (hspells.under ns hne hns).2

/-- A path below a base does not start with `.`, since a search leaves this out. -/
theorem bare_under : (under b ns).Bare := by
  obtain ⟨pre, hspells⟩ := exists_spells hb
  rw [Path.Bare, (hspells.under ns hne hns).1]
  rcases hspells.segments with ⟨-, rfl⟩ | ⟨hpre, hhead, -⟩
  · obtain ⟨n, ns, rfl⟩ := List.exists_cons_of_ne_nil hne
    intro h
    exact (hns n List.mem_cons_self).ne_here (Option.some.inj h)
  · obtain ⟨first, rest, rfl⟩ := List.exists_cons_of_ne_nil hpre
    exact hhead

/-- **The names below a base** are what follows the base in the path they lead to. -/
theorem relativeTo?_under {base : Path}
    (hbase : base.components = (if b.isAbsolute then [.root] else []) ++ b.inner) :
    (under b ns).relativeTo? base = some (Path.ofSegments ns) := by
  have habs := isAbsolute_under hb hns hne
  have hprefix : base.components.isPrefixOf (under b ns).components = true := by
    rw [List.isPrefixOf_iff_prefix, (bare_under hb hns hne).components_eq, habs,
      inner_under hb hns hne, ← List.append_assoc, ← hbase]
    exact List.prefix_append _ _
  obtain ⟨pre, hspells⟩ := exists_spells hb
  have hsegments := (hspells.under ns hne hns).1
  rw [Path.relativeTo?, if_pos hprefix, hsegments]
  rcases hspells.segments with ⟨rfl, rfl⟩ | ⟨hpre, hhead, -⟩
  · -- nothing of the base counts
    obtain ⟨n, rest, rfl⟩ := List.exists_cons_of_ne_nil hne
    obtain ⟨hn, hrest⟩ := List.forall_mem_cons.mp hns
    have hempty : n.isEmpty = false := by
      rw [Bool.eq_false_iff, ne_eq, List.isEmpty_iff]
      exact hn.ne_nil
    have hnothing : base.components = [] := hbase
    rw [hnothing, List.nil_append]
    simp [Path.trimSegments_names hrest, Path.ofFirst, hempty]
  · obtain ⟨first, rest, rfl⟩ := List.exists_cons_of_ne_nil hpre
    have hlength : base.components.length =
        (rest.filterMap Path.innerComponent?).length + 1 := by
      have htop := Path.isAbsolute_iff hsegments fun h => hne (List.append_eq_nil_iff.mp h.2).2
      rw [habs] at htop
      rw [hbase, ← hspells.inner]
      cases hb : b.isAbsolute with
      | true =>
          rw [htop.mp hb, List.filterMap_cons_none rfl, List.length_append, Nat.add_comm]
          rfl
      | false =>
          have hnontrivial : Path.isTrivial first = false := by
            have hne : first ≠ [] := fun h => by rw [htop.mpr h] at hb; cases hb
            have hhere : first ≠ ['.'] := fun h => hhead (by rw [h]; rfl)
            simp [Path.isTrivial, hne, hhere]
          rw [List.filterMap_cons_some (Path.innerComponent?_of_not_isTrivial hnontrivial)]
          rfl
    rw [hlength]
    simp [Path.dropSegments_append hns hne, Path.trimSegments_names hns]

end Names

end Candidate

end IndentHtml
