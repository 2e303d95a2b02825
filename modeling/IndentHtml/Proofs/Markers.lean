import IndentHtml.Proofs.Passes
import IndentHtml.Proofs.Recognition

/-!
# The markers of a text

A marker is a sigil with `[A-Za-z_][A-Za-z0-9_.]*` in braces behind it (`Segment.Marker`).  A text
is divided (`Segment.Division.Divides`) when it is written as literals with markers between them,
and each marker that stands anywhere in the text, at whatever place, is one of these.

**Substitution** (`Segment.exists_unique_division`).  A text has exactly one division, and what
substitution gives is the division with the value of its path in place of each marker.

What fails to be a marker may hold the start of one, as in `#{#{a}}`, so the reader goes on behind
the sigil and not behind what it has read.  Behind a marker it may go on at once: of the characters
of a marker only the first one starts a marker, since only there a brace is behind a sigil
(`Segment.Marker.exists_eq_append_of_print_append`).
-/

namespace IndentHtml

namespace Segment

variable {isSigil : Char → Bool}

/-! ### Markers -/

/-- A marker with one of the sigils. -/
structure Marker (isSigil : Char → Bool) where
  sigil : Char
  /-- The first character of the path. -/
  first : Char
  more : Text
  isSigil_sigil : isSigil sigil = true
  first_mem : first ∈ Directive.starts
  more_mem : ∀ c ∈ more, c ∈ Directive.pathChars

namespace Marker

/-- The path in the braces. -/
def path (m : Marker isSigil) : Text :=
  m.first :: m.more

/-- The written form of a marker. -/
def print (m : Marker isSigil) : Text :=
  (marker m.sigil m.path).print

theorem print_append (m : Marker isSigil) (rest : Text) :
    m.print ++ rest = m.sigil :: '{' :: (m.path ++ '}' :: rest) :=
  print_marker_append m.sigil m.path rest

theorem isPath (m : Marker isSigil) : IsPath m.path :=
  ⟨m.first, m.more, rfl, Directive.isWordStart_iff.mpr m.first_mem,
    fun c hc => Directive.isPathChar_iff.mpr (m.more_mem c hc)⟩

theorem exists_of_isPath {sigil : Char} (hsigil : isSigil sigil = true) {path : Text}
    (h : IsPath path) : ∃ m : Marker isSigil, m.sigil = sigil ∧ m.path = path := by
  obtain ⟨first, more, rfl, hfirst, hmore⟩ := h
  exact ⟨⟨sigil, first, more, hsigil, Directive.isWordStart_iff.mp hfirst,
    fun c hc => Directive.isPathChar_iff.mp (hmore c hc)⟩, rfl, rfl⟩

theorem eq_of_path_eq {m n : Marker isSigil} (hsigil : m.sigil = n.sigil)
    (hpath : m.path = n.path) : m = n := by
  obtain ⟨sigil, first, more, _, _, _⟩ := m
  obtain ⟨sigil', first', more', _, _, _⟩ := n
  obtain ⟨rfl, rfl⟩ := List.cons.inj hpath
  obtain rfl : sigil = sigil' := hsigil
  rfl

/-- The reader takes a marker up to its closing brace, whatever follows. -/
theorem bracedPath?_tail (m : Marker isSigil) (rest : Text) :
    bracedPath? ('{' :: (m.path ++ '}' :: rest)) = some (m.path, rest) :=
  m.isPath.bracedPath? rest

/-- At one place of a text there is one marker only. -/
theorem eq_of_append_eq {m n : Marker isSigil} {rest rest' : Text}
    (h : m.print ++ rest = n.print ++ rest') : m = n ∧ rest = rest' := by
  obtain ⟨hsigil, hpath, hrest⟩ := m.isPath.eq_of_print_append_eq n.isPath h
  exact ⟨eq_of_path_eq hsigil hpath, hrest⟩

/-- The only brace that opens in a marker is the one behind the sigil. -/
theorem eq_nil_of_braces_eq (m : Marker isSigil) {u v : Text}
    (h : '{' :: (m.path ++ ['}']) = u ++ '{' :: v) : u = [] := by
  cases u with
  | nil => rfl
  | cons c u =>
      obtain ⟨-, hpath⟩ := List.cons.inj h
      have hmem : '{' ∈ m.path ++ ['}'] := by
        rw [hpath]
        exact List.mem_append_right u List.mem_cons_self
      rcases List.mem_append.mp hmem with hmem | hmem
      · cases m.isPath.isPathChar hmem
      · cases List.mem_singleton.mp hmem

/-- **Markers do not overlap.**  Where a marker starts a text, the next one starts behind it, unless
a closing brace is a sigil. -/
theorem exists_eq_append_of_print_append (hclose : isSigil '}' = false) {m n : Marker isSigil}
    {rest before after : Text} (hne : before ≠ [])
    (h : m.print ++ rest = before ++ (n.print ++ after)) :
    ∃ between, before = m.print ++ between ∧ rest = between ++ (n.print ++ after) := by
  rcases List.append_eq_append_iff.mp h with ⟨between, hbefore, hrest⟩ | ⟨shared, hm, hn⟩
  · exact ⟨between, hbefore, hrest⟩
  · obtain ⟨c, before, rfl⟩ := List.exists_cons_of_ne_nil hne
    cases shared with
    | nil => exact ⟨[], by rw [List.append_nil, hm, List.append_nil], hn.symm⟩
    | cons s shared =>
        -- `s` is the sigil of the second marker and stands in the braces of the first one
        rw [print_append, List.cons_append] at hn
        obtain ⟨rfl, htail⟩ := List.cons.inj hn
        obtain ⟨-, hbraces⟩ := List.cons.inj hm
        cases shared with
        | nil =>
            obtain ⟨-, hlast⟩ := List.append_inj' ((List.cons_append ..).trans hbraces) rfl
            have hsigil := n.isSigil_sigil
            rw [← List.singleton_inj.mp hlast, hclose] at hsigil
            cases hsigil
        | cons d shared =>
            rw [List.cons_append] at htail
            obtain ⟨rfl, -⟩ := List.cons.inj htail
            have hsplit : '{' :: (m.path ++ ['}']) = (before ++ [n.sigil]) ++ '{' :: shared := by
              rw [hbraces]
              simp
            have hnil := m.eq_nil_of_braces_eq hsplit
            simp at hnil

end Marker

/-! ### Cutting -/

theorem cut_marker (m : Marker isSigil) (t : Text) :
    cut isSigil (m.print ++ t) = marker m.sigil m.path :: cut isSigil t := by
  rw [Marker.print_append, cut, if_pos m.isSigil_sigil]
  split
  · next path rest hread =>
      rw [m.bracedPath?_tail t] at hread
      obtain ⟨rfl, rfl⟩ := Prod.mk.inj (Option.some.inj hread)
      rfl
  · next hnone =>
      rw [m.bracedPath?_tail t] at hnone
      cases hnone

theorem cut_plain {c : Char} {t : Text} (h : isSigil c = true → bracedPath? t = none) :
    cut isSigil (c :: t) = plain c :: cut isSigil t := by
  rw [cut]
  split
  · next hc =>
      split
      · next hread =>
          rw [h hc] at hread
          cases hread
      · rfl
  · rfl

/-! ### Divisions -/

/-- Literals with markers between them: the first literal, and the markers, each with the literal
behind it. -/
structure Division (isSigil : Char → Bool) where
  front : Text
  marks : List (Marker isSigil × Text)

namespace Division

/-- The text of some markers and the literals behind them. -/
def printMarks (marks : List (Marker isSigil × Text)) : Text :=
  marks.flatMap fun mark => mark.1.print ++ mark.2

/-- The text that is divided. -/
def print (d : Division isSigil) : Text :=
  d.front ++ printMarks d.marks

/-- The literals with what `resolve` makes of the paths between them. -/
def replace (resolve : Text → Text) (d : Division isSigil) : Text :=
  d.front ++ d.marks.flatMap fun mark => resolve mark.1.path ++ mark.2

/-- The segments of a division: its markers and the characters of its literals. -/
def segments (d : Division isSigil) : List Segment :=
  d.front.map plain ++
    d.marks.flatMap fun mark => marker mark.1.sigil mark.1.path :: mark.2.map plain

/-- Holds of a text and its division: the literals and markers make up the text, and each marker
that stands in the text is the one of the division at this place. -/
structure Divides (d : Division isSigil) (t : Text) : Prop where
  print : d.print = t
  complete (before after : Text) (m : Marker isSigil) (h : t = before ++ (m.print ++ after)) :
    ∃ marks literal rest, d.marks = marks ++ (m, literal) :: rest ∧
      before = d.front ++ printMarks marks

@[simp] theorem printMarks_nil : printMarks ([] : List (Marker isSigil × Text)) = [] := rfl

@[simp] theorem printMarks_cons (mark : Marker isSigil × Text)
    (marks : List (Marker isSigil × Text)) :
    printMarks (mark :: marks) = mark.1.print ++ (mark.2 ++ printMarks marks) := by
  simp [printMarks]

/-! ### One division -/

/-- The division without the first character of its first literal. -/
theorem Divides.of_cons {c : Char} {front t : Text} {marks : List (Marker isSigil × Text)}
    (h : Divides ⟨c :: front, marks⟩ (c :: t)) : Divides ⟨front, marks⟩ t where
  print := (List.cons.inj h.print).2
  complete before after m ht := by
    obtain ⟨first, literal, rest, hmarks, hbefore⟩ :=
      h.complete (c :: before) after m (congrArg (c :: ·) ht)
    exact ⟨first, literal, rest, hmarks, (List.cons.inj hbefore).2⟩

/-- The division of what follows the first marker. -/
theorem Divides.of_marker {m : Marker isSigil} {literal t : Text}
    {marks : List (Marker isSigil × Text)}
    (h : Divides ⟨[], (m, literal) :: marks⟩ (m.print ++ t)) : Divides ⟨literal, marks⟩ t where
  print := by
    have hprint := h.print
    rw [Division.print, List.nil_append, printMarks_cons] at hprint
    exact List.append_cancel_left hprint
  complete before after n ht := by
    obtain ⟨first, literal', rest, hmarks, hbefore⟩ :=
      h.complete (m.print ++ before) after n
        (by rw [ht, List.append_assoc])
    cases first with
    | nil =>
        rw [List.nil_append, printMarks_nil] at hbefore
        exact absurd (List.append_eq_nil_iff.mp hbefore).1 (List.cons_ne_nil _ _)
    | cons mark first =>
        obtain ⟨rfl, hmore⟩ := List.cons.inj hmarks
        rw [List.nil_append, printMarks_cons] at hbefore
        exact ⟨first, literal', rest, hmore, List.append_cancel_left hbefore⟩

/-- No marker starts a text whose first literal is not empty. -/
theorem Divides.bracedPath?_eq_none {c : Char} {front t : Text}
    {marks : List (Marker isSigil × Text)} (h : Divides ⟨c :: front, marks⟩ (c :: t))
    (hsigil : isSigil c = true) : bracedPath? t = none := by
  refine Option.eq_none_iff_forall_ne_some.mpr fun found hfound => ?_
  obtain ⟨path, after⟩ := found
  obtain ⟨hpath, rfl⟩ := bracedPath?_eq_some_iff.mp hfound
  obtain ⟨m, rfl, rfl⟩ := Marker.exists_of_isPath hsigil hpath
  obtain ⟨_, _, _, _, hbefore⟩ := h.complete [] after m
    (by rw [Marker.print_append]; rfl)
  cases hbefore

/-- The reader goes through the first literal of a division by single characters. -/
theorem Divides.cut_eq_of_nil {marks : List (Marker isSigil × Text)}
    (hnil : ∀ t, Divides ⟨[], marks⟩ t → cut isSigil t = segments ⟨[], marks⟩) {front t : Text}
    (h : Divides ⟨front, marks⟩ t) : cut isSigil t = segments ⟨front, marks⟩ := by
  induction front generalizing t with
  | nil => exact hnil t h
  | cons c front ih =>
      obtain ⟨t, rfl⟩ : ∃ u, t = c :: u := ⟨_, h.print.symm⟩
      rw [cut_plain h.bracedPath?_eq_none, ih h.of_cons]
      rfl

/-- **A division is the one that the reader finds**, from left to right. -/
theorem Divides.cut_eq {d : Division isSigil} {t : Text} (h : Divides d t) :
    cut isSigil t = d.segments := by
  obtain ⟨front, marks⟩ := d
  induction marks generalizing front t with
  | nil =>
      refine h.cut_eq_of_nil fun t ht => ?_
      obtain rfl : [] = t := ht.print
      rw [cut]
      rfl
  | cons mark marks ih =>
      refine h.cut_eq_of_nil fun t ht => ?_
      obtain ⟨m, literal⟩ := mark
      obtain ⟨t, rfl⟩ : ∃ u, t = m.print ++ u :=
        ⟨literal ++ printMarks marks, by rw [← ht.print, Division.print, printMarks_cons]; rfl⟩
      rw [cut_marker, ih literal ht.of_marker]
      simp [segments]

/-- The literals and markers of a list of segments. -/
def group : List Segment → Text × List ((Char × Text) × Text)
  | [] => ([], [])
  | .plain c :: ss => (c :: (group ss).1, (group ss).2)
  | .marker sigil path :: ss => ([], ((sigil, path), (group ss).1) :: (group ss).2)

theorem group_append (literal : Text) (ss : List Segment) :
    group (literal.map plain ++ ss) = (literal ++ (group ss).1, (group ss).2) := by
  induction literal with
  | nil => rfl
  | cons c literal ih =>
      show (c :: (group (literal.map plain ++ ss)).1, (group (literal.map plain ++ ss)).2) = _
      rw [ih]
      rfl

theorem group_segments (d : Division isSigil) :
    group d.segments =
      (d.front, d.marks.map fun mark => ((mark.1.sigil, mark.1.path), mark.2)) := by
  obtain ⟨front, marks⟩ := d
  induction marks generalizing front with
  | nil =>
      rw [segments, group_append, List.flatMap_nil, group, List.append_nil]
      rfl
  | cons mark marks ih =>
      have hrest := ih mark.2
      rw [segments] at hrest
      rw [segments, group_append, List.flatMap_cons, List.cons_append, group, hrest]
      simp

/-- A division is determined by its segments. -/
theorem eq_of_segments_eq {d e : Division isSigil} (h : d.segments = e.segments) : d = e := by
  have hgroup := congrArg group h
  rw [group_segments, group_segments] at hgroup
  obtain ⟨hfront, hmarks⟩ := Prod.mk.inj hgroup
  have hmark : Function.Injective fun mark : Marker isSigil × Text =>
      ((mark.1.sigil, mark.1.path), mark.2) := by
    intro mark mark' heq
    obtain ⟨hmarker, hliteral⟩ := Prod.mk.inj heq
    obtain ⟨hsigil, hpath⟩ := Prod.mk.inj hmarker
    exact Prod.ext (Marker.eq_of_path_eq hsigil hpath) hliteral
  obtain ⟨front, marks⟩ := d
  obtain ⟨front', marks'⟩ := e
  obtain rfl : front = front' := hfront
  obtain rfl : marks = marks' := List.map_injective_iff.mpr hmark hmarks
  rfl

theorem replace_eq (resolve : Text → Text) (d : Division isSigil) :
    d.segments.flatMap (Segment.replace resolve) = d.replace resolve := by
  have hplain : ∀ t : Text, (t.map plain).flatMap (Segment.replace resolve) = t := by
    intro t
    rw [List.flatMap_map]
    exact List.flatMap_singleton' t
  rw [segments, List.flatMap_append, hplain, List.flatMap_assoc, replace]
  refine congrArg (d.front ++ ·) (List.flatMap_congr fun mark _ => ?_)
  rw [List.flatMap_cons, hplain]
  rfl

/-! ### Every text has a division -/

/-- A character in front of a division that starts no marker belongs to its first literal. -/
theorem Divides.cons {d : Division isSigil} {c : Char} {t : Text} (h : Divides d t)
    (hc : isSigil c = true → bracedPath? t = none) : Divides ⟨c :: d.front, d.marks⟩ (c :: t) where
  print := congrArg (c :: ·) h.print
  complete before after m ht := by
    cases before with
    | nil =>
        rw [List.nil_append, Marker.print_append] at ht
        obtain ⟨rfl, rfl⟩ := List.cons.inj ht
        have hnone := hc m.isSigil_sigil
        rw [m.bracedPath?_tail after] at hnone
        cases hnone
    | cons e before =>
        obtain ⟨rfl, hrest⟩ := List.cons.inj ht
        obtain ⟨first, literal, rest, hmarks, rfl⟩ := h.complete _ _ _ hrest
        exact ⟨first, literal, rest, hmarks, rfl⟩

/-- A marker in front of a division is one more marker. -/
theorem Divides.marker {d : Division isSigil} {t : Text} (h : Divides d t)
    (hclose : isSigil '}' = false) (m : Marker isSigil) :
    Divides ⟨[], (m, d.front) :: d.marks⟩ (m.print ++ t) where
  print := by
    rw [← h.print, Division.print, List.nil_append, printMarks_cons]
    rfl
  complete before after n ht := by
    by_cases hne : before = []
    · subst hne
      obtain ⟨rfl, -⟩ := Marker.eq_of_append_eq ht
      exact ⟨[], d.front, d.marks, rfl, rfl⟩
    · obtain ⟨between, rfl, hrest⟩ := Marker.exists_eq_append_of_print_append hclose hne ht
      obtain ⟨first, literal, rest, hmarks, rfl⟩ := h.complete _ _ _ hrest
      exact ⟨(m, d.front) :: first, literal, rest, congrArg (_ :: ·) hmarks, by simp⟩

theorem exists_divides (hclose : isSigil '}' = false) (t : Text) :
    ∃ d : Division isSigil, Divides d t := by
  fun_induction cut isSigil t with
  | case1 =>
      refine ⟨⟨[], []⟩, rfl, fun before after m h => ?_⟩
      rw [Marker.print_append] at h
      exact absurd h.symm (List.append_ne_nil_of_right_ne_nil before (List.cons_ne_nil _ _))
  | case2 c t hc path rest hread _ ih =>
      obtain ⟨d, hd⟩ := ih
      obtain ⟨hpath, rfl⟩ := bracedPath?_eq_some_iff.mp hread
      obtain ⟨m, rfl, rfl⟩ := Marker.exists_of_isPath hc hpath
      rw [← Marker.print_append]
      exact ⟨_, hd.marker hclose m⟩
  | case3 c t hc hnone ih =>
      obtain ⟨d, hd⟩ := ih
      exact ⟨_, hd.cons fun _ => hnone⟩
  | case4 c t hc ih =>
      obtain ⟨d, hd⟩ := ih
      exact ⟨_, hd.cons fun hsigil => absurd hsigil hc⟩

end Division

/-- **Substitution.**  Let the sigils be among `!` and `#`.  A text has exactly one division, which
has all markers that stand anywhere in the text.  Substitution puts the value of its path in place
of each marker and keeps the literals, and so does the scanner on offsets, which meets no fault. -/
theorem exists_unique_division (hsigil : ∀ c, isSigil c = true → c = '!' ∨ c = '#') (t : Text) :
    ∃ d : Division isSigil, d.Divides t ∧
      (∀ other : Division isSigil, other.Divides t → other = d) ∧
      ∀ resolve, substitute isSigil resolve t = d.replace resolve ∧
        Offsets.substitute isSigil resolve t = .ok (d.replace resolve) := by
  have hclose : isSigil '}' = false := by
    refine Bool.eq_false_iff.mpr fun h => ?_
    rcases hsigil _ h with h | h <;> cases h
  have hascii : Text.Ascii isSigil := by
    intro c hc
    rcases hsigil c hc with rfl | rfl <;> rfl
  obtain ⟨d, hd⟩ := Division.exists_divides hclose t
  have hsubstitute : ∀ resolve, substitute isSigil resolve t = d.replace resolve := by
    intro resolve
    rw [substitute, hd.cut_eq, Division.replace_eq]
  refine ⟨d, hd, fun other hother => ?_, fun resolve => ⟨hsubstitute resolve, ?_⟩⟩
  · exact Division.eq_of_segments_eq (hother.cut_eq.symm.trans hd.cut_eq)
  · rw [Offsets.substitute_eq hascii, hsubstitute]

/-- A sigil in front of a marker, and a marker in the braces of what is none. -/
theorem exists_division_of_nested_braces :
    (∀ c, Scope.isSigil c = true → c = '!' ∨ c = '#') ∧
      ∃ d : Division Scope.isSigil, d.Divides "##\x7ba\x7d!\x7b#\x7bb\x7d\x7d".toList ∧
        d.segments = [.plain '#', .marker '#' ['a'], .plain '!', .plain '{', .marker '#' ['b'],
          .plain '}'] ∧
        ∀ resolve, substitute Scope.isSigil resolve "##\x7ba\x7d!\x7b#\x7bb\x7d\x7d".toList =
          d.replace resolve := by
  have hsigil : ∀ c, Scope.isSigil c = true → c = '!' ∨ c = '#' := by
    intro c hc
    simpa [Scope.isSigil, or_comm] using hc
  obtain ⟨d, hd, -, hsubstitute⟩ :=
    exists_unique_division hsigil "##\x7ba\x7d!\x7b#\x7bb\x7d\x7d".toList
  refine ⟨hsigil, d, hd, ?_, fun resolve => (hsubstitute resolve).1⟩
  rw [← hd.cut_eq]
  decide +kernel

end Segment

end IndentHtml
