import IndentHtml.Proofs.Offsets
import Mathlib.Data.List.TakeWhile

/-!
# One pass over the markers of a text

The text of a line is interpolated in two passes: the markers with `!` are replaced throughout the
text before those with `#` are looked for in the result.  One pass over both (`Segment.Replaces`)
goes from left to right, replaces each marker it meets and copies what starts no marker.

The passes differ where the first one makes an escaped marker or breaks one up.  It can bring a
`#` in a value, and it can put something, or nothing, behind a `#` or a `#{name` that the text
leaves open (`Segment.Unfinished`).

**The two passes are one** (`Scope.replaces_iff_interpolate`) when no plain marker does either.
An escaped marker of the first result then has all its characters from one stretch of the text,
since the first marker that stood inside it would stand behind its open head
(`Segment.exists_open_of_substitute`).
-/

namespace IndentHtml

open Offsets (replacement_of_some replacement_of_none substitute_append substitute_nil
  substitute_sigil)

namespace Segment

/-! ### Paths in braces -/

/-- A dotted path as it stands in a marker. -/
def IsPath (path : Text) : Prop :=
  ∃ c rest, path = c :: rest ∧ Text.isWordStart c = true ∧ ∀ d ∈ rest, Text.isPathChar d = true

theorem isPathChar_of_isWordStart {c : Char} (h : Text.isWordStart c = true) :
    Text.isPathChar c = true := by
  simp only [Text.isPathChar, Text.isWordChar, Text.isWordStart, Bool.or_eq_true] at h ⊢
  tauto

theorem IsPath.isPathChar {path : Text} (h : IsPath path) {c : Char} (hc : c ∈ path) :
    Text.isPathChar c = true := by
  obtain ⟨first, rest, rfl, hfirst, hrest⟩ := h
  rcases List.mem_cons.mp hc with rfl | hc
  · exact isPathChar_of_isWordStart hfirst
  · exact hrest c hc

theorem IsPath.of_bracedPath? {t path rest : Text} (h : bracedPath? t = some (path, rest)) :
    IsPath path := by
  unfold bracedPath? at h
  split at h
  · next c body =>
      split at h
      · next hc =>
          split at h
          · obtain ⟨rfl, -⟩ := Prod.mk.inj (Option.some.inj h)
            exact ⟨c, _, rfl, hc, fun d hd => List.mem_takeWhile_imp hd⟩
          · cases h
      · cases h
  · cases h

theorem IsPath.bracedPath? {path : Text} (h : IsPath path) (rest : Text) :
    bracedPath? ('{' :: (path ++ '}' :: rest)) = some (path, rest) := by
  obtain ⟨c, more, rfl, hc, hmore⟩ := h
  have hclose : ¬ Text.isPathChar '}' = true := by decide
  have hdrop : (more ++ '}' :: rest).dropWhile Text.isPathChar = '}' :: rest := by
    rw [List.dropWhile_append_of_pos hmore, List.dropWhile_cons_of_neg hclose]
  have htake : (more ++ '}' :: rest).takeWhile Text.isPathChar = more := by
    rw [List.takeWhile_append_of_pos hmore, List.takeWhile_cons_of_neg hclose, List.append_nil]
  rw [List.cons_append, Segment.bracedPath?, if_pos hc, hdrop]
  exact congrArg (fun body => some (c :: body, rest)) htake

/-- The reader takes what stands between braces when it is a path, and nothing else. -/
theorem bracedPath?_eq_some_iff {t path rest : Text} :
    bracedPath? t = some (path, rest) ↔ IsPath path ∧ t = '{' :: (path ++ '}' :: rest) :=
  ⟨fun h => ⟨.of_bracedPath? h, eq_of_bracedPath? h⟩, fun h => h.2 ▸ h.1.bracedPath? rest⟩

/-! ### Replacing from left to right -/

/-- One pass over a text: a marker with one of the sigils is replaced, and a character that starts
no marker is copied. -/
inductive Replaces (isSigil : Char → Bool) (resolve : Char → Text → Text) : Text → Text → Prop
  | nil : Replaces isSigil resolve [] []
  | marker {sigil : Char} {path rest out : Text} (hsigil : isSigil sigil = true)
      (hpath : IsPath path) (h : Replaces isSigil resolve rest out) :
    Replaces isSigil resolve ((marker sigil path).print ++ rest) (resolve sigil path ++ out)
  | plain {c : Char} {rest out : Text}
      (hplain : ∀ path after, isSigil c = true → IsPath path →
        c :: rest ≠ (Segment.marker c path).print ++ after)
      (h : Replaces isSigil resolve rest out) :
    Replaces isSigil resolve (c :: rest) (c :: out)

theorem print_marker_append (sigil : Char) (path rest : Text) :
    (marker sigil path).print ++ rest = sigil :: '{' :: (path ++ '}' :: rest) := by
  simp [print]

/-- At one place of a text there is one marker only. -/
theorem IsPath.eq_of_print_append_eq {sigil sigil' : Char} {path path' rest rest' : Text}
    (hpath : IsPath path) (hpath' : IsPath path')
    (h : (marker sigil path).print ++ rest = (marker sigil' path').print ++ rest') :
    sigil = sigil' ∧ path = path' ∧ rest = rest' := by
  rw [print_marker_append, print_marker_append] at h
  obtain ⟨hsigil, hbody⟩ := List.cons.inj h
  have hread := hpath.bracedPath? rest
  rw [hbody, hpath'.bracedPath? rest'] at hread
  obtain ⟨heq, hrest⟩ := Prod.mk.inj (Option.some.inj hread)
  exact ⟨hsigil, heq.symm, hrest.symm⟩

variable {isSigil : Char → Bool} {resolve : Char → Text → Text}

/-- What one pass writes is determined by the text. -/
theorem Replaces.unique {t out other : Text} (h : Replaces isSigil resolve t out)
    (hother : Replaces isSigil resolve t other) : out = other := by
  induction h generalizing other with
  | nil => cases hother with | nil => rfl
  | @marker sigil path rest out hsigil hpath h ih =>
      generalize ht : (Segment.marker sigil path).print ++ rest = t at hother
      cases hother with
      | nil => cases ht
      | @marker sigil' path' rest' out' hsigil' hpath' h' =>
          obtain ⟨rfl, rfl, rfl⟩ := hpath.eq_of_print_append_eq hpath' ht
          rw [ih h']
      | @plain c rest' out' hplain h' =>
          obtain ⟨rfl, -⟩ := List.cons.inj ht
          exact absurd ht.symm (hplain path rest hsigil hpath)
  | @plain c rest out hplain h ih =>
      generalize ht : c :: rest = t at hother
      cases hother with
      | nil => cases ht
      | @marker sigil' path' rest' out' hsigil' hpath' h' =>
          obtain ⟨rfl, -⟩ := List.cons.inj ht
          exact absurd ht (hplain path' rest' hsigil' hpath')
      | @plain c' rest' out' hplain' h' =>
          obtain ⟨rfl, rfl⟩ := List.cons.inj ht
          rw [ih h']

/-! ### Open heads -/

/-- Holds of a text whose end is the head of an escaped marker that is not closed: `#`, or `#{`
and path characters. -/
def Unfinished (t : Text) : Prop :=
  ∃ before, t = before ++ ['#'] ∨
    ∃ run, (∀ c ∈ run, Text.isPathChar c = true) ∧ t = before ++ '#' :: '{' :: run

theorem Unfinished.append {t : Text} (h : Unfinished t) (u : Text) : Unfinished (u ++ t) := by
  obtain ⟨before, rfl | ⟨run, hrun, rfl⟩⟩ := h
  · exact ⟨u ++ before, .inl (List.append_assoc u before _).symm⟩
  · exact ⟨u ++ before, .inr ⟨run, hrun, (List.append_assoc u before _).symm⟩⟩

/-- An open head ends with one of its own characters. -/
theorem Unfinished.getLast? {t : Text} (h : Unfinished t) :
    ∃ c, t.getLast? = some c ∧ (c = '#' ∨ c = '{' ∨ Text.isPathChar c = true) := by
  obtain ⟨before, rfl | ⟨run, hrun, rfl⟩⟩ := h
  · exact ⟨'#', List.getLast?_concat, .inl rfl⟩
  · obtain rfl | ⟨run, c, rfl⟩ := List.eq_nil_or_concat' run
    · exact ⟨'{', by simp, .inr (.inl rfl)⟩
    · refine ⟨c, ?_, .inr (.inr (hrun c (List.mem_append_right _ List.mem_cons_self)))⟩
      rw [← List.cons_append, ← List.cons_append, ← List.append_assoc]
      exact List.getLast?_concat

/-- A text in front of what the first pass makes of a text stands in that text already, or a plain
marker starts inside it. -/
theorem exists_open_of_substitute {resolve : Text → Text} {w t rest : Text} (hw : '!' ∉ w)
    (h : substitute (· = '!') resolve t = w ++ rest) :
    (∃ after, t = w ++ after) ∨
      ∃ u v path after, w = u ++ v ∧ v ≠ [] ∧ IsPath path ∧
        t = u ++ ((marker '!' path).print ++ after) := by
  induction w generalizing t with
  | nil => exact .inl ⟨t, rfl⟩
  | cons c w ih =>
      obtain ⟨hc, hw'⟩ := List.ne_and_not_mem_of_not_mem_cons hw
      cases t with
      | nil =>
          rw [substitute_nil] at h
          cases h
      | cons d t =>
          by_cases hd : d = '!'
          · subst hd
            cases hread : bracedPath? t with
            | none =>
                rw [substitute_sigil resolve (by rfl), replacement_of_none hread] at h
                exact absurd (List.cons.inj h).1 hc
            | some found =>
                -- the marker starts before the rest of `w`, whatever its value writes there
                obtain ⟨path, after⟩ := found
                obtain ⟨hpath, rfl⟩ := bracedPath?_eq_some_iff.mp hread
                exact .inr ⟨[], c :: w, path, after, rfl, List.cons_ne_nil c w, hpath,
                  (print_marker_append '!' path after).symm⟩
          · have hplain : ∀ x ∈ [d], decide (x = '!') = false := by simpa using hd
            rw [← List.singleton_append, substitute_append resolve hplain] at h
            obtain ⟨rfl, hrest⟩ := List.cons.inj h
            rcases ih hw' hrest with ⟨after, rfl⟩ | ⟨u, v, path, after, rfl, hv, hpath, rfl⟩
            · exact .inl ⟨after, rfl⟩
            · exact .inr ⟨d :: u, v, path, after, rfl, hv, hpath, rfl⟩

end Segment

namespace Scope

open Segment (IsPath Unfinished)

/-- What a marker in the text of a line stands for. -/
def replacement (scope : Scope) (sigil : Char) (path : Text) : Text :=
  if sigil = '!' then scope.textAt path else Html.escape (scope.textAt path)

/-- No plain marker of a text makes an escaped one or breaks one up: no value of one holds a `#`,
and none stands behind an open head. -/
structure Apart (scope : Scope) (t : Text) : Prop where
  value {before path after : Text} (hpath : IsPath path)
    (h : t = before ++ ((Segment.marker '!' path).print ++ after)) : '#' ∉ scope.textAt path
  finished {before path after : Text} (hpath : IsPath path)
    (h : t = before ++ ((Segment.marker '!' path).print ++ after)) : ¬ Unfinished before

theorem Apart.of_append {scope : Scope} {u t : Text} (h : Apart scope (u ++ t)) :
    Apart scope t where
  value hpath ht := h.value hpath (by rw [ht, ← List.append_assoc])
  finished hpath ht hopen :=
    h.finished hpath (by rw [ht, ← List.append_assoc]) (hopen.append u)

/-- **What starts no escaped marker starts none after the first pass.** -/
theorem Apart.bracedPath?_substitute {scope : Scope} {t : Text} (h : Apart scope ('#' :: t))
    (hnone : Segment.bracedPath? t = none) :
    Segment.bracedPath? (substitute (· = '!') scope.textAt t) = none := by
  refine Option.eq_none_iff_forall_ne_some.mpr fun found hfound => ?_
  obtain ⟨path, rest⟩ := found
  obtain ⟨hpath, hread⟩ := Segment.bracedPath?_eq_some_iff.mp hfound
  have hbang : '!' ∉ '{' :: (path ++ ['}']) := by
    intro hmem
    simp only [List.mem_cons, List.mem_append, List.not_mem_nil, or_false] at hmem
    rcases hmem with hmem | hmem | hmem
    · cases hmem
    · cases hpath.isPathChar hmem
    · cases hmem
  have hsplit : substitute (· = '!') scope.textAt t = '{' :: (path ++ ['}']) ++ rest := by
    rw [hread]
    simp
  obtain ⟨after, rfl⟩ | ⟨u, v, other, after, huv, hv, hother, rfl⟩ :=
    Segment.exists_open_of_substitute hbang hsplit
  · have hsome : Segment.bracedPath? ('{' :: (path ++ ['}']) ++ after) = some (path, after) :=
      Segment.bracedPath?_eq_some_iff.mpr ⟨hpath, by simp⟩
    cases hnone.symm.trans hsome
  · have hwhole : '#' :: (u ++ ((Segment.marker '!' other).print ++ after)) =
        ('#' :: u) ++ ((Segment.marker '!' other).print ++ after) := rfl
    refine h.finished hother hwhole ?_
    cases u with
    | nil => exact ⟨[], .inl rfl⟩
    | cons c u =>
        obtain ⟨rfl, hbody⟩ := List.cons.inj huv
        -- The brace is closed behind the marker, so all before it are characters of the path.
        obtain ⟨front, last, rfl⟩ := (List.eq_nil_or_concat' v).resolve_left hv
        have hbody : path ++ ['}'] = u ++ front ++ [last] :=
          hbody.trans (List.append_assoc u front [last]).symm
        obtain ⟨rfl, -⟩ := List.append_inj' hbody rfl
        exact ⟨[], .inr ⟨u, fun d hd => hpath.isPathChar (List.mem_append_left _ hd), rfl⟩⟩

/-- A character that is no sigil is copied by both passes. -/
theorem interpolate_cons (scope : Scope) {c : Char} (hbang : c ≠ '!') (hhash : c ≠ '#')
    (t : Text) : scope.interpolate (c :: t) = c :: scope.interpolate t := by
  have hraw : ∀ d ∈ [c], decide (d = '!') = false := by simpa using hbang
  have hescaped : ∀ d ∈ [c], decide (d = '#') = false := by simpa using hhash
  rw [interpolate, ← List.singleton_append, substitute_append _ hraw,
    substitute_append _ hescaped]
  rfl

/-- A plain marker is replaced by the first pass, and the second one has nothing to replace in a
value without a `#`. -/
theorem interpolate_bang (scope : Scope) {path : Text} (hpath : IsPath path)
    (hvalue : '#' ∉ scope.textAt path) (t : Text) :
    scope.interpolate ((Segment.marker '!' path).print ++ t) =
      scope.textAt path ++ scope.interpolate t := by
  have hescaped : ∀ c ∈ scope.textAt path, decide (c = '#') = false :=
    fun c hc => decide_eq_false fun heq => hvalue (heq ▸ hc)
  rw [interpolate, Segment.print_marker_append, substitute_sigil _ (by rfl),
    replacement_of_some (hpath.bracedPath? t), substitute_append _ hescaped]
  rfl

/-- An escaped marker is copied by the first pass and replaced by the second one. -/
theorem interpolate_hash (scope : Scope) {path : Text} (hpath : IsPath path) (t : Text) :
    scope.interpolate ((Segment.marker '#' path).print ++ t) =
      Html.escape (scope.textAt path) ++ scope.interpolate t := by
  have hraw : ∀ c ∈ (Segment.marker '#' path).print, decide (c = '!') = false := by
    intro c hc
    refine decide_eq_false fun heq => ?_
    subst heq
    simp only [Segment.print, List.mem_cons, List.mem_append, List.not_mem_nil, or_false] at hc
    rcases hc with hc | hc | hc | hc
    · cases hc
    · cases hc
    · cases hpath.isPathChar hc
    · cases hc
  rw [interpolate, substitute_append _ hraw, Segment.print_marker_append,
    substitute_sigil _ (by rfl), replacement_of_some (hpath.bracedPath? _)]
  rfl

/-- A `!` that starts no marker is copied by both passes. -/
theorem interpolate_bang_of_none (scope : Scope) {t : Text} (h : Segment.bracedPath? t = none) :
    scope.interpolate ('!' :: t) = '!' :: scope.interpolate t := by
  have hescaped : ∀ c ∈ ['!'], decide (c = '#') = false := List.forall_mem_singleton.mpr rfl
  rw [interpolate, substitute_sigil _ (by rfl), replacement_of_none h,
    substitute_append _ hescaped]
  rfl

/-- A `#` is copied by both passes if it starts no marker after the first one. -/
theorem interpolate_hash_of_none (scope : Scope) {t : Text}
    (h : Segment.bracedPath? (substitute (· = '!') scope.textAt t) = none) :
    scope.interpolate ('#' :: t) = '#' :: scope.interpolate t := by
  have hraw : ∀ c ∈ ['#'], decide (c = '!') = false := List.forall_mem_singleton.mpr rfl
  rw [interpolate, ← List.singleton_append, substitute_append _ hraw, List.singleton_append,
    substitute_sigil _ (by rfl), replacement_of_none h]
  rfl

/-- The markers of the text of a line start with one of these. -/
def isSigil (c : Char) : Bool :=
  c = '#' || c = '!'

theorem Apart.replaces {scope : Scope} {t : Text} (h : Apart scope t) :
    Segment.Replaces isSigil scope.replacement t (scope.interpolate t) := by
  induction hlength : t.length using Nat.strongRecOn generalizing t with
  | ind n ih =>
      have hrest : ∀ {u v : Text}, u ≠ [] → t = u ++ v →
          Segment.Replaces isSigil scope.replacement v (scope.interpolate v) := by
        rintro u v hu rfl
        have hpos := List.length_pos_iff.mpr hu
        rw [List.length_append] at hlength
        exact ih v.length (by omega) h.of_append rfl
      cases t with
      | nil =>
          rw [interpolate, substitute_nil, substitute_nil]
          exact .nil
      | cons c t =>
          have htail := hrest (List.cons_ne_nil c []) rfl
          cases hread : Segment.bracedPath? t with
          | none =>
              -- Nothing is a marker here: the same sigil is copied in one pass and in two.
              have hplain : ∀ path after, isSigil c = true → IsPath path →
                  c :: t ≠ (Segment.marker c path).print ++ after := by
                intro path after _ hpath heq
                rw [Segment.print_marker_append] at heq
                rw [(List.cons.inj heq).2, hpath.bracedPath? after] at hread
                cases hread
              have hcopied : scope.interpolate (c :: t) = c :: scope.interpolate t := by
                by_cases hbang : c = '!'
                · subst hbang
                  exact scope.interpolate_bang_of_none hread
                · by_cases hhash : c = '#'
                  · subst hhash
                    exact scope.interpolate_hash_of_none (h.bracedPath?_substitute hread)
                  · exact scope.interpolate_cons hbang hhash t
              rw [hcopied]
              exact .plain hplain htail
          | some found =>
              obtain ⟨path, after⟩ := found
              obtain ⟨hpath, rfl⟩ := Segment.bracedPath?_eq_some_iff.mp hread
              have hprint := Segment.print_marker_append c path after
              have hafter := hrest (u := (Segment.marker c path).print) (by simp [Segment.print])
                hprint.symm
              -- a path in braces is a marker only behind a sigil
              by_cases hbang : c = '!'
              · subst hbang
                have hvalue := h.value hpath (hprint.symm.trans (List.nil_append _).symm)
                rw [← hprint, scope.interpolate_bang hpath hvalue]
                exact .marker (by rfl) hpath hafter
              · by_cases hhash : c = '#'
                · subst hhash
                  rw [← hprint, scope.interpolate_hash hpath]
                  exact .marker (by rfl) hpath hafter
                · rw [scope.interpolate_cons hbang hhash]
                  refine .plain (fun _ _ hsigil _ _ => ?_) htail
                  simp [isSigil, hbang, hhash] at hsigil

/-- **Two passes are one.**  Let no value of a plain marker in the text hold a `#`, and let no
plain marker stand behind the open head of an escaped one.  Then the text is interpolated by
replacing each marker of it, from left to right, by the text of its value, which is escaped if the
sigil is `#`. -/
theorem replaces_iff_interpolate {scope : Scope} {t : Text}
    (hvalue : ∀ before path after, IsPath path →
      t = before ++ ((Segment.marker '!' path).print ++ after) → '#' ∉ scope.textAt path)
    (hfinished : ∀ before path after, IsPath path →
      t = before ++ ((Segment.marker '!' path).print ++ after) → ¬ Unfinished before)
    (out : Text) :
    Segment.Replaces isSigil scope.replacement t out ↔ scope.interpolate t = out := by
  have hreplaces : Segment.Replaces isSigil scope.replacement t (scope.interpolate t) :=
    Apart.replaces ⟨hvalue _ _ _, hfinished _ _ _⟩
  constructor
  · exact hreplaces.unique
  · rintro rfl
    exact hreplaces

/-- A check at every place of a text holds of the plain markers in it, with the text before each
and its path. -/
theorem check_of_marker {t : Text} (check : Text → Text → Bool)
    (h : ∀ n < t.length, (t.drop n).head? = some '!' →
      (Segment.bracedPath? (t.drop n).tail).all fun found => check (t.take n) found.1)
    {before path after : Text} (hpath : IsPath path)
    (ht : t = before ++ ((Segment.marker '!' path).print ++ after)) : check before path = true := by
  rw [Segment.print_marker_append] at ht
  have hdrop : t.drop before.length = '!' :: '{' :: (path ++ '}' :: after) := by
    rw [ht, List.drop_left]
  have hplace : before.length < t.length := by
    rw [ht, List.length_append, List.length_cons]
    omega
  have hcheck := h before.length hplace (by rw [hdrop]; rfl)
  rwa [hdrop, List.tail_cons, hpath.bracedPath? after, Option.all_some, ht, List.take_left]
    at hcheck

/-- Two plain markers in a row put braces behind an escaped marker, and the braces stay. -/
theorem replaces_of_braces_in_data :
    Segment.Replaces isSigil
      (Scope.ofData
        [("a".toList, .text "\x7bb\x7d".toList), ("b".toList, .text "<".toList)]).replacement
      "#\x7bb\x7d!\x7ba\x7d!\x7ba\x7d\x7bb\x7d".toList
      "&lt;\x7bb\x7d\x7bb\x7d\x7bb\x7d".toList := by
  refine (replaces_iff_interpolate (fun before path after hpath ht => ?_)
    (fun before path after hpath ht hopen => ?_) _).mpr (by decide +kernel)
  · have hvalue := check_of_marker (fun _ path => path = "a".toList) (by decide +kernel) hpath ht
    rw [of_decide_eq_true hvalue]
    decide +kernel
  · have hlast := check_of_marker (fun before _ => before.getLast? = some '}') (by decide +kernel)
      hpath ht
    obtain ⟨c, hc, hhead⟩ := hopen.getLast?
    obtain rfl := Option.some.inj (hc.symm.trans (of_decide_eq_true hlast))
    exact absurd hhead (by decide)

end Scope

end IndentHtml
