import IndentHtml.Proofs.Bytes
import IndentHtml.Template.Offsets

/-!
# Markers and includes by offsets

The scanners of markers and of include lines, run on offsets, give what the readers of characters
give, and so meet no fault.

The substitution goes through a text that gets shorter with each round.  At a sigil, a round goes on
behind the marker that starts there, and otherwise behind the sigil, which is a character of one
byte (`round_of_sigil`).
-/

namespace IndentHtml

namespace Segment

/-- A path in braces, read as a run of path characters. -/
theorem bracedPath?_brace (body : Text) :
    bracedPath? ('{' :: body) =
      if body.head?.any Text.isWordStart then
        if (body.dropWhile Text.isPathChar).head?.any (· = '}') then
          some (body.takeWhile Text.isPathChar, (body.dropWhile Text.isPathChar).tail)
        else none
      else none := by
  cases body with
  | nil => rfl
  | cons c body =>
      by_cases hc : Text.isWordStart c = true
      · have hpath : Text.isPathChar c = true := by
          simp only [Text.isPathChar, Text.isWordChar, Text.isWordStart, Bool.or_eq_true] at hc ⊢
          tauto
        rw [bracedPath?, if_pos hc, List.head?_cons, Option.any_some, if_pos hc,
          List.dropWhile_cons_of_pos hpath, List.takeWhile_cons_of_pos hpath]
        cases body.dropWhile Text.isPathChar with
        | nil => rfl
        | cons d rest =>
            by_cases hd : d = '}'
            · subst hd
              rfl
            · rw [List.head?_cons, Option.any_some, if_neg (by simpa using hd)]
              split
              · next h => exact absurd (List.cons.inj h).1 hd
              · rfl
      · rw [bracedPath?, if_neg hc, List.head?_cons, Option.any_some, if_neg hc]

theorem bracedPath?_of_after?_eq_none {t : Text} (h : Text.after? ['{'] t = none) :
    bracedPath? t = none := by
  cases t with
  | nil => rfl
  | cons c t =>
      by_cases hc : '{' = c
      · subst hc
        cases h
      · unfold bracedPath?
        split
        · next heq => exact absurd (List.cons.inj heq).1.symm hc
        · rfl

end Segment

namespace Offsets

open Text

variable {t u v : Text}

/-! ### Runs of bytes -/

/-- The spaces that are counted are a run of characters. -/
theorem countSpaces_bytes (t : Text) : countSpaces t.bytes = size (t.takeWhile isSpace) := by
  rw [countSpaces, ascii_isSpace.takeWhile_bytes]
  rfl

/-- The end of a name, counted from where it starts. -/
theorem nameEnd_append (u v : Text) :
    nameEnd (bytes (u ++ v)) u.size = .ok (size (u ++ v.takeWhile isNameChar)) := by
  rw [nameEnd, bytesFrom_append, ok_bind, ascii_isNameChar.takeWhile_bytes, size_append]
  rfl

/-! ### Markers -/

/-- The path of the marker that a text starts with, whatever its sigil of one byte is, and the size
of the marker. -/
def markerOf? : Text → Option (Text × Nat)
  | [] => none
  | sigil :: t =>
      if sigil.utf8Size = 1 then
        (Segment.bracedPath? t).map fun found => (found.1, found.1.size + 3)
      else none

theorem marker?_eq (t : Text) : marker? t = .ok (markerOf? t) := by
  cases t with
  | nil => rfl
  | cons sigil t =>
      by_cases hsize : sigil.utf8Size = 1
      · have hcut : cutAt? (sigil :: t) 1 = some ([sigil], t) :=
          cutAt?_eq_some_iff.2 ⟨rfl, by rw [size_cons, hsize]; rfl⟩
        rw [marker?, hcut, Option.bind_some, markerOf?, if_pos hsize]
        cases hbrace : after? ['{'] t with
        | none =>
            rw [Segment.bracedPath?_of_after?_eq_none hbrace]
            rfl
        | some body =>
            have ht : t = '{' :: body := eq_append_of_after? hbrace
            rw [ht, Segment.bracedPath?_brace]
            dsimp only
            rw [ascii_isWordStart.any_head?_bytes, ascii_isPathChar.takeWhile_bytes,
              length_bytes, getElem?_bytes_takeWhile, (ascii_eq (by decide)).any_head?_bytes,
              slice_takeWhile, ok_bind]
            split
            · split
              · rfl
              · rfl
            · rfl
      · have hcut : cutAt? (sigil :: t) 1 = none := by
          have hpos := sigil.utf8Size_pos
          rw [cutAt?, if_neg (by omega)]
        rw [marker?, hcut, markerOf?, if_neg hsize]
        rfl

/-! ### Substitution -/

variable {isSigil : Char → Bool} {resolve : Text → Text}

/-- What a sigil is replaced by, and where the replacement goes on. -/
def replacement (resolve : Text → Text) (sigil : Char) (t : Text) : Text × Text :=
  match Segment.bracedPath? t with
  | some (path, rest) => (resolve path, rest)
  | none => ([sigil], t)

/-- A marker is replaced by what its path is resolved to. -/
theorem replacement_of_some {t path rest : Text}
    (h : Segment.bracedPath? t = some (path, rest)) (c : Char) :
    replacement resolve c t = (resolve path, rest) := by
  rw [replacement, h]

/-- A sigil that starts no marker stands for itself. -/
theorem replacement_of_none {t : Text} (h : Segment.bracedPath? t = none) (c : Char) :
    replacement resolve c t = ([c], t) := by
  rw [replacement, h]

/-- What is left behind a marker is a part of the text. -/
theorem size_replacement_le (resolve : Text → Text) (c : Char) (t : Text) :
    (replacement resolve c t).2.size ≤ t.size := by
  cases h : Segment.bracedPath? t with
  | none => exact Nat.le_of_eq (congrArg (fun r => size r.2) (replacement_of_none h c))
  | some found =>
      have ht := congrArg size (Segment.eq_of_bracedPath? h)
      rw [size_cons, size_append, size_cons] at ht
      rw [replacement_of_some h]
      dsimp only
      omega

theorem substitute_sigil (resolve : Text → Text) {c : Char} (hc : isSigil c = true) (t : Text) :
    IndentHtml.substitute isSigil resolve (c :: t) =
      (replacement resolve c t).1 ++
        IndentHtml.substitute isSigil resolve (replacement resolve c t).2 := by
  rw [IndentHtml.substitute, Segment.cut, if_pos hc]
  split
  · next path rest h =>
      rw [replacement_of_some h]
      rfl
  · next h =>
      rw [replacement_of_none h]
      rfl

/-- Text without sigils is left as it is. -/
theorem substitute_append (resolve : Text → Text) {u : Text} (hu : ∀ c ∈ u, isSigil c = false)
    (v : Text) :
    IndentHtml.substitute isSigil resolve (u ++ v) =
      u ++ IndentHtml.substitute isSigil resolve v := by
  induction u with
  | nil => rfl
  | cons c u ih =>
      obtain ⟨hc, hu⟩ := List.forall_mem_cons.1 hu
      rw [List.cons_append, IndentHtml.substitute, Segment.cut, if_neg (hc ▸ Bool.false_ne_true),
        List.flatMap_cons]
      exact congrArg (c :: ·) (ih hu)

theorem substitute_nil : IndentHtml.substitute isSigil resolve [] = [] := by
  rw [IndentHtml.substitute, Segment.cut]
  rfl

/-- A text without an opening brace is left as it is. -/
theorem substitute_of_not_mem {isSigil : Char → Bool} (resolve : Text → Text) {t : Text}
    (h : '{' ∉ t) : IndentHtml.substitute isSigil resolve t = t := by
  induction t with
  | nil => exact substitute_nil
  | cons c t ih =>
      have ht : '{' ∉ t := fun hmem => h (List.mem_cons_of_mem c hmem)
      by_cases hc : isSigil c = true
      · have hnone : Segment.bracedPath? t = none := by
          refine Option.eq_none_iff_forall_ne_some.2 fun found hfound => ht ?_
          rw [Segment.eq_of_bracedPath? hfound]
          exact List.mem_cons_self
        rw [substitute_sigil resolve hc, replacement_of_none hnone]
        exact congrArg (c :: ·) (ih ht)
      · have hplain : ∀ d ∈ [c], isSigil d = false := by simpa using hc
        rw [← List.singleton_append, substitute_append resolve hplain, ih ht]

/-- A round at a sigil goes on with what is left of the replacement. -/
theorem round_of_sigil (hsigil : Ascii isSigil) {u : Text} {c : Char} {v : Text}
    (hc : isSigil c = true) (hoffset : offset? isSigil (u ++ c :: v) = some u.size)
    (written : Text) :
    Substitution.round isSigil resolve ⟨u ++ c :: v, written⟩ =
      .ok (.next ⟨(replacement resolve c v).2, written ++ u ++ (replacement resolve c v).1⟩) := by
  have hsize := hsigil c hc
  rw [Substitution.round, hoffset]
  dsimp only
  rw [slice_zero_append, ok_bind, sliceFrom_append, ok_bind, marker?_eq, markerOf?, if_pos hsize,
    ok_bind]
  cases hbraced : Segment.bracedPath? v with
  | none =>
      have hslice : slice (c :: v) 0 1 = .ok [c] :=
        slice_eq_ok_iff.2 ⟨[], v, rfl, rfl, by simp [hsize]⟩
      have hrest : sliceFrom (c :: v) 1 = .ok v := sliceFrom_append_cons hsize [] v
      rw [replacement_of_none hbraced, Option.map_none]
      dsimp only
      rw [hslice, ok_bind, hrest, ok_bind]
      rfl
  | some found =>
      obtain ⟨path, rest⟩ := found
      have hv := Segment.eq_of_bracedPath? hbraced
      have hrest : sliceFrom (c :: v) (path.size + 3) = .ok rest := by
        rw [hv]
        refine slice_eq_ok_iff.2 ⟨c :: '{' :: (path ++ ['}']), [], by simp, ?_, ?_⟩
        · have hopen : '{'.utf8Size = 1 := rfl
          have hclose : '}'.utf8Size = 1 := rfl
          simp only [size_cons, size_append, size_nil]
          omega
        · simp
      rw [replacement_of_some hbraced, Option.map_some]
      dsimp only
      rw [hrest, ok_bind]
      rfl

/-- The loop writes the replacements of the sigils that are left. -/
theorem loop_substitution (resolve : Text → Text) (hsigil : Ascii isSigil) (rest written : Text) :
    ∃ final : Substitution,
      Text.loop (fun s => s.rest.size) (Substitution.round isSigil resolve) ⟨rest, written⟩ =
        .ok final ∧
      final.written ++ final.rest =
        written ++ IndentHtml.substitute isSigil resolve rest := by
  induction hsize : rest.size using Nat.strongRecOn generalizing rest written with
  | ind n ih =>
      obtain ⟨hnone, hoffset⟩ | ⟨u, c, v, rfl, hu, hc, hoffset⟩ := offset?_cases isSigil rest
      · refine ⟨⟨rest, written⟩, loop_of_leave ?_, ?_⟩
        · rw [Substitution.round, hoffset]
          rfl
        · have hplain := substitute_append resolve hnone []
          rw [List.append_nil, substitute_nil, List.append_nil] at hplain
          rw [hplain]
      · have hleft : (replacement resolve c v).2.size < size (u ++ c :: v) := by
          have hpos := c.utf8Size_pos
          have hle := size_replacement_le resolve c v
          rw [size_append, size_cons]
          omega
        obtain ⟨final, hfinal, hwritten⟩ := ih _ (hsize ▸ hleft) (replacement resolve c v).2
          (written ++ u ++ (replacement resolve c v).1) rfl
        refine ⟨final, ?_, ?_⟩
        · rw [loop_of_next (round_of_sigil hsigil hc hoffset written) hleft, hfinal]
        · rw [hwritten, substitute_append resolve hu, substitute_sigil resolve hc]
          simp only [List.append_assoc]

theorem substitute_eq (hsigil : Ascii isSigil) (resolve : Text → Text) (t : Text) :
    substitute isSigil resolve t = .ok (IndentHtml.substitute isSigil resolve t) := by
  obtain ⟨final, hloop, hwritten⟩ := loop_substitution resolve hsigil t []
  rw [substitute, hloop, ok_bind, hwritten]
  rfl

/-- Interpolation in texts has no fault and gives what it gives on characters. -/
theorem interpolate_eq (scope : Scope) (t : Text) :
    interpolate scope t = .ok (scope.interpolate t) := by
  rw [interpolate, substitute_eq (ascii_eq (by decide)), ok_bind,
    substitute_eq (ascii_eq (by decide))]
  rfl

theorem interpolateAttribute_eq (scope : Scope) (t : Text) :
    interpolateAttribute scope t = .ok (scope.interpolateAttribute t) :=
  substitute_eq ((ascii_eq (by decide)).or (ascii_eq (by decide))) scope.textAt t

/-! ### Includes -/

/-- A text starts with a space when it is longer than what follows its run of spaces. -/
theorem afterSpaces?_eq (t : Text) :
    Directive.afterSpaces? t =
      if size (t.dropWhile isSpace) = t.size then none else some (t.dropWhile isSpace) := by
  cases t with
  | nil => rfl
  | cons c t =>
      rw [Directive.afterSpaces?]
      cases hc : isSpace c with
      | false =>
          rw [List.dropWhile_cons_of_neg (hc ▸ Bool.false_ne_true), if_pos rfl]
          rfl
      | true =>
          have hlt : size (t.dropWhile isSpace) < size (c :: t) := by
            have hpos := c.utf8Size_pos
            have hle := size_dropWhile_le isSpace t
            rw [size_cons]
            omega
          rw [List.dropWhile_cons_of_pos hc, if_neg (Nat.ne_of_lt hlt), if_pos rfl]

theorem quoted?_eq (t : Text) : quoted? t = .ok (Directive.quoted? t) := by
  cases t with
  | nil => rfl
  | cons quote body =>
      rw [quoted?, Directive.quoted?, List.head?_cons]
      by_cases hquote : (quote = '"' || quote = '\'') = true
      · have hsize : quote.utf8Size = 1 :=
          (ascii_eq (by decide)).or (ascii_eq (by decide)) quote hquote
        have hbody : sliceFrom (quote :: body) 1 = .ok body := sliceFrom_append_cons hsize [] body
        have hfilter : (some quote).filter (fun c => c = '"' || c = '\'') = some quote :=
          if_pos hquote
        rw [hfilter, if_pos hquote]
        dsimp only
        rw [hbody, ok_bind, offset?_eq_map_cut?]
        cases hcut : cut? quote body with
        | none => rfl
        | some found =>
            obtain ⟨inner, rest⟩ := found
            rw [eq_of_cut? hcut, Option.map_some]
            dsimp only
            rw [slice_zero_append, ok_bind, sliceFrom_append_cons hsize, ok_bind]
            rfl
      · have hfilter : (some quote).filter (fun c => c = '"' || c = '\'') = none :=
          if_neg hquote
        rw [hfilter, if_neg hquote]
        rfl

/-- An include line is scanned without a fault, to what the reader reads from it. -/
theorem include?_eq (line : Text) : include? line = .ok (Directive.include? line) := by
  rw [include?, Directive.include?]
  cases after? "@include".toList line with
  | none => rfl
  | some rest =>
      dsimp only
      rw [quoted?_eq, Option.bind_eq_bind, Option.bind_some, afterSpaces?_eq]
      split
      · rfl
      · rfl

end Offsets

end IndentHtml
