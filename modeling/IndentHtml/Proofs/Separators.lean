import Mathlib.Data.List.DropRight
import IndentHtml.Proofs.Offsets

/-!
# Attribute lists by offsets

The scanners of attribute lists, run on offsets, give what the readers of characters give, and so
meet no fault.

The reader of characters looks for a separator at every character, also in the middle of a run of
spaces, while the scanner takes a run at once.  Both come to the same tokens, since a run that
separates nothing does not do so from its middle either (`splitFirst_run`).  A state of the scanner
is a cut of the text into the tokens before, the part of a token that has been passed, and the rest
(`Splitting.Splits`).
-/

namespace IndentHtml

namespace AttributeList

open Text (isSpace)

variable {run w rest : Text}

/-! ### Separators -/

/-- A run of spaces and a comma, with the spaces after it. -/
theorem afterSeparator?_comma (hrun : ∀ c ∈ run, isSpace c = true) (rest : Text) :
    afterSeparator? (run ++ ',' :: rest) = some (rest.dropWhile isSpace) := by
  cases run with
  | nil => rw [List.nil_append, afterSeparator?, if_pos rfl]
  | cons c run =>
      obtain ⟨hc, hrun⟩ := List.forall_mem_cons.1 hrun
      have hne : c ≠ ',' := by
        rintro rfl
        cases hc
      rw [List.cons_append, afterSeparator?, if_neg hne, if_pos hc,
        List.dropWhile_append_of_pos hrun]
      rfl

/-- A run of spaces without a comma after it separates in front of an assignment only. -/
theorem afterSeparator?_run (hrun : ∀ c ∈ run, isSpace c = true) (hne : run ≠ [])
    (hspace : w.dropWhile isSpace = w) (hcomma : w.head? ≠ some ',') :
    afterSeparator? (run ++ w) = if startsAssignment w then some w else none := by
  obtain ⟨c, run, rfl⟩ := List.exists_cons_of_ne_nil hne
  obtain ⟨hc, hrun⟩ := List.forall_mem_cons.1 hrun
  have hother : c ≠ ',' := by
    rintro rfl
    cases hc
  rw [List.cons_append, afterSeparator?, if_neg hother, if_pos hc,
    List.dropWhile_append_of_pos hrun, hspace]
  split
  · exact absurd rfl hcomma
  · rfl

/-- A separator ends the first token. -/
theorem splitFirst_of_some {t rest : Text} (h : afterSeparator? t = some rest) :
    splitFirst t = ([], (splitFirst rest).1 :: (splitFirst rest).2) := by
  cases t with
  | nil => cases h
  | cons c t =>
      rw [splitFirst]
      split
      · next other hother =>
          obtain rfl : other = rest := Option.some.inj (hother.symm.trans h)
          rfl
      · next hnone => exact absurd (hnone.symm.trans h) (Option.some_ne_none _).symm

/-- A character that starts no separator goes to the first token. -/
theorem splitFirst_of_none {c : Char} {t : Text} (h : afterSeparator? (c :: t) = none) :
    splitFirst (c :: t) = (c :: (splitFirst t).1, (splitFirst t).2) := by
  rw [splitFirst]
  split
  · next other hother => exact absurd (hother.symm.trans h) (Option.some_ne_none _)
  · rfl

/-- Spaces that separate nothing are a part of the token. -/
theorem splitFirst_run (hrun : ∀ c ∈ run, isSpace c = true)
    (hspace : w.dropWhile isSpace = w) (hcomma : w.head? ≠ some ',')
    (hassign : startsAssignment w = false) :
    splitFirst (run ++ w) = (run ++ (splitFirst w).1, (splitFirst w).2) := by
  induction run with
  | nil => rfl
  | cons c run ih =>
      have hnone := afterSeparator?_run hrun (List.cons_ne_nil c run) hspace hcomma
      rw [hassign, if_neg Bool.false_ne_true] at hnone
      rw [List.cons_append] at hnone ⊢
      rw [splitFirst_of_none hnone, ih (List.forall_mem_cons.1 hrun).2]
      rfl

/-- A character that separates nothing is a part of the token. -/
theorem splitFirst_plain {c : Char} (hcomma : c ≠ ',') (hspace : isSpace c = false) (t : Text) :
    splitFirst (c :: t) = (c :: (splitFirst t).1, (splitFirst t).2) := by
  refine splitFirst_of_none ?_
  rw [afterSeparator?, if_neg hcomma, if_neg (hspace ▸ Bool.false_ne_true)]

end AttributeList

namespace Offsets

open Text

variable {t u v : Text}

/-! ### Attribute lists -/

theorem exists_cons_of_any_head? {x : Char} (h : t.head?.any (· = x) = true) :
    ∃ rest, t = x :: rest := by
  cases t with
  | nil => cases h
  | cons c rest => exact ⟨rest, by rw [of_decide_eq_true h]⟩

/-- Whether a name and an equals sign follow is told alike from the bytes. -/
theorem startsAssignment_bytes (t : Text) :
    startsAssignment t.bytes = .ok (AttributeList.startsAssignment t) := by
  have hname : nameEnd t.bytes 0 = .ok (size (t.takeWhile isNameChar)) := nameEnd_append [] t
  have hcount := getElem?_bytes_takeWhile isSpace (t.dropWhile isNameChar)
  rw [startsAssignment, hname, ok_bind, bytesFrom_takeWhile, ok_bind, countSpaces_bytes, hcount,
    (ascii_eq (by decide)).any_head?_bytes, AttributeList.startsAssignment]
  cases t.takeWhile isNameChar with
  | nil => rfl
  | cons c name =>
      have hpos := c.utf8Size_pos
      rw [if_neg (by rw [size_cons]; omega)]
      cases (t.dropWhile isNameChar).dropWhile isSpace with
      | nil => rfl
      | cons d rest =>
          by_cases hd : d = '='
          · subst hd
            rfl
          · refine congrArg Except.ok ?_
            rw [List.head?_cons, Option.any_some, decide_eq_false hd]
            split
            · next h => exact absurd (List.cons.inj h).1 hd
            · rfl

namespace Splitting

variable {start : Nat} {tokens : List Text}

/-- A round at a character that is no comma and no space moves on by it. -/
theorem loop_of_plain {c : Char} (hcomma : c ≠ ',') (hspace : isSpace c = false) (u v : Text) :
    Text.loop (fun s => size (u ++ c :: v) - s.cursor) (round (u ++ c :: v))
        ⟨u.size, start, tokens⟩ =
      Text.loop (fun s => size (u ++ c :: v) - s.cursor) (round (u ++ c :: v))
        ⟨size (u ++ [c]), start, tokens⟩ := by
  refine loop_character (fun i => Splitting.mk i start tokens) u c v (fun _ => rfl)
    fun i hlt b hb hbyte => ?_
  rw [round, if_pos hlt, hbyte, ok_bind, onByte_of_ne (by decide) hcomma hb,
    ascii_isSpace.onByte_eq hb, hspace]
  rfl

/-- A round at a comma or a space, with the run of spaces there and what follows the run.  The
cursor goes behind the separator, or behind the run when the spaces separate nothing. -/
theorem round_of_run {run w : Text} (hrun : ∀ c ∈ run, isSpace c = true)
    (hspace : w.dropWhile isSpace = w)
    (hcomma : run = [] → w.head?.any (· = ',') = true) (u : Text) (start : Nat)
    (tokens : List Text) :
    round (u ++ (run ++ w)) ⟨u.size, start, tokens⟩ =
      if w.head?.any (· = ',') then do
        let token ← slice (u ++ (run ++ w)) start u.size
        let next := size (u ++ run) + 1 + size (w.tail.takeWhile isSpace)
        return .next ⟨next, next, tokens ++ [token]⟩
      else if AttributeList.startsAssignment w then do
        let token ← slice (u ++ (run ++ w)) start u.size
        return .next ⟨size (u ++ run), size (u ++ run), tokens ++ [token]⟩
      else return .next ⟨size (u ++ run), start, tokens⟩ := by
  obtain ⟨c, v, hcons, hc⟩ : ∃ c v, run ++ w = c :: v ∧ (c = ',' || isSpace c) = true := by
    cases run with
    | nil =>
        obtain ⟨rest, rfl⟩ := exists_cons_of_any_head? (hcomma rfl)
        exact ⟨',', rest, rfl, rfl⟩
    | cons c run =>
        exact ⟨c, run ++ w, rfl, Bool.or_eq_true_iff.2 (.inr (hrun c List.mem_cons_self))⟩
  have hlt : u.size < size (u ++ (run ++ w)) := hcons ▸ size_lt_size_append_cons u c v
  obtain ⟨b, hb, hbyte⟩ := exists_byteAt u c v
  have htest : (!onByte (· = ',') b && !onByte isSpace b) = false := by
    have hor := (((ascii_eq (by decide)).or ascii_isSpace).onByte_eq hb).trans hc
    rw [← Bool.not_or, Bool.not_eq_false']
    exact hor
  have hstop : u.size + countSpaces (bytes (run ++ w)) = size (u ++ run) := by
    have hnone := List.takeWhile_append_dropWhile (p := isSpace) (l := w)
    rw [hspace, List.append_left_eq_self] at hnone
    rw [countSpaces_bytes, List.takeWhile_append_of_pos hrun, hnone, List.append_nil, size_append]
  rw [← hcons] at hbyte
  rw [round, if_pos hlt, hbyte, ok_bind, htest, if_neg Bool.false_ne_true, bytesFrom_append,
    ok_bind]
  dsimp only
  rw [hstop, ← List.append_assoc, getElem?_bytes_append, (ascii_eq (by decide)).any_head?_bytes]
  split
  · next hcomma =>
      obtain ⟨rest, rfl⟩ := exists_cons_of_any_head? hcomma
      rw [bytesFrom_append_cons rfl, ok_bind, countSpaces_bytes]
      rfl
  · rw [bytesFrom_append, ok_bind, startsAssignment_bytes, ok_bind]

/-- Behind some tokens and a part `q` of the next one, the loop ends with these tokens and the ones
that the rest `v` of the text is split into. -/
def Splits (t p q v : Text) (tokens : List Text) : Prop :=
  (Text.loop (fun s => t.size - s.cursor) (round t) ⟨size (p ++ q), p.size, tokens⟩ >>=
      fun s => do
        let last ← sliceFrom t s.start
        return s.tokens ++ [last]) =
    .ok (tokens ++ (q ++ (AttributeList.splitFirst v).1) :: (AttributeList.splitFirst v).2)

variable {p q p' q' v' : Text} {tokens' : List Text}

theorem splits_nil (ht : t = p ++ q) (tokens : List Text) : Splits t p q [] tokens := by
  subst ht
  have hleave : round (p ++ q) ⟨size (p ++ q), p.size, tokens⟩ =
      .ok (.leave ⟨size (p ++ q), p.size, tokens⟩) := by
    rw [round, if_neg (Nat.lt_irrefl _)]
    rfl
  rw [Splits, loop_of_leave hleave, ok_bind, sliceFrom_append, ok_bind, AttributeList.splitFirst,
    List.append_nil]
  rfl

/-- A character that starts no separator is scanned into the token. -/
theorem Splits.of_plain {c : Char} (h : Splits t p (q ++ [c]) v tokens)
    (ht : t = p ++ q ++ c :: v) (hcomma : c ≠ ',') (hspace : isSpace c = false) :
    Splits t p q (c :: v) tokens := by
  subst ht
  rw [Splits, ← List.append_assoc p, List.append_assoc q] at h
  rw [Splits, loop_of_plain hcomma hspace, AttributeList.splitFirst_plain hcomma hspace]
  exact h

/-- A round that comes to the end of a longer part is followed by the other ones. -/
theorem Splits.of_round (h : Splits t p' q' v' tokens') (ht : t = p' ++ q' ++ v')
    (hsize : size (p ++ q) < size (p' ++ q'))
    (hround : round t ⟨size (p ++ q), p.size, tokens⟩ =
      .ok (.next ⟨size (p' ++ q'), p'.size, tokens'⟩))
    (htokens : tokens' ++ (q' ++ (AttributeList.splitFirst v').1) ::
        (AttributeList.splitFirst v').2 =
      tokens ++ (q ++ (AttributeList.splitFirst v).1) :: (AttributeList.splitFirst v).2) :
    Splits t p q v tokens := by
  rw [Splits, htokens] at h
  rw [Splits, loop_of_next hround (size_sub_lt_size_sub ht hsize), h]

section Run

variable {run w rest : Text} (hrun : ∀ c ∈ run, isSpace c = true)

include hrun

/-- A comma ends the token, with the spaces around it. -/
theorem Splits.of_comma
    (h : Splits t (p ++ q ++ run ++ ',' :: rest.takeWhile isSpace) [] (rest.dropWhile isSpace)
      (tokens ++ [q]))
    (ht : t = p ++ q ++ (run ++ ',' :: rest)) : Splits t p q (run ++ ',' :: rest) tokens := by
  have hpart : t = p ++ q ++ run ++ ',' :: rest.takeWhile isSpace ++ [] ++
      rest.dropWhile isSpace := by
    simp [ht]
  refine h.of_round hpart ?size ?round ?tokens
  case size =>
    have hpos := ','.utf8Size_pos
    simp only [size_append, size_cons, size_nil]
    omega
  case round =>
    have hround := round_of_run (w := ',' :: rest) hrun rfl (fun _ => rfl) (p ++ q) p.size tokens
    have hq := slice_append p q (run ++ ',' :: rest)
    have hnext : size (p ++ q ++ run) + 1 + size (rest.takeWhile isSpace) =
        size (p ++ q ++ run ++ ',' :: rest.takeWhile isSpace) := by
      have hone : ','.utf8Size = 1 := rfl
      rw [size_append (p ++ q ++ run), size_cons, hone, Nat.add_assoc]
    rw [← ht] at hround hq
    rw [hround, hq, ok_bind, List.append_nil, ← hnext]
    rfl
  case tokens =>
    rw [AttributeList.splitFirst_of_some (AttributeList.afterSeparator?_comma hrun rest)]
    simp

variable (hspace : w.dropWhile isSpace = w) (hcomma : w.head? ≠ some ',') (hne : run ≠ [])

include hspace hcomma hne

/-- A round at spaces that no comma follows. -/
theorem round_of_spaces (ht : t = p ++ q ++ (run ++ w)) (tokens : List Text) :
    round t ⟨size (p ++ q), p.size, tokens⟩ =
      if AttributeList.startsAssignment w then
        .ok (.next ⟨size (p ++ q ++ run), size (p ++ q ++ run), tokens ++ [q]⟩)
      else .ok (.next ⟨size (p ++ q ++ run), p.size, tokens⟩) := by
  have hround := round_of_run hrun hspace (absurd · hne) (p ++ q) p.size tokens
  have hq := slice_append p q (run ++ w)
  have hother : ¬ w.head?.any (· = ',') = true := by
    intro h
    obtain ⟨rest, rfl⟩ := exists_cons_of_any_head? h
    exact hcomma rfl
  rw [← ht] at hround hq
  rw [hround, if_neg hother, hq]
  rfl

/-- Spaces before an assignment end the token. -/
theorem Splits.of_assignment (hassign : AttributeList.startsAssignment w = true)
    (h : Splits t (p ++ q ++ run) [] w (tokens ++ [q])) (ht : t = p ++ q ++ (run ++ w)) :
    Splits t p q (run ++ w) tokens := by
  have hround := round_of_spaces hrun hspace hcomma hne ht tokens
  have hsep := AttributeList.afterSeparator?_run hrun hne hspace hcomma
  rw [if_pos hassign] at hround hsep
  refine h.of_round ?part ?size ?round ?tokens
  case part => simp [ht]
  case size =>
    have hpos := size_pos hne
    rw [List.append_nil, size_append (p ++ q)]
    omega
  case round => rw [hround, List.append_nil]
  case tokens =>
    rw [AttributeList.splitFirst_of_some hsep]
    simp

/-- Other spaces are scanned into the token. -/
theorem Splits.of_spaces (hassign : AttributeList.startsAssignment w = false)
    (h : Splits t p (q ++ run) w tokens) (ht : t = p ++ q ++ (run ++ w)) :
    Splits t p q (run ++ w) tokens := by
  have hround := round_of_spaces hrun hspace hcomma hne ht tokens
  rw [if_neg (hassign ▸ Bool.false_ne_true)] at hround
  refine h.of_round ?part ?size ?round ?tokens
  case part => simp [ht]
  case size =>
    have hpos := size_pos hne
    rw [← List.append_assoc, size_append (p ++ q)]
    omega
  case round => rw [hround, List.append_assoc]
  case tokens =>
    rw [AttributeList.splitFirst_run hrun hspace hcomma hassign]
    simp

end Run

/-- From a cursor behind the tokens and a part of the next one, the loop reads the tokens that the
rest of the text is split into. -/
theorem splits (ht : t = p ++ q ++ v) (tokens : List Text) : Splits t p q v tokens := by
  induction hlength : v.length using Nat.strongRecOn generalizing p q v tokens with
  | ind n ih =>
      subst hlength
      cases v with
      | nil => exact splits_nil (by rw [ht, List.append_nil]) tokens
      | cons c v =>
          cases hc : isSpace c with
          | false =>
              by_cases hcomma : c = ','
              · subst hcomma
                have hrun : ∀ d ∈ ([] : Text), isSpace d = true :=
                  fun _ h => absurd h List.not_mem_nil
                have hlt : (v.dropWhile isSpace).length < (',' :: v).length :=
                  Nat.lt_succ_of_le (List.dropWhile_sublist isSpace).length_le
                exact Splits.of_comma hrun (ih _ hlt (by simp [ht]) _ rfl) ht
              · exact (ih _ (Nat.lt_succ_self _) (by simp [ht]) tokens rfl).of_plain ht hcomma hc
          | true =>
              have hrun : ∀ d ∈ c :: v.takeWhile isSpace, isSpace d = true :=
                List.forall_mem_cons.2 ⟨hc, fun d hd => List.mem_takeWhile_imp hd⟩
              have hspace := List.dropWhile_idempotent isSpace v
              have hlt : (v.dropWhile isSpace).length < (c :: v).length :=
                Nat.lt_succ_of_le (List.dropWhile_sublist isSpace).length_le
              have hv : c :: v = c :: v.takeWhile isSpace ++ v.dropWhile isSpace :=
                congrArg (c :: ·) List.takeWhile_append_dropWhile.symm
              have hne := List.cons_ne_nil c (v.takeWhile isSpace)
              generalize c :: v.takeWhile isSpace = run at *
              generalize v.dropWhile isSpace = w at *
              rw [hv] at ht ⊢
              by_cases hcomma : w.head? = some ','
              · obtain ⟨rest, rfl⟩ := List.head?_eq_some_iff.1 hcomma
                have hlt := Nat.lt_of_le_of_lt (List.dropWhile_sublist isSpace).length_le
                  (Nat.lt_of_succ_lt hlt)
                exact Splits.of_comma hrun (ih _ hlt (by simp [ht]) _ rfl) ht
              · have hrest := fun p q hpq tokens => ih _ hlt (p := p) (q := q) hpq tokens rfl
                cases hassign : AttributeList.startsAssignment w with
                | true =>
                    exact Splits.of_assignment hrun hspace hcomma hne hassign
                      (hrest _ _ (by simp [ht]) _) ht
                | false =>
                    exact Splits.of_spaces hrun hspace hcomma hne hassign
                      (hrest _ _ (by simp [ht]) _) ht

end Splitting

/-- **A list is scanned** without a fault, to the tokens that it is split into. -/
theorem tokens_eq (t : Text) : tokens t = .ok (AttributeList.tokens t) :=
  Splitting.splits (p := []) (q := []) rfl []

/-! ### Attributes -/

/-- Between its first and its last byte, a text with one quote at both ends has what the quotes
enclose; a lone quote encloses nothing. -/
theorem slice_between {quote : Char} (hquote : quote.utf8Size = 1) {rest : Text}
    (hlast : (quote :: rest).getLast? = some quote) :
    (if size (quote :: rest) < 2 then return []
      else do
        let stop ← decrement (size (quote :: rest))
        slice (quote :: rest) 1 stop) = Except.ok rest.dropLast := by
  obtain rfl | ⟨inner, last, rfl⟩ := List.eq_nil_or_concat rest
  · rw [if_pos (by simp [hquote])]
    rfl
  · rw [List.concat_eq_append] at hlast ⊢
    rw [← List.cons_append, List.getLast?_concat] at hlast
    obtain rfl := Option.some.inj hlast
    have hslice := slice_append [last] inner [last]
    have hsize : size (last :: (inner ++ [last])) = size ([last] ++ inner) + 1 := by
      simp [hquote, Nat.add_assoc]
    have hone : size [last] = 1 := by simp [hquote]
    have hlarge : ¬ size ([last] ++ inner) + 1 < 2 := by
      rw [size_append, hone]
      omega
    rw [hone] at hslice
    rw [hsize, if_neg hlarge, decrement, ok_bind, List.dropLast_concat]
    exact hslice

theorem unquote_eq (t : Text) : unquote t = .ok (AttributeList.unquote t) := by
  rw [unquote]
  fun_cases AttributeList.unquote t with
  | case1 rest hlast =>
      rw [if_pos (.inl ⟨rfl, hlast⟩), if_pos hlast]
      exact slice_between rfl hlast
  | case2 rest hlast =>
      have hhead : ('"' :: rest).head? ≠ some '\'' := fun h => by cases h
      rw [if_neg (not_or.2 ⟨fun h => hlast h.2, fun h => hhead h.1⟩), if_neg hlast]
      rfl
  | case3 rest hlast =>
      rw [if_pos (.inr ⟨rfl, hlast⟩), if_pos hlast]
      exact slice_between rfl hlast
  | case4 rest hlast =>
      have hhead : ('\'' :: rest).head? ≠ some '"' := fun h => by cases h
      rw [if_neg (not_or.2 ⟨fun h => hhead h.1, fun h => hlast h.2⟩), if_neg hlast]
      rfl
  | case5 _ hdouble hsingle =>
      rw [if_neg (not_or.2 ⟨fun h => ?_, fun h => ?_⟩)]
      · rfl
      · obtain ⟨rest, ht⟩ := List.head?_eq_some_iff.1 h.1
        exact hdouble rest ht
      · obtain ⟨rest, ht⟩ := List.head?_eq_some_iff.1 h.1
        exact hsingle rest ht

/-- The written form of an attribute, without the space that precedes it. -/
def written (a : Html.Attribute) : Text :=
  a.print.tail

theorem attribute?_eq (scope : Scope) (token : Text) :
    attribute? scope token =
      .ok ((AttributeList.attribute? token).map fun a => written (scope.resolve a)) := by
  rw [attribute?, AttributeList.attribute?]
  dsimp only
  cases hcut : cut? '=' (trim token) with
  | none =>
      cases htoken : trim token with
      | nil => rfl
      | cons c rest =>
          dsimp only
          rw [if_neg (by simp)]
          split
          · rfl
          · rfl
  | some found =>
      obtain ⟨key, value⟩ := found
      have htoken : ¬ (trim token).isEmpty = true := by
        rw [eq_of_cut? hcut]
        simp
      dsimp only
      rw [if_neg htoken, unquote_eq, ok_bind, interpolateAttribute_eq, ok_bind]
      split
      · rfl
      · rfl

theorem print_eq_cons (a : Html.Attribute) : a.print = ' ' :: written a := by
  obtain ⟨name, value⟩ := a
  cases value <;> rfl

/-- Texts with a space before each, one after the other. -/
theorem spaced_eq (ts : List Text) : spaced ts = ts.flatMap (' ' :: ·) := by
  rw [spaced]
  cases ts with
  | nil => rfl
  | cons t ts =>
      rw [if_neg (by simp)]
      induction ts generalizing t with
      | nil => simp
      | cons u ts ih =>
          rw [List.intercalate_cons_cons, List.flatMap_cons, ← ih u]
          simp

theorem printAll_eq (as : List Html.Attribute) :
    Html.Attribute.printAll as = spaced (as.map written) := by
  rw [spaced_eq, List.flatMap_map, Html.Attribute.printAll]
  exact List.flatMap_congr fun a _ => print_eq_cons a

theorem attributes_eq (scope : Scope) (list : Text) :
    attributes scope list =
      .ok ((AttributeList.attributes list).map fun a => written (scope.resolve a)) := by
  rw [attributes]
  cases list with
  | nil =>
      rw [AttributeList.attributes, AttributeList.tokens, AttributeList.splitFirst]
      rfl
  | cons c rest =>
      have hall : attribute? scope = fun token => pure
          ((AttributeList.attribute? token).map fun a => written (scope.resolve a)) :=
        funext (attribute?_eq scope)
      rw [if_neg (by simp), tokens_eq, ok_bind, hall, List.mapM_pure, AttributeList.attributes,
        List.map_filterMap, List.filterMap_eq_flatMap_toList, pure_eq_ok, ok_bind, List.flatMap_map]
      rfl

end Offsets

end IndentHtml
