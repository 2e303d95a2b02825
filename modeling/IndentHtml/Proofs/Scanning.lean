import IndentHtml.Proofs.Confinement
import IndentHtml.Proofs.Separators

/-!
# Elements by offsets

The scanners of a template line, run on offsets, meet no fault.

**Scanning by offsets** (`scan_without_fault`).  Every reader of a line gives, run on the offsets of
any text, what the reader of characters gives.  So no byte is looked at beyond the end, no slice
starts or ends inside a character, no count falls below zero, and every round of a loop moves its
cursor forward.

The cursor goes from part to part of the line, and each part is as long as what the reader of
characters takes (`tag_eq`, `selectors_eq`, `parenthesised_eq`).  In the parentheses it also stops
inside characters.  The depth is one more than the number of inner pairs that are open, so that it
is not zero at a closing parenthesis (`Closing.round_close`).
-/

namespace IndentHtml

namespace Offsets

open Text

variable {t u v line : Text}

/-! ### Tags -/

/-- The tag ends where the reader of characters goes on. -/
theorem tag_eq (line : Text) :
    ∃ before, line = before ++ (Element.readTag line).2 ∧
      tag line = .ok (before.size, (Element.readTag line).1) := by
  have hname : nameEnd line.bytes 0 = .ok (size (line.takeWhile isNameChar)) :=
    nameEnd_append [] line
  rw [tag, ascii_isLetter.any_head?_bytes]
  cases line with
  | nil => exact ⟨[], rfl, rfl⟩
  | cons c t =>
      rw [Element.readTag, List.head?_cons, Option.any_some]
      by_cases hc : isLetter c = true
      · refine ⟨(c :: t).takeWhile isNameChar, ?_, ?_⟩
        · rw [if_pos hc, List.takeWhile_append_dropWhile]
        · rw [if_pos hc, if_pos hc, hname, ok_bind, slice_takeWhile, ok_bind]
          rfl
      · refine ⟨[], ?_, ?_⟩
        · rw [if_neg hc]
          rfl
        · rw [if_neg hc, if_neg hc]
          rfl

/-! ### Selectors -/

namespace Selecting

/-- The name behind a selector's mark ends where its characters do. -/
theorem nameEnd_append_cons {c : Char} (hc : c.utf8Size = 1) (u v : Text) :
    nameEnd (bytes (u ++ c :: v)) (u.size + 1) =
      .ok (size (u ++ c :: v.takeWhile isNameChar)) := by
  have h := nameEnd_append (u ++ [c]) v
  rwa [size_concat hc, List.append_assoc, List.append_assoc] at h

theorem slice_name {c : Char} (hc : c.utf8Size = 1) (u v : Text) :
    slice (u ++ c :: v) (u.size + 1) (size (u ++ c :: v.takeWhile isNameChar)) =
      .ok (v.takeWhile isNameChar) := by
  refine slice_eq_ok_iff.2 ⟨u ++ [c], v.dropWhile isNameChar, ?_, (size_concat hc u).symm, ?_⟩
  · rw [List.append_assoc, List.takeWhile_append_dropWhile, List.append_assoc,
      List.singleton_append]
  · rw [List.append_assoc, List.singleton_append]

/-- A round at `#` takes the name behind it as the `id`. -/
theorem round_id (hline : line = u ++ '#' :: v) (id : Text) (classes : List Text) :
    round line ⟨u.size, id, classes⟩ =
      .ok (.next ⟨size (u ++ '#' :: v.takeWhile isNameChar), v.takeWhile isNameChar, classes⟩) := by
  subst hline
  obtain ⟨b, hb, hbyte⟩ := exists_byteAt u '#' v
  have hid : onByte (· = '#') b = true := (ascii_eq (by decide)).onByte_eq hb
  rw [round, if_pos (size_lt_size_append_cons u '#' v), hbyte, ok_bind, if_pos hid,
    nameEnd_append_cons rfl, ok_bind, slice_name rfl]
  rfl

/-- A round at `.` adds the name behind it to the classes, unless it is empty. -/
theorem round_className (hline : line = u ++ '.' :: v) (id : Text) (classes : List Text) :
    round line ⟨u.size, id, classes⟩ =
      .ok (.next ⟨size (u ++ '.' :: v.takeWhile isNameChar), id,
        classes ++ Selector.classNames [.className (v.takeWhile isNameChar)]⟩) := by
  subst hline
  obtain ⟨b, hb, hbyte⟩ := exists_byteAt u '.' v
  have hid : onByte (· = '#') b = false := (ascii_eq (by decide)).onByte_eq hb
  have hclass : onByte (· = '.') b = true := (ascii_eq (by decide)).onByte_eq hb
  have hsize : size (u ++ '.' :: v.takeWhile isNameChar) =
      u.size + 1 + size (v.takeWhile isNameChar) := by
    rw [size_append, size_cons, Nat.add_assoc]
    rfl
  rw [round, if_pos (size_lt_size_append_cons u '.' v), hbyte, ok_bind,
    if_neg (hid ▸ Bool.false_ne_true), if_pos hclass, nameEnd_append_cons rfl, ok_bind]
  dsimp only
  cases hname : v.takeWhile isNameChar with
  | nil =>
      rw [hname, size_nil] at hsize
      have hnone : Selector.classNames [.className []] = [] := rfl
      rw [if_neg (by omega), hnone, List.append_nil]
      rfl
  | cons c name =>
      have hpos := size_pos (List.cons_ne_nil c name)
      rw [hname] at hsize
      have hslice := slice_name (c := '.') rfl u v
      rw [hname] at hslice
      rw [if_pos (by omega), hslice]
      rfl

/-- A round at any other character leaves the loop. -/
theorem round_other {c : Char} (hid : c ≠ '#') (hclass : c ≠ '.') (hline : line = u ++ c :: v)
    (id : Text) (classes : List Text) :
    round line ⟨u.size, id, classes⟩ = .ok (.leave ⟨u.size, id, classes⟩) := by
  subst hline
  obtain ⟨b, hb, hbyte⟩ := exists_byteAt u c v
  rw [round, if_pos (size_lt_size_append_cons u c v), hbyte, ok_bind,
    onByte_of_ne (by decide) hid hb, onByte_of_ne (by decide) hclass hb]
  rfl

/-- Behind `u` and after an id and some classes, the loop reads the selectors that `v` starts
with. -/
def Reads (line u v id : Text) (classes : List Text) : Prop :=
  ∃ w, v = w ++ (Selector.readAll v).2 ∧
    Text.loop (fun s => line.size - s.cursor) (round line) ⟨u.size, id, classes⟩ =
      .ok ⟨size (u ++ w), Selector.lastId (.id id :: (Selector.readAll v).1),
        classes ++ Selector.classNames (Selector.readAll v).1⟩

theorem reads_of_leave {id : Text} {classes : List Text} (hread : Selector.readAll v = ([], v))
    (hround : round line ⟨u.size, id, classes⟩ = .ok (.leave ⟨u.size, id, classes⟩)) :
    Reads line u v id classes := by
  refine ⟨[], by rw [hread]; rfl, ?_⟩
  rw [loop_of_leave hround, hread]
  simp [Selector.lastId, Selector.classNames]

/-- A round that reads a selector is followed by the other ones. -/
theorem Reads.of_next {c : Char} {id id' : Text} {classes classes' : List Text}
    {selector : Selector}
    (h : Reads line (u ++ c :: t.takeWhile isNameChar) (t.dropWhile isNameChar) id' classes')
    (hline : line = u ++ c :: t)
    (hround : round line ⟨u.size, id, classes⟩ =
      .ok (.next ⟨size (u ++ c :: t.takeWhile isNameChar), id', classes'⟩))
    (hread : Selector.readAll (c :: t) =
      (selector :: (Selector.readAll (t.dropWhile isNameChar)).1,
        (Selector.readAll (t.dropWhile isNameChar)).2))
    (hid : id' = Selector.lastId [.id id, selector])
    (hclasses : classes' = classes ++ Selector.classNames [selector]) :
    Reads line u (c :: t) id classes := by
  subst hid hclasses
  have hrest : line = u ++ c :: t.takeWhile isNameChar ++ t.dropWhile isNameChar := by
    simp [hline]
  obtain ⟨w, hw, hloop⟩ := h
  refine ⟨c :: t.takeWhile isNameChar ++ w, ?_, ?_⟩
  · rw [hread]
    dsimp only
    rw [List.append_assoc, ← hw, List.cons_append, List.takeWhile_append_dropWhile]
  · rw [loop_of_next hround (size_sub_lt_size_sub hrest (size_lt_size_append_cons _ _ _)), hloop,
      hread, List.append_assoc, List.append_assoc, Selector.classNames, Selector.classNames,
      ← List.filterMap_append]
    rfl

/-- **The rounds read the selectors** that the reader of characters reads. -/
theorem reads (hline : line = u ++ v) (id : Text) (classes : List Text) :
    Reads line u v id classes := by
  induction v using Selector.readAll.induct generalizing u id classes with
  | case1 =>
      refine reads_of_leave (by rw [Selector.readAll]) ?_
      rw [round, hline, List.append_nil, if_neg (Nat.lt_irrefl _)]
      rfl
  | case2 t ih =>
      have hread : Selector.readAll ('#' :: t) =
          (.id (t.takeWhile isNameChar) :: (Selector.readAll (t.dropWhile isNameChar)).1,
            (Selector.readAll (t.dropWhile isNameChar)).2) := by
        rw [Selector.readAll, if_pos rfl]
      exact (ih (by simp [hline]) _ _).of_next hline (round_id hline id classes) hread rfl
        (List.append_nil classes).symm
  | case3 t hid ih =>
      have hread : Selector.readAll ('.' :: t) =
          (.className (t.takeWhile isNameChar) :: (Selector.readAll (t.dropWhile isNameChar)).1,
            (Selector.readAll (t.dropWhile isNameChar)).2) := by
        rw [Selector.readAll, if_neg hid, if_pos rfl]
      exact (ih (by simp [hline]) _ _).of_next hline (round_className hline id classes) hread rfl
        rfl
  | case4 c t hid hclass =>
      refine reads_of_leave ?_ (round_other hid hclass hline id classes)
      rw [Selector.readAll, if_neg hid, if_neg hclass]

end Selecting

/-- The selectors are scanned without a fault, up to where the reader stops. -/
theorem selectors_eq (hline : line = u ++ v) :
    ∃ w, v = w ++ (Selector.readAll v).2 ∧
      selectors line u.size =
        .ok ⟨size (u ++ w), Selector.lastId (Selector.readAll v).1,
          Selector.classNames (Selector.readAll v).1⟩ :=
  Selecting.reads hline [] []

/-! ### Parentheses -/

namespace Closing

/-- What a search in the text behind `before` ends with, where `found` is what the search among
characters finds. -/
def Ends (line before : Text) (found : Option (Text × Text)) (s : Closing) : Prop :=
  match found with
  | some (inner, _) =>
      s.cursor = size (before ++ inner) + 1 ∧ s.close = some (size (before ++ inner))
  | none => s.cursor = line.size ∧ s.close = none

/-- What is found behind a character is found with the character in front of it. -/
theorem Ends.cons {c : Char} {found : Option (Text × Text)} {s : Closing}
    (h : Ends line (u ++ [c]) found s) :
    Ends line u (found.map fun p => (c :: p.1, p.2)) s := by
  cases found with
  | none => exact h
  | some p =>
      rw [Ends, List.append_assoc] at h
      exact h

/-- A round at a parenthesis that opens goes one deeper. -/
theorem round_open (hline : line = u ++ '(' :: v) (depth : Nat) :
    round line ⟨u.size, depth, none⟩ = .ok (.next ⟨size (u ++ ['(']), depth + 1, none⟩) := by
  subst hline
  obtain ⟨b, hb, hbyte⟩ := exists_byteAt u '(' v
  have hopen : onByte (· = '(') b = true := (ascii_eq (by decide)).onByte_eq hb
  rw [round, if_pos (size_lt_size_append_cons u '(' v), hbyte, ok_bind, if_pos hopen,
    size_concat rfl]
  rfl

/-- The depth is not zero at a closing parenthesis, so that it can be decremented. -/
theorem round_close (hline : line = u ++ ')' :: v) (depth : Nat) :
    round line ⟨u.size, depth + 1, none⟩ =
      if depth = 0 then .ok (.leave ⟨u.size + 1, 0, some u.size⟩)
      else .ok (.next ⟨size (u ++ [')']), depth, none⟩) := by
  subst hline
  obtain ⟨b, hb, hbyte⟩ := exists_byteAt u ')' v
  have hopen : onByte (· = '(') b = false := (ascii_eq (by decide)).onByte_eq hb
  have hclose : onByte (· = ')') b = true := (ascii_eq (by decide)).onByte_eq hb
  rw [round, if_pos (size_lt_size_append_cons u ')' v), hbyte, ok_bind,
    if_neg (hopen ▸ Bool.false_ne_true), if_pos hclose, decrement, ok_bind, size_concat rfl]
  split
  · next hdepth => rw [hdepth]; rfl
  · rfl

/-- A round at any other character moves on by it. -/
theorem loop_of_plain {c : Char} (hopen : c ≠ '(') (hclose : c ≠ ')') (hline : line = u ++ c :: v)
    (depth : Nat) :
    Text.loop (fun s => line.size - s.cursor) (round line) ⟨u.size, depth, none⟩ =
      Text.loop (fun s => line.size - s.cursor) (round line) ⟨size (u ++ [c]), depth, none⟩ := by
  subst hline
  refine loop_character (fun i => Closing.mk i depth none) u c v (fun _ => rfl)
    fun i hlt b hb hbyte => ?_
  rw [round, if_pos hlt, hbyte, ok_bind, onByte_of_ne (by decide) hopen hb,
    onByte_of_ne (by decide) hclose hb]
  rfl

/-- Behind `u` and in one pair of parentheses more than `depth`, the loop finds what the search
among the characters of `v` finds. -/
def Finds (line u v : Text) (depth : Nat) : Prop :=
  ∃ s, Text.loop (fun s => line.size - s.cursor) (round line) ⟨u.size, depth + 1, none⟩ = .ok s ∧
    Ends line u (Element.closing? depth v) s

theorem finds_nil (hline : line = u) (depth : Nat) : Finds line u [] depth := by
  subst hline
  have hleave : round line ⟨line.size, depth + 1, none⟩ =
      .ok (.leave ⟨line.size, depth + 1, none⟩) := by
    rw [round, if_neg (Nat.lt_irrefl _)]
    rfl
  exact ⟨_, loop_of_leave hleave, rfl, rfl⟩

/-- A character that is not the closing one is followed by the other ones. -/
theorem Finds.cons {c : Char} {depth later : Nat} (h : Finds line (u ++ [c]) t later)
    (hloop : Text.loop (fun s => line.size - s.cursor) (round line) ⟨u.size, depth + 1, none⟩ =
      Text.loop (fun s => line.size - s.cursor) (round line) ⟨size (u ++ [c]), later + 1, none⟩)
    (hclosing : Element.closing? depth (c :: t) =
      (Element.closing? later t).map fun p => (c :: p.1, p.2)) : Finds line u (c :: t) depth := by
  obtain ⟨s, hs, hends⟩ := h
  exact ⟨s, hloop.trans hs, hclosing ▸ hends.cons⟩

/-- **The rounds find the closing parenthesis** that the reader of characters finds. -/
theorem finds (hline : line = u ++ v) (depth : Nat) : Finds line u v depth := by
  induction v generalizing u depth with
  | nil => exact finds_nil (hline.trans (List.append_nil u)) depth
  | cons c t ih =>
      have hmore : line = u ++ [c] ++ t := by rw [hline, List.append_assoc, List.singleton_append]
      have hleft := size_sub_lt_size_sub hmore (size_lt_size_append_cons u c [])
      by_cases hopen : c = '('
      · subst hopen
        refine (ih hmore (depth + 1)).cons (loop_of_next (round_open hline _) hleft) ?_
        rw [Element.closing?.eq_def]
        rfl
      · by_cases hclose : c = ')'
        · subst hclose
          have hround := round_close hline depth
          cases depth with
          | zero =>
              refine ⟨_, loop_of_leave hround, ?_⟩
              rw [Element.closing?, if_neg hopen, if_pos rfl, Ends]
              simp
          | succ depth =>
              refine (ih hmore depth).cons (loop_of_next hround hleft) ?_
              rw [Element.closing?, if_neg hopen, if_pos rfl]
        · refine (ih hmore depth).cons (loop_of_plain hopen hclose hline _) ?_
          rw [Element.closing?.eq_def]
          dsimp only
          rw [if_neg hopen, if_neg hclose]

end Closing

theorem dropLast_eq (t : Text) : dropLast t = .ok t.dropLast := by
  rw [dropLast]
  obtain rfl | ⟨init, c, rfl⟩ := List.eq_nil_or_concat t
  · rfl
  · have hsize : size (init ++ [c]) - c.utf8Size = size init := by simp
    rw [List.concat_eq_append, List.getLast?_concat]
    dsimp only
    rw [hsize, slice_zero_append, List.dropLast_concat]

/-- Behind an opening parenthesis, the end of the list is cut off as the search among characters
does it. -/
theorem parenthesised_open {rest : Text} (hline : line = u ++ '(' :: rest) :
    ∃ w, '(' :: rest = w ++ (Element.readParenthesised ('(' :: rest)).2 ∧
      parenthesised line u.size =
        .ok (size (u ++ w), (Element.readParenthesised ('(' :: rest)).1) := by
  have hhead : line.bytes[u.size]?.any (onByte (· = '(')) = true := by
    rw [hline, getElem?_bytes_append, (ascii_eq (by decide)).any_head?_bytes]
    rfl
  have hmore : line = u ++ ['('] ++ rest := by
    rw [hline, List.append_assoc, List.singleton_append]
  have hleft := size_sub_lt_size_sub hmore (size_lt_size_append_cons u '(' [])
  obtain ⟨s, hloop, hends⟩ := Closing.finds hmore 0
  rw [parenthesised, if_pos hhead, loop_of_next (Closing.round_open hline 0) hleft, hloop, ok_bind,
    Element.readParenthesised]
  cases hclosing : Element.closing? 0 rest with
  | none =>
      rw [hclosing, Closing.Ends] at hends
      refine ⟨'(' :: rest, (List.append_nil _).symm, ?_⟩
      rw [hends.2]
      dsimp only
      rw [hends.1, hline, sliceFrom_append_cons rfl, ok_bind, dropLast_eq, ok_bind]
      rfl
  | some found =>
      obtain ⟨inner, after⟩ := found
      rw [hclosing, Closing.Ends] at hends
      have hrest := Element.eq_of_closing? hclosing
      have hslice : slice line (u.size + 1) (size (u ++ ['('] ++ inner)) = .ok inner := by
        refine slice_eq_ok_iff.2 ⟨u ++ ['('], ')' :: after, ?_, (size_concat rfl u).symm, rfl⟩
        rw [hmore, hrest, List.append_assoc _ inner]
      have hend : size (u ++ ['('] ++ inner) + 1 = size (u ++ '(' :: (inner ++ [')'])) := by
        have hone : ')'.utf8Size = 1 := rfl
        simp [hone, Nat.add_assoc]
      refine ⟨'(' :: (inner ++ [')']), by simp [hrest], ?_⟩
      rw [hends.1, hends.2]
      dsimp only
      rw [hslice, ok_bind, hend]
      rfl

theorem parenthesised_eq (hline : line = u ++ v) :
    ∃ w, v = w ++ (Element.readParenthesised v).2 ∧
      parenthesised line u.size = .ok (size (u ++ w), (Element.readParenthesised v).1) := by
  by_cases hopen : v.head?.any (· = '(') = true
  · obtain ⟨rest, rfl⟩ := exists_cons_of_any_head? hopen
    exact parenthesised_open hline
  · have hhead : ¬ line.bytes[u.size]?.any (onByte (· = '(')) = true := by
      rwa [hline, getElem?_bytes_append, (ascii_eq (by decide)).any_head?_bytes]
    have hnone : Element.readParenthesised v = ([], v) := by
      unfold Element.readParenthesised
      split
      · exact absurd rfl hopen
      · rfl
    refine ⟨[], by rw [hnone]; rfl, ?_⟩
    rw [parenthesised, if_neg hhead, hnone, List.append_nil]
    rfl

/-! ### Elements -/

/-- The value of a selector is left as it is. -/
theorem resolve_of_mem_attributes (scope : Scope) {t : Text} {a : Html.Attribute}
    (h : a ∈ Selector.attributes (Selector.readAll t).1) : scope.resolve a = a := by
  obtain ⟨name, value⟩ := a
  cases value with
  | none => rfl
  | some value =>
      have hvalue := Selector.brace_not_mem_of_attributes h rfl
      rw [Scope.resolve, Option.map_some, Scope.interpolateAttribute,
        substitute_of_not_mem _ hvalue]

theorem written_selectors (scope : Scope) (t : Text) (cursor : Nat) :
    Selecting.written ⟨cursor, Selector.lastId (Selector.readAll t).1,
        Selector.classNames (Selector.readAll t).1⟩ =
      (Selector.attributes (Selector.readAll t).1).map fun a => written (scope.resolve a) := by
  rw [List.map_congr_left fun a ha => congrArg written (resolve_of_mem_attributes scope ha),
    Selecting.written, Selector.attributes]
  dsimp only
  rw [List.map_append]
  congr 1
  · split <;> rfl
  · split <;> rfl

/-- **An element line is scanned** without a fault, to what the reader reads from it. -/
theorem element_eq (scope : Scope) (line : Text) :
    element scope line =
      .ok { tag := (Element.ofLine line).tag
            attributes :=
              Html.Attribute.printAll ((Element.ofLine line).attributes.map scope.resolve)
            text := (Element.ofLine line).text } := by
  obtain ⟨before, hline, htag⟩ := tag_eq line
  obtain ⟨middle, hmiddle, hselectors⟩ := selectors_eq hline
  have hline' : line = before ++ middle ++ (Selector.readAll (Element.readTag line).2).2 := by
    rw [List.append_assoc, ← hmiddle, ← hline]
  obtain ⟨last, hlast, hparenthesised⟩ := parenthesised_eq hline'
  have hrest : line = before ++ middle ++ last ++
      (Element.readParenthesised (Selector.readAll (Element.readTag line).2).2).2 := by
    rw [List.append_assoc _ last, ← hlast, ← hline']
  have hslice : sliceFrom line (size (before ++ middle ++ last)) =
      .ok (Element.readParenthesised (Selector.readAll (Element.readTag line).2).2).2 := by
    have h := sliceFrom_append (before ++ middle ++ last)
      (Element.readParenthesised (Selector.readAll (Element.readTag line).2).2).2
    rwa [← hrest] at h
  rw [element, htag, ok_bind]
  dsimp only
  rw [hselectors, ok_bind]
  dsimp only
  rw [hparenthesised, ok_bind]
  dsimp only
  rw [hslice, ok_bind, attributes_eq, ok_bind, printAll_eq, List.map_map,
    written_selectors scope, ← List.map_append]
  rfl

/-- **Scanning by offsets.**  On every text, the scanners give what the readers of characters give,
and none of them meets a fault. -/
theorem scan_without_fault (scope : Scope) (t : Text) :
    element scope t =
        .ok { tag := (Element.ofLine t).tag
              attributes :=
                Html.Attribute.printAll ((Element.ofLine t).attributes.map scope.resolve)
              text := (Element.ofLine t).text } ∧
      tokens t = .ok (AttributeList.tokens t) ∧
      attribute? scope t =
        .ok ((AttributeList.attribute? t).map fun a => written (scope.resolve a)) ∧
      interpolate scope t = .ok (scope.interpolate t) ∧
      interpolateAttribute scope t = .ok (scope.interpolateAttribute t) ∧
      marker? t = .ok (markerOf? t) ∧
      include? t = .ok (Directive.include? t) :=
  ⟨element_eq scope t, tokens_eq t, attribute?_eq scope t, interpolate_eq scope t,
    interpolateAttribute_eq scope t, marker?_eq t, include?_eq t⟩

end Offsets

end IndentHtml
