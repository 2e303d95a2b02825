/-!
# Text

A text is its list of characters.  This module holds the character classes of the template
language, the cutting functions that the scanners are made of, and the lines of a text.

Two classes of blank characters occur.  The *margin* characters are stripped from the ends of a
line, and the *spaces* separate the words of a directive and of an attribute list.  NUL belongs
only to the first class and the form feed only to the second.
-/

namespace IndentHtml

/-- A text, as the list of its characters. -/
abbrev Text := List Char

namespace Text

/-! ### Character classes -/

/-- The characters stripped from the ends of a line. -/
def isMargin (c : Char) : Bool :=
  c = ' ' || c = '\t' || c = '\n' || c = '\r' || c = '\x00' || c = '\x0b'

/-- The characters that separate words in a directive or an attribute list. -/
def isSpace (c : Char) : Bool :=
  c = ' ' || c = '\t' || c = '\n' || c = '\x0b' || c = '\x0c' || c = '\r'

/-- The ASCII letters. -/
def isLetter (c : Char) : Bool :=
  ('a' ≤ c && c ≤ 'z') || ('A' ≤ c && c ≤ 'Z')

/-- The decimal digits. -/
def isDigit (c : Char) : Bool :=
  '0' ≤ c && c ≤ '9'

/-- The characters of a variable name after its first one. -/
def isWordChar (c : Char) : Bool :=
  isLetter c || isDigit c || c = '_'

/-- The characters a variable name or a dotted path starts with. -/
def isWordStart (c : Char) : Bool :=
  isLetter c || c = '_'

/-- The characters of a dotted path after its first one. -/
def isPathChar (c : Char) : Bool :=
  isWordChar c || c = '.'

/-- The characters of a tag, an id, a class and an attribute name. -/
def isNameChar (c : Char) : Bool :=
  isWordChar c || c = '-'

/-! ### Trimming -/

/-- Strips the margin from the left. -/
def trimLeft (t : Text) : Text :=
  t.dropWhile isMargin

/-- Strips the margin from both ends. -/
def trim (t : Text) : Text :=
  ((trimLeft t).reverse.dropWhile isMargin).reverse

/-- Holds of a text that is all margin. -/
def isBlank (t : Text) : Bool :=
  t.all isMargin

/-! ### Cutting -/

/-- What follows the head `w` of a text, if the text starts with `w`. -/
def after? : (w : Text) → (t : Text) → Option Text
  | [], t => some t
  | _ :: _, [] => none
  | a :: w, c :: t => if a = c then after? w t else none

/-- The parts of a text before and after the first occurrence of `sep`. -/
def cut? (sep : Char) : Text → Option (Text × Text)
  | [] => none
  | c :: t => if c = sep then some ([], t) else (cut? sep t).map fun p => (c :: p.1, p.2)

/-! ### Lines

A text is a sequence of lines, each ended by a line feed.  A carriage return directly before the
line feed belongs to the line end, and the last line may lack its end.
-/

/-- A line that was ended by a line feed, without the carriage return before it. -/
def chomp (line : Text) : Text :=
  match line.getLast? with
  | some '\r' => line.dropLast
  | _ => line

/-- The lines of a text, without their ends.  A text that ends in a line feed has no further
empty line. -/
def lines (t : Text) : List Text :=
  let parts := List.splitOn '\n' t
  let last := parts.getLastD []
  parts.dropLast.map chomp ++ if last.isEmpty then [] else [last]

/-- The lines joined by line feeds, with none after the last. -/
def unlines (ls : List Text) : Text :=
  List.intercalate ['\n'] ls

/-! ### Order -/

/-- The order of texts: character by character, by code point. -/
def lt : Text → Text → Bool
  | [], [] => false
  | [], _ :: _ => true
  | _ :: _, [] => false
  | a :: t, b :: u => a < b || (a = b && lt t u)

/-! ### Small facts -/

theorem eq_append_of_after? {w t rest : Text} (h : after? w t = some rest) : t = w ++ rest := by
  induction w generalizing t with
  | nil => simpa [after?] using h
  | cons a w ih =>
      cases t with
      | nil => simp [after?] at h
      | cons c t =>
          simp only [after?] at h
          split at h
          · next hac => subst hac; rw [List.cons_append, ih h]
          · simp at h

theorem after?_append (w t : Text) : after? w (w ++ t) = some t := by
  induction w with
  | nil => rfl
  | cons a w ih => simpa [after?] using ih

/-- A step of a search to the next character cuts at the same place as the rest of the search. -/
theorem eq_of_map_cons {c sep : Char} {t before after : Text} {o : Option (Text × Text)}
    (ho : ∀ {before' after'}, o = some (before', after') → t = before' ++ sep :: after')
    (h : o.map (fun p => (c :: p.1, p.2)) = some (before, after)) :
    c :: t = before ++ sep :: after := by
  obtain ⟨⟨before', after'⟩, hp, heq⟩ := Option.map_eq_some_iff.mp h
  obtain ⟨rfl, rfl⟩ := Prod.mk.inj heq
  rw [ho hp, List.cons_append]

theorem eq_of_cut? {sep : Char} {t before after : Text} (h : cut? sep t = some (before, after)) :
    t = before ++ sep :: after := by
  induction t generalizing before after with
  | nil => cases h
  | cons c t ih =>
      rw [cut?] at h
      split at h
      · next hc =>
          obtain ⟨rfl, rfl⟩ := Prod.mk.inj (Option.some.inj h)
          rw [hc, List.nil_append]
      · exact eq_of_map_cons ih h

theorem not_mem_of_cut? {sep : Char} {t before after : Text}
    (h : cut? sep t = some (before, after)) : sep ∉ before := by
  induction t generalizing before with
  | nil => cases h
  | cons c t ih =>
      rw [cut?] at h
      split at h
      · obtain ⟨rfl, -⟩ := Prod.mk.inj (Option.some.inj h)
        exact List.not_mem_nil
      · next hc =>
          obtain ⟨⟨before', after'⟩, hcut, heq⟩ := Option.map_eq_some_iff.mp h
          obtain ⟨rfl, rfl⟩ := Prod.mk.inj heq
          exact List.not_mem_cons_of_ne_of_not_mem (Ne.symm hc) (ih hcut)

theorem cut?_append {sep : Char} {before : Text} (h : sep ∉ before) (after : Text) :
    cut? sep (before ++ sep :: after) = some (before, after) := by
  induction before with
  | nil => rw [List.nil_append, cut?, if_pos rfl]
  | cons c before ih =>
      obtain ⟨hc, hbefore⟩ := List.ne_and_not_mem_of_not_mem_cons h
      rw [List.cons_append, cut?, if_neg (Ne.symm hc), ih hbefore]
      rfl

/-! ### Parts of a text -/

theorem splitOn_cons_self (sep : Char) (t : Text) :
    List.splitOn sep (sep :: t) = [] :: List.splitOn sep t :=
  List.splitOn_append_cons_self [] t

theorem splitOn_cons_of_ne {sep c : Char} {t part : Text} {parts : List Text} (h : c ≠ sep)
    (ht : List.splitOn sep t = part :: parts) :
    List.splitOn sep (c :: t) = (c :: part) :: parts := by
  rw [List.splitOn_cons_eq_if_modifyHead, if_neg (by simpa using h), ht]
  rfl

/-- The parts have the characters of the text, but no separator. -/
theorem mem_of_mem_splitOn {sep c : Char} {t part : Text} (h : part ∈ List.splitOn sep t)
    (hc : c ∈ part) : c ∈ t ∧ c ≠ sep := by
  induction t generalizing part with
  | nil =>
      rw [List.splitOn_nil, List.mem_singleton] at h
      rw [h] at hc
      cases hc
  | cons d t ih =>
      by_cases hd : d = sep
      · rw [hd, splitOn_cons_self] at h
        rcases List.mem_cons.mp h with rfl | h
        · cases hc
        · exact (ih h hc).imp_left (List.mem_cons_of_mem _)
      · obtain ⟨first, parts, ht⟩ := List.exists_cons_of_ne_nil (List.splitOn_ne_nil sep t)
        rw [ht] at ih
        rw [splitOn_cons_of_ne hd ht] at h
        rcases List.mem_cons.mp h with rfl | h
        · rcases List.mem_cons.mp hc with rfl | hc
          · exact ⟨List.mem_cons_self, hd⟩
          · exact (ih List.mem_cons_self hc).imp_left (List.mem_cons_of_mem _)
        · exact (ih (List.mem_cons_of_mem _ h) hc).imp_left (List.mem_cons_of_mem _)

/-- A character of a joined text is one of a part or of the separator. -/
theorem mem_intercalate {sep : Text} {ts : List Text} {c : Char} (h : c ∈ sep.intercalate ts) :
    c ∈ sep ∨ ∃ t ∈ ts, c ∈ t := by
  induction ts with
  | nil => cases h
  | cons t ts ih =>
      by_cases hts : ts = []
      · subst hts
        rw [List.intercalate_singleton] at h
        exact .inr ⟨t, List.mem_cons_self, h⟩
      · rw [List.intercalate_cons_of_ne_nil hts] at h
        rcases List.mem_append.mp h with h | h
        · rcases List.mem_append.mp h with h | h
          · exact .inr ⟨t, List.mem_cons_self, h⟩
          · exact .inl h
        · rcases ih h with h | ⟨v, hv, hc⟩
          · exact .inl h
          · exact .inr ⟨v, List.mem_cons_of_mem _ hv, hc⟩

end Text

end IndentHtml
