import IndentHtml.Proofs.Markup
import Mathlib.Data.Char
import Mathlib.Data.List.TakeWhile
import Mathlib.Order.Interval.Set.Basic

/-!
# Directives as they are written

A directive is a keyword with its operands, and the spaces between them and behind them are free:
`@include\s+"target"\s*`, `@if\s+\$?path\s*` and `@foreach\s+\$?path\s+as\s+\$?name\s*`.  A path is
`[A-Za-z_][A-Za-z0-9_.]*`, a name has no dots, and a target may stand between quotes of either kind
and holds none of its own kind.  The classes are written out as sets (`spaces`, `starts`,
`wordChars`, `pathChars`), which are the classes of the readers.

The parts of a line carry the proofs that they have these forms (`IncludeLine`, `ConditionLine`,
`LoopLine`), and `print` writes them one after the other.

**Recognition** (`recognised_iff_printed`).  A text is recognised as a directive exactly when it is
printed from parts, the operands being those of the parts, and no text is printed from two
different collections of parts.

A reader takes all characters of a class that there are, which is right because what may follow is
never of the class: spaces end a path, and a dollar sign, a letter or a quote ends a run of spaces.
-/

namespace IndentHtml

open Piece (Stops)

namespace Directive

open Text (isLetter isDigit isSpace isWordStart isWordChar isPathChar)

/-! ### Classes of characters -/

/-- The class `\s`, which has ASCII characters only. -/
def spaces : Set Char :=
  {' ', '\t', '\n', '\x0b', '\x0c', '\r'}

/-- The class `[A-Za-z_]`. -/
def starts : Set Char :=
  Set.Icc 'A' 'Z' ∪ Set.Icc 'a' 'z' ∪ {'_'}

/-- The class `[A-Za-z0-9_]`. -/
def wordChars : Set Char :=
  starts ∪ Set.Icc '0' '9'

/-- The class `[A-Za-z0-9_.]`. -/
def pathChars : Set Char :=
  wordChars ∪ {'.'}

theorem isSpace_iff {c : Char} : isSpace c = true ↔ c ∈ spaces := by
  simp [isSpace, spaces, or_assoc]

theorem isWordStart_iff {c : Char} : isWordStart c = true ↔ c ∈ starts := by
  simp only [isWordStart, isLetter, starts, Set.mem_union, Set.mem_Icc, Set.mem_singleton_iff,
    Bool.or_eq_true, Bool.and_eq_true, decide_eq_true_eq, or_comm]

theorem isWordChar_iff {c : Char} : isWordChar c = true ↔ c ∈ wordChars := by
  simp only [wordChars, Set.mem_union, ← isWordStart_iff, isWordStart, isWordChar, isDigit,
    Set.mem_Icc, Bool.or_eq_true, Bool.and_eq_true, decide_eq_true_eq, or_right_comm]

theorem isPathChar_iff {c : Char} : isPathChar c = true ↔ c ∈ pathChars := by
  simp only [pathChars, Set.mem_union, ← isWordChar_iff, isPathChar, Set.mem_singleton_iff,
    Bool.or_eq_true, decide_eq_true_eq]

/-! ### Parts of a line -/

/-- The spaces between two words: `\s+`. -/
abbrev Gap := {t : Text // t ≠ [] ∧ ∀ c ∈ t, c ∈ spaces}

/-- The spaces at the end of a line: `\s*`. -/
abbrev Tail := {t : Text // ∀ c ∈ t, c ∈ spaces}

/-- The quotes around a target. -/
abbrev Quote := {c : Char // c = '"' ∨ c = '\''}

/-- A path or a name as it stands in a directive.  The characters of a class may follow the first
one. -/
structure Operand (chars : Set Char) where
  /-- Whether a dollar sign stands in front. -/
  dollar : Bool
  first : Char
  more : Text
  first_mem : first ∈ starts
  more_mem : ∀ c ∈ more, c ∈ chars

/-- The parts of `@include "target"`. -/
structure IncludeLine where
  gap : Gap
  quote : Quote
  target : Text
  tail : Tail
  target_ne : target ≠ []
  quote_not_mem : quote.1 ∉ target

/-- The parts of `@if path`. -/
structure ConditionLine where
  gap : Gap
  path : Operand pathChars
  tail : Tail

/-- The parts of `@foreach path as name`. -/
structure LoopLine where
  gap : Gap
  path : Operand pathChars
  beforeAs : Gap
  afterAs : Gap
  name : Operand wordChars
  tail : Tail

/-- What an operand names. -/
def Operand.name {chars : Set Char} (operand : Operand chars) : Text :=
  operand.first :: operand.more

/-- The written form of an operand. -/
def Operand.print {chars : Set Char} (operand : Operand chars) : Text :=
  (if operand.dollar then ['$'] else []) ++ operand.name

/-- The written form of an include. -/
def IncludeLine.print (line : IncludeLine) : Text :=
  "@include".toList ++
    (line.gap.1 ++ (line.quote.1 :: (line.target ++ line.quote.1 :: line.tail.1)))

/-- The written form of a condition. -/
def ConditionLine.print (line : ConditionLine) : Text :=
  "@if".toList ++ (line.gap.1 ++ (line.path.print ++ line.tail.1))

/-- The written form of a loop. -/
def LoopLine.print (line : LoopLine) : Text :=
  "@foreach".toList ++ (line.gap.1 ++ (line.path.print ++ (line.beforeAs.1 ++
    ("as".toList ++ (line.afterAs.1 ++ (line.name.print ++ line.tail.1))))))

/-! ### Where the parts end -/

/-- No space is in a word. -/
theorem not_word_of_mem_spaces {c : Char} (h : c ∈ spaces) :
    isPathChar c = false ∧ isWordChar c = false ∧ isWordStart c = false := by
  simp only [spaces, Set.mem_insert_iff, Set.mem_singleton_iff] at h
  rcases h with rfl | rfl | rfl | rfl | rfl | rfl <;> decide

/-- A run of characters that are no spaces ends at the tail of a line. -/
theorem stops_tail {p : Char → Bool} (hp : ∀ c ∈ spaces, p c = false) (tail : Tail) :
    Stops p tail.1 :=
  fun c hc => hp c (tail.2 c (List.mem_of_mem_head? hc))

/-- A run of characters that are no spaces ends at a gap. -/
theorem stops_gap {p : Char → Bool} (hp : ∀ c ∈ spaces, p c = false) (gap : Gap)
    (rest : Text) : Stops p (gap.1 ++ rest) := by
  obtain ⟨t, hne, hall⟩ := gap
  obtain ⟨c, t, rfl⟩ := List.exists_cons_of_ne_nil hne
  rintro d hd
  obtain rfl := Option.some.inj hd
  exact hp c (hall c List.mem_cons_self)

variable {chars : Set Char}

/-- An operand ends the spaces in front of it. -/
theorem Operand.stops_print (operand : Operand chars) (rest : Text) :
    Stops isSpace (operand.print ++ rest) := by
  obtain ⟨dollar, c, more, hc, hmore⟩ := operand
  intro d hd
  cases dollar with
  | true =>
      obtain rfl := Option.some.inj hd
      rfl
  | false =>
      obtain rfl := Option.some.inj hd
      refine Bool.eq_false_iff.mpr fun hspace => ?_
      have hstart := (not_word_of_mem_spaces (isSpace_iff.mp hspace)).2.2
      rw [isWordStart_iff.mpr hc] at hstart
      cases hstart

theorem stops_quote (quote : Quote) (rest : Text) : Stops isSpace (quote.1 :: rest) := by
  obtain ⟨q, rfl | rfl⟩ := quote <;> exact fun d hd => Option.some.inj hd ▸ rfl

theorem stops_as (rest : Text) : Stops isSpace ("as".toList ++ rest) :=
  fun _ hd => Option.some.inj hd ▸ rfl

/-! ### What the readers of the parts take -/

theorem isSpaces_iff {t : Text} : isSpaces t = true ↔ ∀ c ∈ t, c ∈ spaces := by
  simp only [isSpaces, List.all_eq_true, isSpace_iff]

/-- A word is read off the front of the texts that start with it. -/
theorem after?_eq_some_iff {w t rest : Text} :
    Text.after? w t = some rest ↔ t = w ++ rest :=
  ⟨Text.eq_append_of_after?, fun h => h ▸ Text.after?_append w rest⟩

/-- A gap is read as far as it goes. -/
theorem afterSpaces?_eq_some_iff {t rest : Text} :
    afterSpaces? t = some rest ↔ ∃ gap : Gap, t = gap.1 ++ rest ∧ Stops isSpace rest := by
  constructor
  · intro h
    cases t with
    | nil => cases h
    | cons c t =>
        rw [afterSpaces?] at h
        split at h
        · next hc =>
            obtain rfl := Option.some.inj h
            have hgap : ∀ d ∈ c :: t.takeWhile isSpace, d ∈ spaces := List.forall_mem_cons.mpr
              ⟨isSpace_iff.mp hc, fun d hd => isSpace_iff.mp (List.mem_takeWhile_imp hd)⟩
            refine ⟨⟨_, List.cons_ne_nil _ _, hgap⟩, ?_, Piece.stops_dropWhile isSpace t⟩
            rw [List.cons_append, List.takeWhile_append_dropWhile]
        · cases h
  · rintro ⟨⟨gap, hne, hall⟩, rfl, hrest⟩
    obtain ⟨c, gap, rfl⟩ := List.exists_cons_of_ne_nil hne
    obtain ⟨hc, hmore⟩ := List.forall_mem_cons.mp fun d hd => isSpace_iff.mpr (hall d hd)
    rw [List.cons_append, afterSpaces?, if_pos hc, (Piece.takeWhile_run hmore hrest).2]

/-- A text is its dollar sign, if it has one, and what is left without it. -/
theorem exists_dollar_append (t : Text) :
    ∃ dollar : Bool, t = (if dollar then ['$'] else []) ++ dropDollar t := by
  unfold dropDollar
  split
  · exact ⟨true, rfl⟩
  · exact ⟨false, rfl⟩

/-- One dollar sign is dropped, as the name starts with another character. -/
theorem dropDollar_append {c : Char} (hc : c ∈ starts) (dollar : Bool) (t : Text) :
    dropDollar ((if dollar then ['$'] else []) ++ c :: t) = c :: t := by
  cases dollar with
  | true => rfl
  | false =>
      show dropDollar (c :: t) = c :: t
      unfold dropDollar
      split
      · next heq =>
          -- a dollar sign starts no word
          obtain ⟨rfl, -⟩ := List.cons.inj heq
          exact absurd (isWordStart_iff.mpr hc) (by decide)
      · rfl

/-- **An operand is read** off a text exactly when its printed form stands at the front and a
character that is none of the name's follows it. -/
theorem name?_eq_some_iff {isChar : Char → Bool} (hchars : ∀ {c}, isChar c = true ↔ c ∈ chars)
    {t name rest : Text} :
    name? isChar t = some (name, rest) ↔
      ∃ operand : Operand chars,
        operand.name = name ∧ t = operand.print ++ rest ∧ Stops isChar rest := by
  constructor
  · intro h
    obtain ⟨dollar, ht⟩ := exists_dollar_append t
    rw [name?] at h
    cases hu : dropDollar t with
    | nil =>
        rw [hu] at h
        cases h
    | cons c u =>
        simp only [hu] at h
        split at h
        · next hc =>
            obtain ⟨rfl, rfl⟩ := Prod.mk.inj (Option.some.inj h)
            refine ⟨⟨dollar, c, u.takeWhile isChar, isWordStart_iff.mp hc,
              fun d hd => hchars.mp (List.mem_takeWhile_imp hd)⟩, rfl, ?_,
              Piece.stops_dropWhile isChar u⟩
            rw [hu] at ht
            rw [Operand.print, Operand.name, List.append_assoc, List.cons_append,
              List.takeWhile_append_dropWhile]
            exact ht
        · cases h
  · rintro ⟨⟨dollar, c, more, hc, hmore⟩, rfl, rfl, hrest⟩
    obtain ⟨htake, hdrop⟩ := Piece.takeWhile_run (fun d hd => hchars.mpr (hmore d hd)) hrest
    simp only [name?, Operand.print, Operand.name, List.append_assoc, List.cons_append,
      dropDollar_append hc, if_pos (isWordStart_iff.mpr hc), htake, hdrop]

/-- **A quoted target** is read off its printed form, and off nothing else. -/
theorem quoted?_eq_some_iff {t target : Text} :
    quoted? t = some target ↔
      ∃ (quote : Quote) (tail : Tail), target ≠ [] ∧ quote.1 ∉ target ∧
        t = quote.1 :: (target ++ quote.1 :: tail.1) := by
  constructor
  · intro h
    unfold quoted? at h
    split at h
    · next q body =>
        split at h
        · next hq =>
            split at h
            · next inner rest hcut =>
                split at h
                · cases h
                · next hends =>
                    obtain rfl := Option.some.inj h
                    rw [Bool.or_eq_true, not_or, List.isEmpty_iff, Bool.not_eq_true',
                      Bool.not_eq_false] at hends
                    refine ⟨⟨q, by simpa using hq⟩, ⟨rest, isSpaces_iff.mp hends.2⟩, hends.1,
                      Text.not_mem_of_cut? hcut, ?_⟩
                    rw [Text.eq_of_cut? hcut]
            · cases h
        · cases h
    · cases h
  · rintro ⟨⟨q, hq⟩, ⟨tail, htail⟩, hne, hmem, rfl⟩
    have hquote : (q = '"' || q = '\'') = true := by simpa using hq
    have hends : (target.isEmpty || !isSpaces tail) = false := by
      rw [isSpaces_iff.mpr htail, Bool.not_true, Bool.or_false]
      exact Bool.eq_false_iff.mpr fun h => hne (List.isEmpty_iff.mp h)
    simp only [quoted?, if_pos hquote, Text.cut?_append hmem, hends, Bool.false_eq_true, if_false]

/-! ### Recognition -/

/-- Include lines are read exactly off what they are printed as. -/
theorem include?_eq_some_iff {t target : Text} :
    include? t = some target ↔ ∃ line : IncludeLine, line.print = t ∧ line.target = target := by
  simp only [include?, Option.bind_eq_bind, Option.bind_eq_some_iff, after?_eq_some_iff,
    afterSpaces?_eq_some_iff, quoted?_eq_some_iff]
  constructor
  · rintro ⟨_, rfl, _, ⟨gap, rfl, -⟩, quote, tail, hne, hmem, rfl⟩
    exact ⟨⟨gap, quote, target, tail, hne, hmem⟩, rfl, rfl⟩
  · rintro ⟨⟨gap, quote, target, tail, hne, hmem⟩, rfl, rfl⟩
    exact ⟨_, rfl, _, ⟨gap, rfl, stops_quote quote _⟩, quote, tail, hne, hmem, rfl⟩

/-- Conditions are read exactly off what they are printed as. -/
theorem condition?_eq_some_iff {t path : Text} :
    condition? t = some path ↔
      ∃ line : ConditionLine, line.print = t ∧ line.path.name = path := by
  simp only [condition?, Option.bind_eq_bind, Option.bind_eq_some_iff, after?_eq_some_iff,
    afterSpaces?_eq_some_iff, Prod.exists, name?_eq_some_iff isPathChar_iff,
    Option.ite_none_right_eq_some, isSpaces_iff, Option.some.injEq]
  constructor
  · rintro ⟨_, rfl, _, ⟨gap, rfl, -⟩, _, tail, ⟨operand, rfl, rfl, -⟩, htail, rfl⟩
    exact ⟨⟨gap, operand, ⟨tail, htail⟩⟩, rfl, rfl⟩
  · rintro ⟨⟨gap, operand, tail⟩, rfl, rfl⟩
    have hstops := stops_tail (fun c hc => (not_word_of_mem_spaces hc).1) tail
    exact ⟨_, rfl, _, ⟨gap, rfl, operand.stops_print _⟩, _, tail.1, ⟨operand, rfl, rfl, hstops⟩,
      tail.2, rfl⟩

/-- Loops are read exactly off what they are printed as. -/
theorem loop?_eq_some_iff {t path name : Text} :
    loop? t = some (path, name) ↔
      ∃ line : LoopLine, line.print = t ∧ line.path.name = path ∧ line.name.name = name := by
  simp only [loop?, Option.bind_eq_bind, Option.bind_eq_some_iff, after?_eq_some_iff,
    afterSpaces?_eq_some_iff, Prod.exists, name?_eq_some_iff isPathChar_iff,
    name?_eq_some_iff isWordChar_iff, Option.ite_none_right_eq_some, isSpaces_iff,
    Option.some.injEq, Prod.mk.injEq]
  constructor
  · rintro ⟨_, rfl, _, ⟨gap, rfl, -⟩, _, _, ⟨operand, rfl, rfl, -⟩, _, ⟨before, rfl, -⟩, _, rfl,
      _, ⟨after, rfl, -⟩, _, tail, ⟨binding, rfl, rfl, -⟩, htail, rfl, rfl⟩
    exact ⟨⟨gap, operand, before, after, binding, ⟨tail, htail⟩⟩, rfl, rfl, rfl⟩
  · rintro ⟨⟨gap, operand, before, after, binding, tail⟩, rfl, rfl, rfl⟩
    have hpath := stops_gap (fun c hc => (not_word_of_mem_spaces hc).1) before
      ("as".toList ++ (after.1 ++ (binding.print ++ tail.1)))
    have hname := stops_tail (fun c hc => (not_word_of_mem_spaces hc).2.1) tail
    exact ⟨_, rfl, _, ⟨gap, rfl, operand.stops_print _⟩, _, _, ⟨operand, rfl, rfl, hpath⟩, _,
      ⟨before, rfl, stops_as _⟩, _, rfl, _, ⟨after, rfl, binding.stops_print _⟩, _, tail.1,
      ⟨binding, rfl, rfl, hname⟩, tail.2, rfl, rfl⟩

/-! ### One collection of parts -/

/-- A gap and what follows it are determined by the text. -/
theorem gap_unique {gap gap' : Gap} {rest rest' : Text} (h : gap.1 ++ rest = gap'.1 ++ rest')
    (hrest : Stops isSpace rest) (hrest' : Stops isSpace rest') : gap = gap' ∧ rest = rest' := by
  obtain ⟨hgap, heq⟩ := Piece.run_unique h (fun c hc => isSpace_iff.mpr (gap.2.2 c hc))
    (fun c hc => isSpace_iff.mpr (gap'.2.2 c hc)) hrest hrest'
  exact ⟨Subtype.ext hgap, heq⟩

/-- An operand and what follows it are determined by the text, since they are read from it. -/
theorem Operand.print_unique {isChar : Char → Bool} (hchars : ∀ {c}, isChar c = true ↔ c ∈ chars)
    {operand operand' : Operand chars} {rest rest' : Text}
    (h : operand.print ++ rest = operand'.print ++ rest') (hrest : Stops isChar rest)
    (hrest' : Stops isChar rest') : operand = operand' ∧ rest = rest' := by
  have hread := (name?_eq_some_iff hchars).mpr ⟨operand, rfl, rfl, hrest⟩
  have hread' := (name?_eq_some_iff hchars).mpr ⟨operand', rfl, rfl, hrest'⟩
  rw [h, hread'] at hread
  obtain ⟨hname, rfl⟩ := Prod.mk.inj (Option.some.inj hread)
  have hprint := List.append_cancel_right h
  obtain ⟨dollar, first, more, _, _⟩ := operand
  obtain ⟨dollar', first', more', _, _⟩ := operand'
  obtain ⟨rfl, rfl⟩ := List.cons.inj hname
  have hdollar := List.append_cancel_right hprint
  have heq : dollar = dollar' := by
    revert hdollar
    cases dollar <;> cases dollar' <;> simp
  exact ⟨by rw [heq], rfl⟩

/-- The parts of an include line are determined by its printed form. -/
theorem IncludeLine.print_injective : Function.Injective print := by
  rintro ⟨gap, quote, target, tail, hne, hmem⟩ ⟨gap', quote', target', tail', hne', hmem'⟩ h
  obtain ⟨rfl, hrest⟩ := gap_unique (List.append_cancel_left h) (stops_quote quote _)
    (stops_quote quote' _)
  obtain ⟨hquote, hrest⟩ := List.cons.inj hrest
  obtain rfl := Subtype.ext hquote
  obtain ⟨rfl, htail⟩ := Piece.run_unique_of_not_mem hrest hmem hmem'
  obtain rfl := Subtype.ext htail
  rfl

theorem ConditionLine.print_injective : Function.Injective print := by
  rintro ⟨gap, path, tail⟩ ⟨gap', path', tail'⟩ h
  have hstops := stops_tail fun c hc => (not_word_of_mem_spaces hc).1
  obtain ⟨rfl, hrest⟩ := gap_unique (List.append_cancel_left h) (path.stops_print _)
    (path'.stops_print _)
  obtain ⟨rfl, htail⟩ := Operand.print_unique isPathChar_iff hrest (hstops tail) (hstops tail')
  obtain rfl := Subtype.ext htail
  rfl

theorem LoopLine.print_injective : Function.Injective print := by
  rintro ⟨gap, path, before, after, name, tail⟩ ⟨gap', path', before', after', name', tail'⟩ h
  have hpath := stops_gap fun c hc => (not_word_of_mem_spaces hc).1
  have hname := stops_tail fun c hc => (not_word_of_mem_spaces hc).2.1
  obtain ⟨rfl, hrest⟩ := gap_unique (List.append_cancel_left h) (path.stops_print _)
    (path'.stops_print _)
  obtain ⟨rfl, hrest⟩ := Operand.print_unique isPathChar_iff hrest (hpath before _)
    (hpath before' _)
  obtain ⟨rfl, hrest⟩ := gap_unique hrest (stops_as _) (stops_as _)
  obtain ⟨rfl, hrest⟩ := gap_unique (List.append_cancel_left hrest) (name.stops_print _)
    (name'.stops_print _)
  obtain ⟨rfl, htail⟩ := Operand.print_unique isWordChar_iff hrest (hname tail) (hname tail')
  obtain rfl := Subtype.ext htail
  rfl

/-- **Recognition.**  A text is recognised as an include of a target, as a condition on a path or as
a loop over a path with a variable exactly when it is printed from the parts of such a line, with
this target, this path or this path and variable.  The parts are determined by the text. -/
theorem recognised_iff_printed :
    (∀ t target, include? t = some target ↔
      ∃ line : IncludeLine, line.print = t ∧ line.target = target) ∧
    (∀ t path, condition? t = some path ↔
      ∃ line : ConditionLine, line.print = t ∧ line.path.name = path) ∧
    (∀ t path name, loop? t = some (path, name) ↔
      ∃ line : LoopLine, line.print = t ∧ line.path.name = path ∧ line.name.name = name) ∧
    Function.Injective IncludeLine.print ∧ Function.Injective ConditionLine.print ∧
    Function.Injective LoopLine.print :=
  ⟨fun _ _ => include?_eq_some_iff, fun _ _ => condition?_eq_some_iff,
    fun _ _ _ => loop?_eq_some_iff, IncludeLine.print_injective, ConditionLine.print_injective,
    LoopLine.print_injective⟩

end Directive

end IndentHtml
