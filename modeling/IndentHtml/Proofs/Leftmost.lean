import IndentHtml.Proofs.Spacing
import Mathlib.Computability.Language

/-!
# Leftmost and longest separators

A separator of an attribute list is `\s*,\s*`, or it is `\s+` with `[A-Za-z0-9_-]+\s*=` behind it.
The three expressions are languages (`commaForm`, `spaceForm`, `assignmentForm`), and the
assignment is looked for behind the separator without being a part of it (`IsSeparator`).

A text is divided (`Divides`) at the first place where a separator starts, by the longest one that
starts there, and what follows is divided in the same way.  There is one division of a text only
(`Divides.unique`).

**Splitting** (`tokens_leftmost_longest`).  The tokens of a text are those of its division.  They
alternate with the separators and make up the text with them, and no token has a comma or spaces in
front of an assignment in it.

The scanner never compares two separators.  A separator takes all spaces there are, so where one
starts only one form is possible, and the longest of that form is what the scanner steps over
(`IsSeparator.eq_run`).
-/

namespace IndentHtml

open Piece (IsName Stops)

namespace AttributeList

open Text (isSpace isNameChar)
open scoped Computability

/-! ### Forms -/

/-- The texts of one character of a class. -/
def oneOf (p : Char → Bool) : Language Char :=
  {t | ∃ c, p c = true ∧ t = [c]}

/-- A comma with spaces around it: `\s*,\s*`. -/
def commaForm : Language Char :=
  (oneOf isSpace)∗ * oneOf (· = ',') * (oneOf isSpace)∗

/-- A run of spaces: `\s+`. -/
def spaceForm : Language Char :=
  oneOf isSpace * (oneOf isSpace)∗

/-- A name and an equals sign: `[A-Za-z0-9_-]+\s*=`. -/
def assignmentForm : Language Char :=
  oneOf isNameChar * (oneOf isNameChar)∗ * (oneOf isSpace)∗ * oneOf (· = '=')

/-- Holds of a separator and what follows it. -/
def IsSeparator (separator rest : Text) : Prop :=
  separator ∈ commaForm ∨ separator ∈ spaceForm ∧ ∃ a ∈ assignmentForm, a <+: rest

variable {p : Char → Bool} {t run w separator rest : Text}

theorem mem_kstar_oneOf : t ∈ (oneOf p)∗ ↔ ∀ c ∈ t, p c = true := by
  constructor
  · rintro ⟨parts, rfl, hparts⟩ c hc
    obtain ⟨part, hpart, hc⟩ := List.mem_flatten.mp hc
    obtain ⟨d, hd, rfl⟩ := hparts part hpart
    rwa [List.mem_singleton.mp hc]
  · intro h
    refine ⟨t.map fun c => [c], (List.flatMap_singleton' t).symm, ?_⟩
    intro part hpart
    obtain ⟨c, hc, rfl⟩ := List.mem_map.mp hpart
    exact ⟨c, h c hc, rfl⟩

theorem mem_oneOf_mul_kstar : t ∈ oneOf p * (oneOf p)∗ ↔ t ≠ [] ∧ ∀ c ∈ t, p c = true := by
  rw [Language.mem_mul]
  constructor
  · rintro ⟨_, ⟨c, hc, rfl⟩, more, hmore, rfl⟩
    exact ⟨List.cons_ne_nil c more, List.forall_mem_cons.mpr ⟨hc, mem_kstar_oneOf.mp hmore⟩⟩
  · rintro ⟨hne, hall⟩
    obtain ⟨c, more, rfl⟩ := List.exists_cons_of_ne_nil hne
    obtain ⟨hc, hmore⟩ := List.forall_mem_cons.mp hall
    exact ⟨[c], ⟨c, hc, rfl⟩, more, mem_kstar_oneOf.mpr hmore, rfl⟩

theorem mem_oneOf_eq {x : Char} : t ∈ oneOf (· = x) ↔ t = [x] := by
  constructor
  · rintro ⟨c, hc, rfl⟩
    rw [of_decide_eq_true hc]
  · rintro rfl
    exact ⟨x, decide_eq_true rfl, rfl⟩

theorem mem_commaForm :
    t ∈ commaForm ↔ ∃ before after, (∀ c ∈ before, isSpace c = true) ∧
      (∀ c ∈ after, isSpace c = true) ∧ t = before ++ ',' :: after := by
  simp only [commaForm, Language.mem_mul, mem_kstar_oneOf, mem_oneOf_eq]
  constructor
  · rintro ⟨_, ⟨before, hbefore, _, rfl, rfl⟩, after, hafter, rfl⟩
    exact ⟨before, after, hbefore, hafter, by simp⟩
  · rintro ⟨before, after, hbefore, hafter, rfl⟩
    exact ⟨before ++ [','], ⟨before, hbefore, [','], rfl, rfl⟩, after, hafter, by simp⟩

theorem mem_spaceForm : t ∈ spaceForm ↔ t ≠ [] ∧ ∀ c ∈ t, isSpace c = true :=
  mem_oneOf_mul_kstar

theorem mem_assignmentForm :
    t ∈ assignmentForm ↔ ∃ name run, IsName name ∧ (∀ c ∈ run, isSpace c = true) ∧
      t = name ++ (run ++ ['=']) := by
  rw [assignmentForm, Language.mem_mul]
  simp only [mem_oneOf_eq]
  constructor
  · rintro ⟨_, hfirst, _, rfl, rfl⟩
    obtain ⟨name, hname, run, hrun, rfl⟩ := Language.mem_mul.mp hfirst
    exact ⟨name, run, mem_oneOf_mul_kstar.mp hname, mem_kstar_oneOf.mp hrun, by simp⟩
  · rintro ⟨name, run, hname, hrun, rfl⟩
    have hfirst := Language.append_mem_mul (mem_oneOf_mul_kstar.mpr hname)
      (mem_kstar_oneOf.mpr hrun)
    exact ⟨name ++ run, hfirst, ['='], rfl, by simp⟩

theorem stops_of_isNameChar {c : Char} (h : isNameChar c = true) (t : Text) :
    Stops isSpace (c :: t) := by
  intro d hd
  obtain rfl := Option.some.inj hd
  exact (Html.Attribute.isInner_of_isNameChar h).2.1

/-- A text starts with an assignment when one of the texts of the form stands at its front. -/
theorem startsAssignment_iff : startsAssignment t = true ↔ ∃ a ∈ assignmentForm, a <+: t := by
  constructor
  · intro h
    rw [startsAssignment, Bool.and_eq_true] at h
    obtain ⟨hname, hequals⟩ := h
    split at hequals
    · next rest hrest =>
        have hparts : t.takeWhile isNameChar ++
            ((t.dropWhile isNameChar).takeWhile isSpace ++ '=' :: rest) = t := by
          rw [← hrest, List.takeWhile_append_dropWhile, List.takeWhile_append_dropWhile]
        have hne : IsName (t.takeWhile isNameChar) := by
          refine ⟨fun hnil => ?_, fun c hc => List.mem_takeWhile_imp hc⟩
          simp [hnil] at hname
        have hrun : ∀ c ∈ (t.dropWhile isNameChar).takeWhile isSpace, isSpace c = true :=
          fun c hc => List.mem_takeWhile_imp hc
        exact ⟨_, mem_assignmentForm.mpr ⟨_, _, hne, hrun, rfl⟩, rest, by simpa using hparts⟩
    · cases hequals
  · rintro ⟨a, ha, rest, rfl⟩
    obtain ⟨name, run, hname, hrun, rfl⟩ := mem_assignmentForm.mp ha
    have hstops : Stops isNameChar (run ++ '=' :: rest) := by
      intro c hc
      cases run with
      | nil =>
          obtain rfl := Option.some.inj hc
          rfl
      | cons d run =>
          obtain rfl := Option.some.inj hc
          refine Bool.eq_false_iff.mpr fun hchar => ?_
          have hspace := (Html.Attribute.isInner_of_isNameChar hchar).2.1
          rw [hrun d List.mem_cons_self] at hspace
          cases hspace
    rw [List.append_assoc, List.append_assoc, List.singleton_append,
      startsAssignment_append hname hstops, List.dropWhile_append_of_pos hrun]
    rfl

/-! ### Separators at the front of a text -/

/-- What a separator can be at the front of a text that starts with a run of spaces: the run and a
comma and some of the spaces behind it, or the run alone in front of an assignment. -/
theorem IsSeparator.eq_run (h : IsSeparator separator rest) (hrun : ∀ c ∈ run, isSpace c = true)
    (hw : Stops isSpace w) (heq : run ++ w = separator ++ rest) :
    (∃ after, (∀ c ∈ after, isSpace c = true) ∧ separator = run ++ ',' :: after ∧
      w = ',' :: (after ++ rest)) ∨
    run ≠ [] ∧ separator = run ∧ rest = w ∧ startsAssignment w = true := by
  rcases h with hcomma | ⟨hspace, a, ha, hrest⟩
  · obtain ⟨before, after, hbefore, hafter, rfl⟩ := mem_commaForm.mp hcomma
    rw [List.append_assoc, List.cons_append] at heq
    have hstops : Stops isSpace (',' :: (after ++ rest)) := by
      intro c hc
      obtain rfl := Option.some.inj hc
      rfl
    obtain ⟨rfl, rfl⟩ := Piece.run_unique heq hrun hbefore hw hstops
    exact .inl ⟨after, hafter, rfl, rfl⟩
  · obtain ⟨hne, hall⟩ := mem_spaceForm.mp hspace
    have hassign := startsAssignment_iff.mpr ⟨a, ha, hrest⟩
    -- behind the spaces there is a character of a name
    have hstops : Stops isSpace rest := by
      obtain ⟨name, more, hname, -, rfl⟩ := mem_assignmentForm.mp ha
      obtain ⟨c, name, rfl⟩ := List.exists_cons_of_ne_nil hname.1
      obtain ⟨u, rfl⟩ := hrest
      exact stops_of_isNameChar (hname.2 c List.mem_cons_self) _
    obtain ⟨rfl, rfl⟩ := Piece.run_unique heq hrun hall hw hstops
    exact .inr ⟨hne, rfl, rfl, hassign⟩

/-- A text starts with a run of spaces, behind which a comma stands or something else. -/
theorem exists_run (t : Text) :
    ∃ run w, (∀ c ∈ run, isSpace c = true) ∧ Stops isSpace w ∧ t = run ++ w ∧
      ((∃ rest, w = ',' :: rest ∧ afterSeparator? t = some (rest.dropWhile isSpace)) ∨
        w.head? ≠ some ',' ∧ afterSeparator? t =
          if run ≠ [] ∧ startsAssignment w = true then some w else none) := by
  have hrun : ∀ c ∈ t.takeWhile isSpace, isSpace c = true := fun c hc => List.mem_takeWhile_imp hc
  have hstops : Stops isSpace (t.dropWhile isSpace) := Piece.stops_dropWhile isSpace t
  have hspace : (t.dropWhile isSpace).dropWhile isSpace = t.dropWhile isSpace :=
    List.dropWhile_idempotent isSpace t
  have ht : t = t.takeWhile isSpace ++ t.dropWhile isSpace :=
    List.takeWhile_append_dropWhile.symm
  refine ⟨_, _, hrun, hstops, ht, ?_⟩
  generalize t.takeWhile isSpace = run at *
  generalize t.dropWhile isSpace = w at *
  subst ht
  by_cases hcomma : w.head? = some ','
  · obtain ⟨rest, rfl⟩ := List.head?_eq_some_iff.mp hcomma
    exact .inl ⟨rest, rfl, afterSeparator?_comma hrun rest⟩
  · refine .inr ⟨hcomma, ?_⟩
    by_cases hne : run = []
    · subst hne
      rw [if_neg fun h => h.1 rfl, List.nil_append]
      cases w with
      | nil => rfl
      | cons c w =>
          have hother : c ≠ ',' := fun heq => hcomma (congrArg some heq)
          rw [afterSeparator?, if_neg hother, if_neg (by simp [hstops c rfl])]
    · rw [afterSeparator?_run hrun hne hspace hcomma]
      simp only [hne, ne_eq, not_false_eq_true, true_and]

/-- Where the reader stops at a separator, it is the longest one that starts there. -/
theorem exists_separator (h : afterSeparator? t = some rest) :
    ∃ separator, t = separator ++ rest ∧ IsSeparator separator rest ∧
      ∀ other more, t = other ++ more → IsSeparator other more →
        other.length ≤ separator.length := by
  obtain ⟨run, w, hrun, hw, rfl, ⟨after, rfl, hafter⟩ | ⟨hcomma, hafter⟩⟩ := exists_run t
  · obtain rfl := Option.some.inj (hafter.symm.trans h)
    have hspaces : ∀ c ∈ after.takeWhile isSpace, isSpace c = true :=
      fun c hc => List.mem_takeWhile_imp hc
    refine ⟨run ++ ',' :: after.takeWhile isSpace, by simp,
      .inl (mem_commaForm.mpr ⟨run, _, hrun, hspaces, rfl⟩), fun other more heq hother => ?_⟩
    rcases hother.eq_run hrun hw heq with ⟨spaces, hall, rfl, hrest⟩ | ⟨-, rfl, -, -⟩
    · have htake : after.takeWhile isSpace = spaces ++ more.takeWhile isSpace := by
        rw [(List.cons.inj hrest).2, List.takeWhile_append_of_pos hall]
      simp [htake]
    · simp
  · rw [hafter] at h
    split at h
    · next hassign =>
        obtain rfl := Option.some.inj h
        obtain ⟨hne, hassign⟩ := hassign
        refine ⟨run, rfl, .inr ⟨mem_spaceForm.mpr ⟨hne, hrun⟩, startsAssignment_iff.mp hassign⟩,
          fun other more heq hother => ?_⟩
        rcases hother.eq_run hrun hw heq with ⟨spaces, -, -, hrest⟩ | ⟨-, rfl, -, -⟩
        · exact absurd (congrArg List.head? hrest) hcomma
        · exact Nat.le_refl _
    · cases h

/-- Where the reader goes on, no separator starts. -/
theorem not_isSeparator (h : afterSeparator? t = none) (heq : t = separator ++ rest) :
    ¬ IsSeparator separator rest := by
  intro hsep
  obtain ⟨run, w, hrun, hw, rfl, ⟨after, rfl, hafter⟩ | ⟨hcomma, hafter⟩⟩ := exists_run t
  · rw [hafter] at h
    cases h
  · rcases hsep.eq_run hrun hw heq with ⟨spaces, -, -, hrest⟩ | ⟨hne, -, -, hassign⟩
    · exact hcomma (congrArg List.head? hrest)
    · rw [hafter, if_pos ⟨hne, hassign⟩] at h
      cases h

/-! ### Division -/

/-- The first separator of a text, with what stands before it and behind it. -/
structure IsFirst (t before separator rest : Text) : Prop where
  parts : t = before ++ (separator ++ rest)
  separates : IsSeparator separator rest
  leftmost : ∀ before' other more, t = before' ++ (other ++ more) → IsSeparator other more →
    before.length ≤ before'.length
  longest : ∀ other more, separator ++ rest = other ++ more → IsSeparator other more →
    other.length ≤ separator.length

/-- A text, its tokens and the separators between them. -/
inductive Divides : Text → List Text → List Text → Prop where
  | last {t : Text} :
      (∀ before other more, t = before ++ (other ++ more) → ¬ IsSeparator other more) →
        Divides t [t] []
  | next {t token separator rest : Text} {tokens separators : List Text} :
      IsFirst t token separator rest → Divides rest tokens separators →
        Divides t (token :: tokens) (separator :: separators)

theorem IsFirst.unique {before before' separator' rest' : Text}
    (h : IsFirst t before separator rest) (h' : IsFirst t before' separator' rest') :
    before = before' ∧ separator = separator' ∧ rest = rest' := by
  have hlength := Nat.le_antisymm (h.leftmost _ _ _ h'.parts h'.separates)
    (h'.leftmost _ _ _ h.parts h.separates)
  obtain ⟨hbefore, hrest⟩ := List.append_inj (h.parts.symm.trans h'.parts) hlength
  have hsame := Nat.le_antisymm (h'.longest _ _ hrest.symm h.separates)
    (h.longest _ _ hrest h'.separates)
  exact ⟨hbefore, List.append_inj hrest hsame⟩

/-- **A text has one division.** -/
theorem Divides.unique {tokens tokens' separators separators' : List Text}
    (h : Divides t tokens separators) (h' : Divides t tokens' separators') :
    tokens = tokens' ∧ separators = separators' := by
  induction h generalizing tokens' separators' with
  | last hnone =>
      cases h' with
      | last _ => exact ⟨rfl, rfl⟩
      | next hfirst _ => exact absurd hfirst.separates (hnone _ _ _ hfirst.parts)
  | next hfirst _ ih =>
      cases h' with
      | last hnone => exact absurd hfirst.separates (hnone _ _ _ hfirst.parts)
      | next hfirst' hrest =>
          obtain ⟨rfl, rfl, rfl⟩ := hfirst.unique hfirst'
          obtain ⟨rfl, rfl⟩ := ih hrest
          exact ⟨rfl, rfl⟩

/-- A character in front of which no separator starts is put before the first token. -/
theorem Divides.cons {c : Char} {token : Text} {tokens separators : List Text}
    (hnone : afterSeparator? (c :: t) = none) (h : Divides t (token :: tokens) separators) :
    Divides (c :: t) ((c :: token) :: tokens) separators := by
  cases h with
  | last hno =>
      refine .last fun before other more heq => ?_
      cases before with
      | nil => exact not_isSeparator hnone heq
      | cons d before => exact hno before other more (List.cons.inj heq).2
  | next hfirst hrest =>
      refine .next ⟨congrArg (c :: ·) hfirst.parts, hfirst.separates,
        fun before other more heq hother => ?_, hfirst.longest⟩ hrest
      cases before with
      | nil => exact absurd hother (not_isSeparator hnone heq)
      | cons d before =>
          exact Nat.succ_le_succ (hfirst.leftmost before other more (List.cons.inj heq).2 hother)

/-- **The reader of characters divides.** -/
theorem exists_divides_splitFirst (t : Text) :
    ∃ separators, Divides t ((splitFirst t).1 :: (splitFirst t).2) separators := by
  fun_induction splitFirst t with
  | case1 =>
      refine ⟨[], .last fun before other more heq => ?_⟩
      obtain ⟨-, hempty⟩ := List.append_eq_nil_iff.mp heq.symm
      exact not_isSeparator rfl hempty.symm
  | case2 c t rest hafter _ ih =>
      obtain ⟨separators, hrest⟩ := ih
      obtain ⟨separator, heq, hsep, hlongest⟩ := exists_separator hafter
      rw [heq] at hlongest ⊢
      exact ⟨separator :: separators,
        .next ⟨rfl, hsep, fun _ _ _ _ _ => Nat.zero_le _, hlongest⟩ hrest⟩
  | case3 c t hafter ih =>
      obtain ⟨separators, hrest⟩ := ih
      exact ⟨separators, hrest.cons hafter⟩

theorem tokens_eq_iff {parts : List Text} :
    tokens t = parts ↔ ∃ separators, Divides t parts separators := by
  obtain ⟨separators, hdivides⟩ := exists_divides_splitFirst t
  constructor
  · rintro rfl
    exact ⟨separators, hdivides⟩
  · rintro ⟨others, hparts⟩
    exact (hdivides.unique hparts).1

/-! ### The parts of a division -/

/-- The tokens with the separators between them. -/
def weave (tokens separators : List Text) : Text :=
  (List.zipWith (· ++ ·) tokens (separators ++ [[]])).flatten

/-- A token that holds no comma, and no run of spaces in front of an assignment. -/
structure Whole (token : Text) : Prop where
  comma : ',' ∉ token
  spaces : ∀ run ∈ spaceForm, ∀ a ∈ assignmentForm, ¬ run ++ a <:+: token

/-- A part of a text is whole when no separator starts in it. -/
theorem whole_of_forall {token : Text} (rest : Text)
    (h : ∀ before other more, token ++ rest = before ++ (other ++ more) →
      before.length < token.length → ¬ IsSeparator other more) : Whole token := by
  constructor
  · intro hmem
    obtain ⟨before, after, rfl⟩ := List.append_of_mem hmem
    refine h before [','] (after ++ rest) (by simp) (by simp) (.inl ?_)
    exact mem_commaForm.mpr ⟨[], [], nofun, nofun, rfl⟩
  · rintro run hrun a ha ⟨before, after, rfl⟩
    have hpos := List.length_pos_iff.mpr (mem_spaceForm.mp hrun).1
    refine h before run (a ++ (after ++ rest)) (by simp) ?_
      (.inr ⟨hrun, a, ha, List.prefix_append _ _⟩)
    simp only [List.length_append]
    omega

theorem Divides.length_eq {tokens separators : List Text} (h : Divides t tokens separators) :
    tokens.length = separators.length + 1 := by
  induction h with
  | last _ => rfl
  | next _ _ ih => rw [List.length_cons, List.length_cons, ih]

theorem Divides.weave_eq {tokens separators : List Text} (h : Divides t tokens separators) :
    weave tokens separators = t := by
  induction h with
  | last _ => simp [weave]
  | next hfirst _ ih =>
      rw [weave] at ih ⊢
      rw [List.cons_append, List.zipWith_cons_cons, List.flatten_cons, ih, hfirst.parts,
        List.append_assoc]

/-- Each separator of a division stands in front of the tokens and separators after it. -/
theorem Divides.isSeparator {tokens separators : List Text} (h : Divides t tokens separators)
    (n : Nat) (hn : n < separators.length) :
    IsSeparator separators[n]
      (weave (tokens.drop (n + 1)) (separators.drop (n + 1))) := by
  induction h generalizing n with
  | last _ => exact absurd hn (Nat.not_lt_zero n)
  | next hfirst hrest ih =>
      cases n with
      | zero =>
          rw [List.getElem_cons_zero, List.drop_succ_cons, List.drop_succ_cons, List.drop_zero,
            List.drop_zero, hrest.weave_eq]
          exact hfirst.separates
      | succ n => exact ih n (Nat.lt_of_succ_lt_succ hn)

theorem Divides.whole {tokens separators : List Text} (h : Divides t tokens separators) :
    ∀ token ∈ tokens, Whole token := by
  induction h with
  | @last t hnone =>
      refine List.forall_mem_singleton.mpr (whole_of_forall [] fun before other more heq _ => ?_)
      exact hnone before other more ((List.append_nil t).symm.trans heq)
  | @next t token separator rest tokens separators hfirst _ ih =>
      refine List.forall_mem_cons.mpr ⟨whole_of_forall (separator ++ rest) ?_, ih⟩
      intro before other more heq hlt hother
      exact absurd (hfirst.leftmost before other more (hfirst.parts.trans heq) hother)
        (Nat.not_le.mpr hlt)

/-- A text that is not split is whole. -/
theorem whole_of_tokens_eq (h : tokens t = [t]) : Whole t := by
  obtain ⟨separators, hdivides⟩ := tokens_eq_iff.mp h
  exact hdivides.whole t (List.mem_singleton_self t)

/-- **Leftmost and longest.**  The scanner gives the tokens of the division of a text.  Tokens and
separators alternate, with a token at either end, and make up the text; each separator is a comma
with spaces around it, or spaces with an assignment behind them; and no token holds a comma or
spaces in front of an assignment. -/
theorem tokens_leftmost_longest (t : Text) :
    (∀ parts, Offsets.tokens t = .ok parts ↔ ∃ separators, Divides t parts separators) ∧
    ∃ parts separators, Offsets.tokens t = .ok parts ∧
      parts.length = separators.length + 1 ∧ weave parts separators = t ∧
      (∀ (n : Nat) (hn : n < separators.length), IsSeparator separators[n]
        (weave (parts.drop (n + 1)) (separators.drop (n + 1)))) ∧
      ∀ token ∈ parts, ',' ∉ token ∧
        ∀ run ∈ spaceForm, ∀ a ∈ assignmentForm, ¬ run ++ a <:+: token := by
  obtain ⟨separators, hdivides⟩ := exists_divides_splitFirst t
  refine ⟨fun parts => ?_, tokens t, separators, Offsets.tokens_eq t, hdivides.length_eq,
    hdivides.weave_eq, hdivides.isSeparator, fun token htoken => ?_⟩
  · rw [Offsets.tokens_eq, Except.ok.injEq]
    exact tokens_eq_iff
  · exact ⟨(hdivides.whole token htoken).comma, (hdivides.whole token htoken).spaces⟩

/-- Spaces are a part of the token when a name without `=` follows them, and of the separator when
a comma does. -/
example : tokens "a b  ,c=1 d = 2".toList = ["a b".toList, "c=1".toList, "d = 2".toList] := by
  decide +kernel

end AttributeList

end IndentHtml
