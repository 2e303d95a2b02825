import IndentHtml.Proofs.NormalForm
import IndentHtml.Site.Build

/-!
# The pattern of a build

The pattern of a build is the templates directory with its wildcards escaped, then any number of
directories, then a name with the extension.  When the extension has no slash, the pattern is read
component by component (`BuildOptions.pattern_eq_of_ofText`): an escaped component stands for
nothing but itself (`GlobPattern.holds_exactly`), and the last component is a run of characters, a
dot and what the extension is read as.

Without wildcards in the extension the last component stands for the names that end in a dot and
the extension (`GlobPattern.holds_suffix`).
-/

namespace IndentHtml

namespace GlobPattern

/-- The characters that a pattern treats specially. -/
def isWild (c : Char) : Bool :=
  c = '?' || c = '*' || c = '[' || c = ']'

theorem isWild_eq_false_iff {c : Char} :
    isWild c = false ↔ c ≠ '?' ∧ c ≠ '*' ∧ c ≠ '[' ∧ c ≠ ']' := by
  simp [isWild, and_assoc]

theorem forall_isWild_eq_false {t : Text} (h : t.any isWild = false) :
    ∀ c ∈ t, isWild c = false :=
  fun c hc => Bool.eq_false_iff.mpr (List.any_eq_false.mp h c hc)

/-! ### What patterns stand for -/

/-- A test of all ends of a text is one of all ways to cut it in two. -/
theorem anySuffix_iff {test : Text → Bool} {t : Text} :
    anySuffix test t = true ↔ ∃ before after, t = before ++ after ∧ test after = true := by
  induction t with
  | nil => simp [anySuffix]
  | cons c t ih =>
      rw [anySuffix, Bool.or_eq_true, ih]
      constructor
      · rintro (htest | ⟨before, after, rfl, htest⟩)
        · exact ⟨[], c :: t, rfl, htest⟩
        · exact ⟨c :: before, after, rfl, htest⟩
      · rintro ⟨before, after, heq, htest⟩
        cases before with
        | nil => exact .inl (heq ▸ htest)
        | cons d before => exact .inr ⟨before, after, (List.cons.inj heq).2, htest⟩

/-- A `*` holds of any run of characters, with the rest of the pattern behind it. -/
theorem holds_anyRun {p : GlobPattern} {name : Text} :
    holds (.anyRun :: p) name = true ↔ ∃ stem rest, name = stem ++ rest ∧ holds p rest = true := by
  rw [holds]
  exact anySuffix_iff

theorem holds_chars {t name : Text} : holds (t.map .char) name = true ↔ name = t := by
  induction t generalizing name with
  | nil => cases name <;> simp [holds]
  | cons c t ih =>
      cases name with
      | nil => simp [holds]
      | cons d name =>
          simp only [List.map_cons, holds, Bool.and_eq_true, decide_eq_true_iff, ih,
            List.cons.injEq, eq_comm (a := c)]

/-- The names with an extension: any characters, a dot, and the extension. -/
def suffix (extension : Text) : GlobPattern :=
  .anyRun :: ('.' :: extension).map .char

/-- The last pattern holds of the names that end in a dot and the extension. -/
theorem holds_suffix {extension name : Text} :
    (suffix extension).holds name = true ↔ ∃ stem, name = stem ++ '.' :: extension := by
  rw [suffix, holds_anyRun]
  constructor
  · rintro ⟨stem, rest, rfl, hrest⟩
    exact ⟨stem, by rw [holds_chars.mp hrest]⟩
  · rintro ⟨stem, rfl⟩
    exact ⟨stem, _, rfl, holds_chars.mpr rfl⟩

/-- The pattern of a single name: a character that is special stands in a class of its own. -/
def exactly (name : Text) : GlobPattern :=
  name.map fun c => if isWild c then .oneOf [.single c] else .char c

/-- An escaped text holds of itself only. -/
theorem holds_exactly {t name : Text} : (exactly t).holds name = true ↔ name = t := by
  induction t generalizing name with
  | nil => cases name <;> simp [exactly, holds]
  | cons c t ih =>
      have hstep : exactly (c :: t) = (if isWild c then .oneOf [.single c] else .char c) ::
          exactly t := rfl
      rw [hstep]
      cases name with
      | nil => split <;> simp [holds]
      | cons d name =>
          split <;> simp only [holds, ClassItem.holds, List.any_cons, List.any_nil, Bool.or_false,
            Bool.and_eq_true, decide_eq_true_iff, ih, List.cons.injEq, eq_comm (a := c)]

theorem literal?_exactly (t : Text) :
    (exactly t).literal? = if t.any isWild then none else some t := by
  induction t with
  | nil => rfl
  | cons c t ih =>
      have hstep : exactly (c :: t) = (if isWild c then .oneOf [.single c] else .char c) ::
          exactly t := rfl
      rw [hstep]
      cases hc : isWild c with
      | true => simp [literal?, hc]
      | false =>
          simp only [Bool.false_eq_true, if_false, literal?, ih, List.any_cons, hc, Bool.false_or]
          split <;> rfl

theorem isRecursive_exactly (t : Text) : (exactly t).isRecursive = false := by
  rw [isRecursive, Bool.eq_false_iff]
  intro h
  obtain ⟨c, -, hc⟩ := List.mem_map.mp (List.contains_iff_mem.mp h)
  split at hc <;> cases hc

/-! ### How patterns are read -/

/-- A character without a meaning of its own is read as itself. -/
theorem read_char {c : Char} (hany : c ≠ '?') (hrun : c ≠ '*') (hclass : c ≠ '[')
    (fuel position : Nat) (atStart : Bool) (rest : Text) :
    read (fuel + 1) position atStart (c :: rest) =
      (read fuel (position + 1) (c = '/') rest).map (.char c :: ·) := by
  simp only [read, if_neg hany, if_neg hrun, if_neg hclass]

theorem exists_read_class {rest more : Text} {token : GlobToken}
    (h : class? rest = some (token, more)) (fuel position : Nat) (atStart : Bool) :
    ∃ position', read (fuel + 1) position atStart ('[' :: rest) =
      (read fuel position' false more).map (token :: ·) := by
  refine ⟨position + ('[' :: rest).length - more.length, ?_⟩
  simp [read, h]

/-- A text without special characters stands for itself. -/
theorem read_of_not_wild {t : Text} (h : ∀ c ∈ t, isWild c = false) {fuel : Nat}
    (hfuel : t.length ≤ fuel) (position : Nat) (atStart : Bool) :
    read fuel position atStart t = .ok (t.map .char) := by
  induction t generalizing fuel position atStart with
  | nil => cases fuel <;> rfl
  | cons c t ih =>
      cases fuel with
      | zero => cases hfuel
      | succ fuel =>
          obtain ⟨hc, ht⟩ := List.forall_mem_cons.mp h
          obtain ⟨hany, hrun, hclass, -⟩ := isWild_eq_false_iff.mp hc
          rw [read_char hany hrun hclass, ih ht (Nat.le_of_succ_le_succ hfuel)]
          rfl

/-- The pattern of an extension is read as meant when the extension has no wildcard. -/
theorem ofText_suffix {extension : Text} (h : ∀ c ∈ extension, isWild c = false) :
    ofText ('*' :: '.' :: extension) = .ok (suffix extension) := by
  have hrest := read_of_not_wild (t := '.' :: extension)
    (List.forall_mem_cons.mpr ⟨rfl, h⟩) (Nat.le_refl _) 1 false
  show (read ('.' :: extension).length 1 false ('.' :: extension)).map (.anyRun :: ·) = _
  rw [hrest]
  rfl

theorem escape_cons (c : Char) (t : Text) :
    escape (c :: t) = (if isWild c then ['[', c, ']'] else [c]) ++ escape t := by
  simp only [escape, List.flatMap_cons, isWild, Bool.or_eq_true, decide_eq_true_eq]

theorem exactly_cons (c : Char) (t : Text) :
    exactly (c :: t) = (if isWild c then .oneOf [.single c] else .char c) :: exactly t := rfl

/-- A special character in a class of its own. -/
theorem class?_of_isWild {c : Char} (h : isWild c = true) (rest : Text) :
    class? (c :: ']' :: rest) = some (.oneOf [.single c], rest) := by
  unfold class?
  split
  · next heq =>
      obtain ⟨rfl, -⟩ := List.cons.inj heq
      cases h
  · rfl

/-- An escaped text is read as the pattern of a single name. -/
theorem read_escape {t : Text} {fuel : Nat} (hfuel : (escape t).length ≤ fuel) (position : Nat)
    (atStart : Bool) : read fuel position atStart (escape t) = .ok (exactly t) := by
  induction t generalizing fuel position atStart with
  | nil => cases fuel <;> rfl
  | cons c t ih =>
      rw [escape_cons] at hfuel ⊢
      rw [exactly_cons]
      cases hc : isWild c with
      | true =>
          simp only [hc, if_true, List.cons_append, List.nil_append, List.length_cons] at hfuel ⊢
          obtain ⟨fuel, rfl⟩ := Nat.exists_eq_add_one.mpr (Nat.lt_of_lt_of_le (by omega) hfuel)
          obtain ⟨position', hread⟩ :=
            exists_read_class (class?_of_isWild hc (escape t)) fuel position atStart
          rw [hread, ih (by omega)]
          rfl
      | false =>
          simp only [hc, Bool.false_eq_true, if_false, List.cons_append, List.nil_append,
            List.length_cons] at hfuel ⊢
          obtain ⟨fuel, rfl⟩ := Nat.exists_eq_add_one.mpr (Nat.lt_of_lt_of_le (by omega) hfuel)
          obtain ⟨hany, hrun, hopen, -⟩ := isWild_eq_false_iff.mp hc
          rw [read_char hany hrun hopen, ih (by omega)]
          rfl

/-- **Escaping undoes wildcards**: an escaped text is read as the pattern that holds of it only. -/
theorem ofText_escape (t : Text) : ofText (escape t) = .ok (exactly t) :=
  read_escape (Nat.le_refl _) 0 true

theorem exists_of_map_eq_ok {α β ε : Type} {f : α → β} {x : Except ε α} {b : β}
    (h : x.map f = .ok b) : ∃ a, x = .ok a ∧ f a = b := by
  cases x with
  | error e => cases h
  | ok a => exact ⟨a, rfl, Except.ok.inj h⟩

/-- A class is not a run of directories, and what follows it is cut out of the text. -/
theorem class?_eq_some {t more : Text} {token : GlobToken} (h : class? t = some (token, more)) :
    token ≠ .anyDirectories ∧ more ⊆ t := by
  have hcut : ∀ {u items rest : Text}, classText? u = some (items, rest) → rest ⊆ u := by
    intro u items rest hu
    cases u with
    | nil => cases hu
    | cons c u =>
        obtain ⟨⟨before, after⟩, hafter, heq⟩ := Option.map_eq_some_iff.mp hu
        obtain ⟨-, rfl⟩ := Prod.mk.inj heq
        rw [Text.eq_of_cut? hafter]
        intro d hd
        exact List.mem_cons_of_mem _ (List.mem_append_right _ (List.mem_cons_of_mem _ hd))
  unfold class? at h
  split at h
  · obtain ⟨⟨items, rest⟩, hrest, heq⟩ := Option.map_eq_some_iff.mp h
    obtain ⟨rfl, rfl⟩ := Prod.mk.inj heq
    exact ⟨nofun, List.subset_cons_of_subset _ (hcut hrest)⟩
  · obtain ⟨⟨items, rest⟩, hrest, heq⟩ := Option.map_eq_some_iff.mp h
    obtain ⟨rfl, rfl⟩ := Prod.mk.inj heq
    exact ⟨nofun, hcut hrest⟩

/-- A run of directories can stand only where a component starts. -/
theorem not_mem_of_read {t : Text} (hslash : '/' ∉ t) {fuel position : Nat} {p : GlobPattern}
    (h : read fuel position false t = .ok p) : .anyDirectories ∉ p := by
  induction fuel generalizing t position p with
  | zero =>
      obtain rfl := Except.ok.inj h
      exact List.not_mem_nil
  | succ fuel ih =>
      have hstep : ∀ (token : GlobToken) {rest : Text} {position : Nat},
          token ≠ .anyDirectories → '/' ∉ rest →
            (read fuel position false rest).map (token :: ·) = .ok p → .anyDirectories ∉ p := by
        intro token rest position htoken hrest hread
        obtain ⟨q, hq, rfl⟩ := exists_of_map_eq_ok hread
        exact fun hmem => (List.mem_cons.mp hmem).elim (fun heq => htoken heq.symm) (ih hrest hq)
      cases t with
      | nil =>
          obtain rfl := Except.ok.inj h
          exact List.not_mem_nil
      | cons c t =>
          obtain ⟨hc, ht⟩ := not_or.mp (mt List.mem_cons.mpr hslash)
          unfold read at h
          split at h
          · exact hstep .anyChar nofun ht h
          · split at h
            · split at h
              · cases h
              · cases h
              · exact hstep .anyRun nofun ht h
            · split at h
              · split at h
                · cases h
                · next token more hclass =>
                    obtain ⟨htoken, hmore⟩ := class?_eq_some hclass
                    exact hstep token htoken (fun hmem => ht (hmore hmem)) h
              · rw [decide_eq_false (Ne.symm hc)] at h
                exact hstep (.char c) nofun ht h

/-- What the last component of a pattern is read as: a run of characters, a dot, and more. -/
structure IsSuffix (p : GlobPattern) : Prop where
  starts : ∃ rest, p = .anyRun :: .char '.' :: rest
  plain : p.isRecursive = false

/-- Whatever the extension reads as, its pattern starts with a `*` and a dot. -/
theorem isSuffix_of_ofText {extension : Text} (hslash : '/' ∉ extension) {p : GlobPattern}
    (h : ofText ('*' :: '.' :: extension) = .ok p) : IsSuffix p := by
  have hread : read ('.' :: extension).length 1 false ('.' :: extension) =
      (read extension.length 2 false extension).map (.char '.' :: ·) :=
    read_char (by decide) (by decide) (by decide) _ _ _ _
  have hrun : ofText ('*' :: '.' :: extension) =
      (read ('.' :: extension).length 1 false ('.' :: extension)).map (.anyRun :: ·) := rfl
  rw [hrun, hread] at h
  obtain ⟨q, hq, rfl⟩ := exists_of_map_eq_ok h
  obtain ⟨rest, hrest, rfl⟩ := exists_of_map_eq_ok hq
  refine ⟨⟨rest, rfl⟩, Bool.eq_false_iff.mpr fun hmem => ?_⟩
  have hnot := not_mem_of_read hslash hrest
  simp [isRecursive, hnot] at hmem

end GlobPattern

/-! ### The components of the pattern of a build -/

/-- A text without separators in front of another one goes to its first part. -/
theorem Text.splitOn_append_of_not_mem {sep : Char} {w t part : Text} {parts : List Text}
    (hw : sep ∉ w) (ht : List.splitOn sep t = part :: parts) :
    List.splitOn sep (w ++ t) = (w ++ part) :: parts := by
  induction w with
  | nil => exact ht
  | cons c w ih =>
      obtain ⟨hc, hw⟩ := not_or.mp (mt List.mem_cons.mpr hw)
      exact Text.splitOn_cons_of_ne (Ne.symm hc) (ih hw)

namespace GlobPattern

/-- Escaping keeps the slashes where they are. -/
theorem splitOn_escape (t : Text) :
    List.splitOn '/' (escape t) = (List.splitOn '/' t).map escape := by
  induction t with
  | nil => rfl
  | cons c t ih =>
      obtain ⟨part, parts, ht⟩ := List.exists_cons_of_ne_nil (List.splitOn_ne_nil '/' t)
      rw [ht, List.map_cons] at ih
      by_cases hc : c = '/'
      · subst hc
        show List.splitOn '/' ('/' :: escape t) = _
        rw [Text.splitOn_cons_self, Text.splitOn_cons_self, ht, ih]
        rfl
      · have hword : '/' ∉ (if isWild c then ['[', c, ']'] else [c]) := by
          split <;> simp [Ne.symm hc]
        rw [escape_cons, Text.splitOn_append_of_not_mem hword ih, Text.splitOn_cons_of_ne hc ht,
          List.map_cons, escape_cons]

end GlobPattern

namespace PathPattern

/-- Escaped parts are read one by one, as the texts they are made from. -/
theorem readAll_escape_append (ts us : List Text) :
    readAll (ts.map GlobPattern.escape ++ us) =
      (readAll us).map (ts.map GlobPattern.exactly ++ ·) := by
  induction ts with
  | nil => cases hus : readAll us <;> simp [hus, Except.map]
  | cons t ts ih =>
      rw [List.map_cons, List.cons_append, readAll, GlobPattern.ofText_escape, ih]
      cases readAll us <;> rfl

/-- The components of a pattern for relative paths. -/
theorem ofText_relative {t : Text} {pattern : PathPattern} (hrelative : ∀ rest, t ≠ '/' :: rest)
    (h : ofText t = .ok pattern) :
    ∃ ps, readAll (parts t) = .ok ps ∧ pattern = ⟨false, ps, t.getLast? = some '/'⟩ := by
  unfold ofText at h
  cases hread : GlobPattern.ofText t with
  | error e => simp [hread, bind, Except.bind] at h
  | ok _ =>
      simp only [hread, bind, Except.bind] at h
      cases hparts : readAll (parts t) with
      | error e => simp [hparts] at h
      | ok ps =>
          simp only [hparts, Bool.false_and, Bool.false_eq_true, if_false] at h
          exact ⟨ps, rfl, (Except.ok.inj h).symm⟩

/-- The components of a pattern for absolute paths, other than that of the top alone. -/
theorem ofText_absolute {t : Text} {pattern : PathPattern} (hne : t ≠ [])
    (h : ofText ('/' :: t) = .ok pattern) :
    ∃ ps, readAll (parts t) = .ok ps ∧
      pattern = ⟨true, ps, ('/' :: t).getLast? = some '/'⟩ := by
  unfold ofText at h
  cases hread : GlobPattern.ofText ('/' :: t) with
  | error e => simp [hread, bind, Except.bind] at h
  | ok _ =>
      simp only [hread, bind, Except.bind] at h
      cases hparts : readAll (parts t) with
      | error e => simp [hparts] at h
      | ok ps =>
          simp only [hparts, Bool.true_and, List.isEmpty_iff, if_neg hne] at h
          exact ⟨ps, rfl, (Except.ok.inj h).symm⟩

end PathPattern

namespace BuildOptions

/-- Holds when the search for templates starts at the top of the disk. -/
def fromTop (options : BuildOptions) : Bool :=
  options.templatesDir.text.isEmpty || options.templatesDir.isAbsolute

/-- The segments of the templates directory that the search follows. -/
def dirParts (options : BuildOptions) : List Text :=
  if options.fromTop then options.templatesDir.segments.tail else options.templatesDir.segments

variable {options : BuildOptions}

/-- The text of the last two components of a pattern: any directories, then names with the
extension. -/
def patternEnd (options : BuildOptions) : Text :=
  "**".toList ++ '/' :: '*' :: '.' :: options.extension

/-- The pattern of a build is the escaped directory and the pattern of the extension. -/
theorem patternText_eq (options : BuildOptions) :
    options.patternText =
      GlobPattern.escape options.templatesDir.text ++ '/' :: options.patternEnd := by
  simp [patternText, patternEnd]

variable (hslash : '/' ∉ options.extension)

include hslash

theorem getLast?_append_patternEnd (t : Text) :
    (t ++ '/' :: options.patternEnd).getLast? ≠ some '/' := by
  intro h
  have hend : t ++ '/' :: options.patternEnd =
      (t ++ "/**/*".toList) ++ '.' :: options.extension := by
    simp [patternEnd]
  rw [hend, List.getLast?_append_of_ne_nil _ (List.cons_ne_nil _ _)] at h
  rcases List.mem_cons.mp (List.mem_of_getLast? h) with hdot | hmem
  · cases hdot
  · exact hslash hmem

/-- The components of the text of a pattern, when those before its end are known. -/
theorem parts_of_splitOn {t : Text} (before : List Text)
    (h : List.splitOn '/' t = before ++ List.splitOn '/' options.patternEnd) :
    PathPattern.parts t = before ++ ["**".toList, '*' :: '.' :: options.extension] := by
  have hstars : '/' ∉ "**".toList := by decide
  have hlast : '/' ∉ '*' :: '.' :: options.extension := by simp [hslash]
  rw [patternEnd, List.splitOn_append_cons_self, List.splitOn_eq_singleton hstars,
    List.splitOn_eq_singleton hlast] at h
  simp [PathPattern.parts, h]

theorem readAll_of_parts (before : List Text) {ps : List GlobPattern}
    (h : PathPattern.readAll (before.map GlobPattern.escape ++
      ["**".toList, '*' :: '.' :: options.extension]) = .ok ps) :
    ∃ last, GlobPattern.ofText ('*' :: '.' :: options.extension) = .ok last ∧
      last.IsSuffix ∧ ps = before.map GlobPattern.exactly ++ [[.anyDirectories], last] := by
  rw [PathPattern.readAll_escape_append] at h
  obtain ⟨ends, hends, rfl⟩ := GlobPattern.exists_of_map_eq_ok h
  have hstars : GlobPattern.ofText "**".toList = .ok [.anyDirectories] := by rfl
  rw [PathPattern.readAll, hstars, PathPattern.readAll] at hends
  cases hlast : GlobPattern.ofText ('*' :: '.' :: options.extension) with
  | error e => rw [hlast] at hends; cases hends
  | ok last =>
      rw [hlast] at hends
      obtain rfl := Except.ok.inj hends
      exact ⟨last, rfl, GlobPattern.isSuffix_of_ofText hslash hlast, rfl⟩

/-- **The pattern of a build** has a component for each segment of the templates directory, which
stands for that segment alone, one for any directories, and one for the names with the
extension. -/
theorem pattern_eq_of_ofText {pattern : PathPattern}
    (h : PathPattern.ofText options.patternText = .ok pattern) :
    ∃ last, GlobPattern.ofText ('*' :: '.' :: options.extension) = .ok last ∧
      last.IsSuffix ∧
      pattern = ⟨options.fromTop, options.dirParts.map GlobPattern.exactly ++
        [[.anyDirectories], last], false⟩ := by
  have hfiles := getLast?_append_patternEnd hslash (GlobPattern.escape options.templatesDir.text)
  have hend : options.patternEnd ≠ [] := List.cons_ne_nil _ _
  -- the components of what follows the leading slash, if there is one
  have hsplit : ∀ t, List.splitOn '/' (GlobPattern.escape t ++ '/' :: options.patternEnd) =
      (List.splitOn '/' t).map GlobPattern.escape ++ List.splitOn '/' options.patternEnd := by
    intro t
    rw [List.splitOn_append_cons_self, GlobPattern.splitOn_escape]
  rw [patternText_eq] at h
  obtain ⟨t, htext⟩ : ∃ t, options.templatesDir = ⟨t⟩ := ⟨_, rfl⟩
  rw [dirParts, fromTop, htext]
  rw [htext] at h hfiles
  cases t with
  | nil =>
      obtain ⟨ps, hps, rfl⟩ := PathPattern.ofText_absolute hend h
      rw [parts_of_splitOn hslash [] rfl] at hps
      obtain ⟨last, hlast, hsuffix, rfl⟩ := readAll_of_parts hslash [] hps
      exact ⟨last, hlast, hsuffix, by simpa [Path.segments] using hfiles⟩
  | cons c t =>
      rw [Path.isAbsolute_cons]
      by_cases hc : c = '/'
      · subst hc
        have hne : GlobPattern.escape t ++ '/' :: options.patternEnd ≠ [] := by simp
        obtain ⟨ps, hps, rfl⟩ := PathPattern.ofText_absolute hne h
        rw [parts_of_splitOn hslash _ (hsplit t)] at hps
        obtain ⟨last, hlast, hsuffix, rfl⟩ := readAll_of_parts hslash _ hps
        refine ⟨last, hlast, hsuffix, ?_⟩
        have hfiles' : ('/' :: (GlobPattern.escape t ++ '/' :: options.patternEnd)).getLast? ≠
            some '/' := hfiles
        rw [decide_eq_false hfiles', Path.segments_cons_slash]
        rfl
      · have hrelative : ∀ rest,
            GlobPattern.escape (c :: t) ++ '/' :: options.patternEnd ≠ '/' :: rest := by
          intro rest heq
          rw [GlobPattern.escape_cons] at heq
          split at heq
          · cases (List.cons.inj heq).1
          · exact hc (List.cons.inj heq).1
        obtain ⟨ps, hps, rfl⟩ := PathPattern.ofText_relative hrelative h
        rw [parts_of_splitOn hslash _ (hsplit (c :: t))] at hps
        obtain ⟨last, hlast, hsuffix, rfl⟩ := readAll_of_parts hslash _ hps
        refine ⟨last, hlast, hsuffix, ?_⟩
        rw [decide_eq_false hfiles, decide_eq_false hc]
        rfl

end BuildOptions

end IndentHtml
