import IndentHtml.Proofs.Decoding

/-!
# Commas and spaces in an attribute list

A list of attributes may be written with `, ` between each two or with a single space.  A comma
always separates, but a space separates only in front of a name and `=`, so a flag behind another
attribute needs the comma: `checked disabled` is one token, whose name is `checkeddisabled`.

**Both spellings give the same attributes** just when every attribute but the first has a value
(`Element.attributes_spaced_iff`).  With a flag behind another attribute the spaced list has fewer
tokens than attributes, and so fewer attributes are written.
-/

namespace IndentHtml

open Piece (IsName)

namespace Html.Attribute

/-! ### Attributes as they stand in a list -/

/-- An attribute as it stands in a list, its value between double quotes. -/
def source (a : Attribute) : Text :=
  match a.value with
  | none => a.name
  | some v => a.name ++ '=' :: '"' :: (v ++ ['"'])

/-- A name, and a value without commas, spaces, quotes and parentheses. -/
structure Simple (a : Attribute) : Prop where
  name : IsName a.name
  value : ∀ v ∈ a.value, ∀ c ∈ v, c ≠ ',' ∧ Text.isSpace c = false ∧ c ≠ '"' ∧ c ≠ '\'' ∧
    c ≠ '(' ∧ c ≠ ')'

theorem simple_flag {name : Text} (h : IsName name) : Simple ⟨name, none⟩ :=
  ⟨h, fun _ hv => by cases hv⟩

/-- A character that ends no token and no list. -/
def IsInner (c : Char) : Prop :=
  c ≠ ',' ∧ Text.isSpace c = false ∧ c ≠ '(' ∧ c ≠ ')'

theorem isInner_of_isNameChar {c : Char} (h : Text.isNameChar c = true) : IsInner c := by
  refine ⟨?_, ?_, ?_, ?_⟩
  · rintro rfl
    cases h
  · refine Bool.eq_false_iff.mpr fun hspace => ?_
    simp only [Text.isSpace, Bool.or_eq_true, decide_eq_true_eq] at hspace
    rcases hspace with ((((rfl | rfl) | rfl) | rfl) | rfl) | rfl
    all_goals cases h
  · rintro rfl
    cases h
  · rintro rfl
    cases h

theorem Simple.isInner {a : Attribute} (h : a.Simple) {c : Char} (hc : c ∈ a.source) :
    IsInner c := by
  obtain ⟨name, value⟩ := a
  cases value with
  | none => exact isInner_of_isNameChar (h.name.2 c hc)
  | some v =>
      have hchars : c ∈ name ∨ c = '=' ∨ c = '"' ∨ c ∈ v ∨ c = '"' := by
        simpa [source] using hc
      rcases hchars with hc | rfl | rfl | hc | rfl
      · exact isInner_of_isNameChar (h.name.2 c hc)
      · exact ⟨by decide, rfl, by decide, by decide⟩
      · exact ⟨by decide, rfl, by decide, by decide⟩
      · obtain ⟨hcomma, hspace, -, -, hopen, hclose⟩ := h.value v rfl c hc
        exact ⟨hcomma, hspace, hopen, hclose⟩
      · exact ⟨by decide, rfl, by decide, by decide⟩

/-- An attribute starts with a character of its name. -/
theorem exists_source_eq {a : Attribute} (h : IsName a.name) :
    ∃ c rest, a.source = c :: rest ∧ Text.isNameChar c = true := by
  obtain ⟨name, value⟩ := a
  obtain ⟨c, more, hname⟩ := List.exists_cons_of_ne_nil h.1
  have hc : Text.isNameChar c = true := h.2 c (hname ▸ List.mem_cons_self)
  obtain rfl : name = c :: more := hname
  cases value with
  | none => exact ⟨c, more, rfl, hc⟩
  | some v => exact ⟨c, _, rfl, hc⟩

/-- An attribute ends with a character of its name or with a quote. -/
theorem not_isMargin_getLast? {a : Attribute} (h : IsName a.name) {c : Char}
    (hc : c ∈ a.source.getLast?) : Text.isMargin c = false := by
  obtain ⟨name, value⟩ := a
  cases value with
  | none => exact AttributeList.isMargin_of_isNameChar (h.2 c (List.mem_of_getLast? hc))
  | some v =>
      have hlast : source ⟨name, some v⟩ = (name ++ '=' :: '"' :: v) ++ ['"'] := by simp [source]
      rw [hlast, List.getLast?_concat] at hc
      obtain rfl := Option.some.inj hc
      rfl

/-- No margin stands at the ends of an attribute, or of a text that starts with one and ends with
one. -/
theorem trim_eq_self {a b : Attribute} (ha : IsName a.name) (hb : IsName b.name) {t : Text}
    (hstart : a.source <+: t) (hend : b.source <:+ t) : Text.trim t = t := by
  obtain ⟨c, rest, hsource, hname⟩ := exists_source_eq ha
  obtain ⟨d, more, hother, -⟩ := exists_source_eq hb
  refine Text.trim_eq_self (fun x hx => ?_) (fun x hx => ?_)
  · obtain ⟨u, rfl⟩ := hstart
    rw [hsource] at hx
    obtain rfl := Option.some.inj hx
    exact AttributeList.isMargin_of_isNameChar hname
  · obtain ⟨u, rfl⟩ := hend
    rw [List.getLast?_append_of_ne_nil _ (by simp [hother])] at hx
    exact not_isMargin_getLast? hb hx

end Html.Attribute

namespace AttributeList

open Html (Attribute)

/-! ### Reading one attribute -/

theorem nameOf_eq_self {name : Text} (h : IsName name) : nameOf name = name :=
  List.filter_eq_self.mpr h.2

/-- The value between double quotes, whatever margin it has itself. -/
theorem unquote_quoted (v : Text) : unquote (Text.trim ('"' :: (v ++ ['"']))) = v := by
  have hlast : ('"' :: (v ++ ['"'])).getLast? = some '"' := by
    rw [← List.cons_append]
    exact List.getLast?_concat
  have htrim : Text.trim ('"' :: (v ++ ['"'])) = '"' :: (v ++ ['"']) := by
    refine Text.trim_eq_self (fun c hc => ?_) (fun c hc => ?_)
    · obtain rfl := Option.some.inj hc
      rfl
    · rw [hlast] at hc
      obtain rfl := Option.some.inj hc
      rfl
  rw [htrim, unquote, if_pos hlast, List.dropLast_concat]

/-- An attribute is read as it stands in a list. -/
theorem attribute?_source {a : Attribute} (h : IsName a.name) : attribute? a.source = some a := by
  have htrim := Attribute.trim_eq_self h h (List.prefix_refl a.source) (List.suffix_refl a.source)
  obtain ⟨name, value⟩ := a
  have hname : nameOf name = name := nameOf_eq_self h
  have hne : ¬ name.isEmpty = true := fun hnil => h.1 (List.isEmpty_iff.mp hnil)
  have hequals : '=' ∉ name := h.not_mem (by rfl)
  rw [attribute?, htrim]
  cases value with
  | none =>
      have hcut : Text.cut? '=' name = none := by
        refine Option.eq_none_iff_forall_ne_some.mpr fun parts hparts => hequals ?_
        rw [Text.eq_of_cut? hparts]
        exact List.mem_append_right _ List.mem_cons_self
      rw [Attribute.source, hcut]
      dsimp only
      rw [hname, if_neg hne]
  | some v =>
      have hkey : nameOf (Text.trim name) = name := (nameOf_trim name).trans hname
      rw [Attribute.source, Text.cut?_append hequals]
      dsimp only
      rw [if_neg (by rwa [hkey]), hkey, unquote_quoted]

/-- Attributes are read from the tokens they are written as. -/
theorem filterMap_attribute?_of_isName {as : List Attribute} (h : ∀ a ∈ as, IsName a.name) :
    (as.map Attribute.source).filterMap attribute? = as := by
  induction as with
  | nil => rfl
  | cons a as ih =>
      obtain ⟨ha, has⟩ := List.forall_mem_cons.mp h
      rw [List.map_cons, List.filterMap_cons_some (attribute?_source ha), ih has]

theorem filterMap_attribute?_source {as : List Attribute} (h : ∀ a ∈ as, a.Simple) :
    (as.map Attribute.source).filterMap attribute? = as :=
  filterMap_attribute?_of_isName fun a ha => (h a ha).name

/-! ### Splitting the list -/

/-- The characters of an attribute are a part of one token. -/
theorem splitFirst_source {u : Text} (h : ∀ c ∈ u, Attribute.IsInner c) (t : Text) :
    splitFirst (u ++ t) = (u ++ (splitFirst t).1, (splitFirst t).2) := by
  induction u with
  | nil => rfl
  | cons c u ih =>
      obtain ⟨hc, hu⟩ := List.forall_mem_cons.mp h
      rw [List.cons_append, splitFirst_plain hc.1 hc.2.1, ih hu]
      rfl

/-- A name, and a value that is not split where it stands in a list. -/
structure Kept (a : Attribute) : Prop where
  name : IsName a.name
  unsplit : ∀ t, splitFirst (a.source ++ t) = (a.source ++ (splitFirst t).1, (splitFirst t).2)

theorem kept_of_simple {a : Attribute} (h : a.Simple) : Kept a :=
  ⟨h.name, splitFirst_source fun _ hc => h.isInner hc⟩

theorem tokens_source {a : Attribute} (h : Kept a) (t : Text) :
    tokens (a.source ++ t) = (a.source ++ (splitFirst t).1) :: (splitFirst t).2 := by
  rw [tokens, h.unsplit]

/-- The attributes of a list with a separator between each two. -/
def listed (separator : Text) (as : List Attribute) : Text :=
  List.intercalate separator (as.map Attribute.source)

theorem listed_singleton (separator : Text) (a : Attribute) : listed separator [a] = a.source :=
  List.intercalate_singleton

theorem listed_cons_cons (separator : Text) (a b : Attribute) (as : List Attribute) :
    listed separator (a :: b :: as) = a.source ++ (separator ++ listed separator (b :: as)) := by
  rw [listed, List.map_cons, List.map_cons, List.intercalate_cons_cons, List.append_assoc]
  rfl

theorem exists_listed_eq (separator : Text) (a : Attribute) (as : List Attribute) :
    ∃ rest, listed separator (a :: as) = a.source ++ rest := by
  cases as with
  | nil => exact ⟨[], by rw [listed_singleton, List.append_nil]⟩
  | cons b as => exact ⟨_, listed_cons_cons separator a b as⟩

theorem exists_suffix_listed (separator : Text) (a : Attribute) (as : List Attribute) :
    ∃ b ∈ a :: as, b.source <:+ listed separator (a :: as) := by
  induction as generalizing a with
  | nil => exact ⟨a, List.mem_cons_self, [], (listed_singleton separator a).symm⟩
  | cons b as ih =>
      obtain ⟨last, hlast, hsuffix⟩ := ih b
      refine ⟨last, List.mem_cons_of_mem a hlast, hsuffix.trans ?_⟩
      rw [listed_cons_cons, ← List.append_assoc]
      exact List.suffix_append _ _

theorem trim_listed_of_isName (separator : Text) {as : List Attribute}
    (h : ∀ a ∈ as, IsName a.name) : Text.trim (listed separator as) = listed separator as := by
  cases as with
  | nil => rfl
  | cons a as =>
      obtain ⟨rest, hrest⟩ := exists_listed_eq separator a as
      obtain ⟨b, hb, hsuffix⟩ := exists_suffix_listed separator a as
      exact Attribute.trim_eq_self (h a List.mem_cons_self) (h b hb) ⟨rest, hrest.symm⟩ hsuffix

theorem trim_listed (separator : Text) {as : List Attribute} (h : ∀ a ∈ as, a.Simple) :
    Text.trim (listed separator as) = listed separator as :=
  trim_listed_of_isName separator fun a ha => (h a ha).name

theorem no_parenthesis_of_mem_listed {separator : Text}
    (hopen : '(' ∉ separator) (hclose : ')' ∉ separator) {as : List Attribute}
    (h : ∀ a ∈ as, a.Simple) {c : Char} (hc : c ∈ listed separator as) : c ≠ '(' ∧ c ≠ ')' := by
  rcases Text.mem_intercalate hc with hc | ⟨t, ht, hc⟩
  · exact ⟨fun heq => hopen (heq ▸ hc), fun heq => hclose (heq ▸ hc)⟩
  · obtain ⟨a, ha, rfl⟩ := List.mem_map.mp ht
    exact ((h a ha).isInner hc).2.2

/-- No space stands in front of a list. -/
theorem dropWhile_isSpace_listed (separator : Text) {a : Attribute} (h : IsName a.name)
    (as : List Attribute) :
    (listed separator (a :: as)).dropWhile Text.isSpace = listed separator (a :: as) := by
  obtain ⟨c, more, hsource, hname⟩ := Attribute.exists_source_eq h
  obtain ⟨rest, hrest⟩ := exists_listed_eq separator a as
  rw [hrest, hsource, List.cons_append,
    List.dropWhile_cons_of_neg (Bool.eq_false_iff.mp (Attribute.isInner_of_isNameChar hname).2.1)]

theorem tokens_listed_singleton (separator : Text) {a : Attribute} (h : Kept a) :
    tokens (listed separator [a]) = [a.source] := by
  have htokens := tokens_source h []
  rw [List.append_nil] at htokens
  rw [listed_singleton, htokens, splitFirst, List.append_nil]

/-- **Commas separate all attributes.** -/
theorem tokens_listed_comma {a : Attribute} (ha : Kept a) {as : List Attribute}
    (has : ∀ b ∈ as, Kept b) :
    tokens (listed ", ".toList (a :: as)) = (a :: as).map Attribute.source := by
  induction as generalizing a with
  | nil => exact tokens_listed_singleton _ ha
  | cons b as ih =>
      obtain ⟨hb, has⟩ := List.forall_mem_cons.mp has
      have hafter : afterSeparator? (", ".toList ++ listed ", ".toList (b :: as)) =
          some (listed ", ".toList (b :: as)) := by
        refine (afterSeparator?_comma (List.forall_mem_nil _)
          (' ' :: listed ", ".toList (b :: as))).trans (congrArg some ?_)
        exact (List.dropWhile_cons_of_pos (by rfl)).trans (dropWhile_isSpace_listed _ hb.name as)
      rw [listed_cons_cons, tokens_source ha, splitFirst_of_some hafter, List.append_nil,
        List.map_cons, ← ih hb has]
      rfl

theorem startsAssignment_append {name rest : Text} (h : IsName name)
    (hrest : Piece.Stops Text.isNameChar rest) :
    startsAssignment (name ++ rest) = (rest.dropWhile Text.isSpace).head?.any (· = '=') := by
  obtain ⟨htake, hdrop⟩ := Attribute.takeWhile_name h.2 hrest
  have hname : name.isEmpty = false := Bool.eq_false_iff.mpr fun hnil =>
    h.1 (List.isEmpty_iff.mp hnil)
  rw [startsAssignment, htake, hdrop, hname]
  cases rest.dropWhile Text.isSpace with
  | nil => rfl
  | cons c after =>
      by_cases hc : c = '='
      · subst hc
        rfl
      · rw [List.head?_cons, Option.any_some, decide_eq_false hc, Bool.not_false, Bool.true_and]
        split
        · next heq => exact absurd (List.cons.inj heq).1 hc
        · rfl

/-- A list of attributes starts with an assignment if the first one has a value: behind a flag the
list ends or goes on with another name. -/
theorem startsAssignment_listed {a : Attribute} (ha : a.Simple) {as : List Attribute}
    (has : ∀ b ∈ as, b.Simple) :
    startsAssignment (listed [' '] (a :: as)) = a.value.isSome := by
  obtain ⟨rest, hrest⟩ := exists_listed_eq [' '] a as
  obtain ⟨name, value⟩ := a
  cases value with
  | some v =>
      -- the `=` stands right behind the name
      have hassign : listed [' '] (⟨name, some v⟩ :: as) =
          name ++ '=' :: '"' :: (v ++ '"' :: rest) := by
        rw [hrest]
        simp [Attribute.source]
      rw [hassign, startsAssignment_append ha.name (Attribute.stops_cons '=' rfl _)]
      rfl
  | none =>
      cases as with
      | nil =>
          have hflag : listed [' '] [⟨name, none⟩] = name ++ [] :=
            (listed_singleton ..).trans (List.append_nil name).symm
          rw [hflag, startsAssignment_append ha.name (fun _ hc => by cases hc)]
          rfl
      | cons b as =>
          -- behind the flag and the space there is a character of the next name
          have hb := (has b List.mem_cons_self).name
          obtain ⟨c, more, hsource, hname⟩ := Attribute.exists_source_eq hb
          obtain ⟨after, hafter⟩ := exists_listed_eq [' '] b as
          have hne : decide (c = '=') = false := decide_eq_false fun heq => by
            subst heq
            cases hname
          have hsplit := listed_cons_cons [' '] ⟨name, none⟩ b as
          rw [List.singleton_append] at hsplit
          rw [hsplit, Attribute.source,
            startsAssignment_append ha.name (Attribute.stops_cons ' ' rfl _),
            List.dropWhile_cons_of_pos (by rfl), dropWhile_isSpace_listed _ hb, hafter, hsource]
          exact hne

/-- **A space separates in front of a value only**: a flag is added to the token before it. -/
theorem splitFirst_space {b : Attribute} (hb : b.Simple) {as : List Attribute}
    (has : ∀ c ∈ as, c.Simple) :
    splitFirst ([' '] ++ listed [' '] (b :: as)) =
      if b.value.isSome then ([], tokens (listed [' '] (b :: as)))
      else (' ' :: (splitFirst (listed [' '] (b :: as))).1,
        (splitFirst (listed [' '] (b :: as))).2) := by
  have hspace : ∀ c ∈ [' '], Text.isSpace c = true := List.forall_mem_singleton.mpr rfl
  have hdrop := dropWhile_isSpace_listed [' '] hb.name as
  have hcomma : (listed [' '] (b :: as)).head? ≠ some ',' := by
    obtain ⟨c, more, hsource, hname⟩ := Attribute.exists_source_eq hb.name
    obtain ⟨rest, hrest⟩ := exists_listed_eq [' '] b as
    rw [hrest, hsource]
    exact fun heq => (Attribute.isInner_of_isNameChar hname).1 (Option.some.inj heq)
  have hassign := startsAssignment_listed hb has
  split
  · next hvalue =>
      have hafter := afterSeparator?_run hspace (List.cons_ne_nil _ _) hdrop hcomma
      rw [if_pos (hassign.trans hvalue)] at hafter
      exact splitFirst_of_some hafter
  · next hflag =>
      exact splitFirst_run hspace hdrop hcomma (hassign.trans (Bool.eq_false_iff.mpr hflag))

/-- Spaces separate all attributes if only the first one may be a flag. -/
theorem tokens_listed_space {a : Attribute} (ha : a.Simple) {as : List Attribute}
    (has : ∀ b ∈ as, b.Simple) (hvalues : ∀ b ∈ as, b.value.isSome = true) :
    tokens (listed [' '] (a :: as)) = (a :: as).map Attribute.source := by
  induction as generalizing a with
  | nil => exact tokens_listed_singleton _ (kept_of_simple ha)
  | cons b as ih =>
      obtain ⟨hb, has⟩ := List.forall_mem_cons.mp has
      obtain ⟨hvalue, hvalues⟩ := List.forall_mem_cons.mp hvalues
      rw [listed_cons_cons, tokens_source (kept_of_simple ha), splitFirst_space hb has,
        if_pos hvalue, List.append_nil, List.map_cons, ← ih hb has hvalues]

/-- A spaced list has a token for its first attribute and one for each later value. -/
theorem length_tokens_listed_space {a : Attribute} (ha : a.Simple) {as : List Attribute}
    (has : ∀ b ∈ as, b.Simple) :
    (tokens (listed [' '] (a :: as))).length = as.countP (·.value.isSome) + 1 := by
  induction as generalizing a with
  | nil =>
      rw [tokens_listed_singleton _ (kept_of_simple ha)]
      rfl
  | cons b as ih =>
      obtain ⟨hb, has⟩ := List.forall_mem_cons.mp has
      have hlength := ih hb has
      rw [listed_cons_cons, tokens_source (kept_of_simple ha), splitFirst_space hb has,
        List.length_cons, List.countP_cons]
      split
      · next hvalue => rw [hlength]
      · next hflag => exact hlength

/-- A flag behind another attribute leaves fewer attributes in a spaced list. -/
theorem length_attributes_lt {a : Attribute} (ha : a.Simple) {as : List Attribute}
    (has : ∀ b ∈ as, b.Simple) (hflag : ∃ b ∈ as, b.value = none) :
    (attributes (listed [' '] (a :: as))).length < (a :: as).length := by
  have hcount : as.countP (·.value.isSome) < as.length := by
    obtain ⟨b, hb, hnone⟩ := hflag
    refine Nat.lt_of_le_of_ne List.countP_le_length fun hall => ?_
    have hsome := List.countP_eq_length.mp hall b hb
    rw [hnone] at hsome
    cases hsome
  calc (attributes (listed [' '] (a :: as))).length
      ≤ (tokens (listed [' '] (a :: as))).length := List.length_filterMap_le _ _
    _ = as.countP (·.value.isSome) + 1 := length_tokens_listed_space ha has
    _ < (a :: as).length := Nat.succ_lt_succ hcount

end AttributeList

/-! ### Parentheses -/

namespace Text

/-- Holds of a text whose parentheses come in pairs. -/
inductive Balanced : Text → Prop where
  | nil : Balanced []
  | char {c : Char} {t : Text} : c ≠ '(' → c ≠ ')' → Balanced t → Balanced (c :: t)
  | pair {inner rest : Text} :
      Balanced inner → Balanced rest → Balanced ('(' :: (inner ++ ')' :: rest))

theorem balanced_of_not_mem {t : Text} (hopen : '(' ∉ t) (hclose : ')' ∉ t) : Balanced t := by
  induction t with
  | nil => exact .nil
  | cons c t ih =>
      obtain ⟨ho, hopen⟩ := List.ne_and_not_mem_of_not_mem_cons hopen
      obtain ⟨hc, hclose⟩ := List.ne_and_not_mem_of_not_mem_cons hclose
      exact .char ho.symm hc.symm (ih hopen hclose)

theorem Balanced.append {t u : Text} (ht : Balanced t) (hu : Balanced u) : Balanced (t ++ u) := by
  induction ht with
  | nil => exact hu
  | char hopen hclose _ ih => exact .char hopen hclose ih
  | @pair inner rest hinner _ _ ih =>
      rw [List.cons_append, List.append_assoc]
      exact .pair hinner ih

/-- The closing parenthesis is searched for behind a balanced text. -/
theorem Balanced.closing? {t : Text} (h : Balanced t) (depth : Nat) (rest : Text) :
    Element.closing? depth (t ++ rest) =
      (Element.closing? depth rest).map fun p => (t ++ p.1, p.2) := by
  induction h generalizing depth rest with
  | nil => simp
  | @char c t hopen hclose _ ih =>
      rw [List.cons_append, Element.closing?.eq_def]
      dsimp only
      rw [if_neg hopen, if_neg hclose, ih, Option.map_map]
      rfl
  | @pair inner more _ _ ihinner ihmore =>
      -- the pair is entered with one depth more and left with one depth less
      have hclose : Element.closing? (depth + 1) (')' :: (more ++ rest)) =
          (Element.closing? depth (more ++ rest)).map fun p => (')' :: p.1, p.2) := by
        rw [Element.closing?, if_neg (by decide), if_pos rfl]
      rw [List.cons_append, List.append_assoc, List.cons_append, Element.closing?.eq_def]
      dsimp only
      rw [if_pos rfl, ihinner, hclose, ihmore, Option.map_map, Option.map_map, Option.map_map]
      simp [Function.comp_def]

/-- The parenthesis behind a balanced text closes the one before it. -/
theorem Balanced.closing?_close {t : Text} (h : Balanced t) (rest : Text) :
    Element.closing? 0 (t ++ ')' :: rest) = some (t, rest) := by
  rw [h.closing?, Element.closing?, if_neg (by decide), if_pos rfl, Option.map_some,
    List.append_nil]

end Text

/-! ### Elements with a list -/

/-- A name ends at a parenthesis. -/
theorem name_append_parenthesis (t u : Text) :
    (t ++ '(' :: u).takeWhile Text.isNameChar = t.takeWhile Text.isNameChar ∧
      (t ++ '(' :: u).dropWhile Text.isNameChar = t.dropWhile Text.isNameChar ++ '(' :: u := by
  induction t with
  | nil => exact ⟨rfl, rfl⟩
  | cons c t ih =>
      by_cases hc : Text.isNameChar c = true
      · rw [List.cons_append, List.takeWhile_cons_of_pos hc, List.dropWhile_cons_of_pos hc,
          List.takeWhile_cons_of_pos hc, List.dropWhile_cons_of_pos hc, ih.1, ih.2]
        exact ⟨rfl, rfl⟩
      · rw [List.cons_append, List.takeWhile_cons_of_neg hc, List.dropWhile_cons_of_neg hc,
          List.takeWhile_cons_of_neg hc, List.dropWhile_cons_of_neg hc]
        exact ⟨rfl, rfl⟩

theorem Selector.readAll_append_parenthesis (t u : Text) :
    readAll (t ++ '(' :: u) = ((readAll t).1, (readAll t).2 ++ '(' :: u) := by
  fun_induction readAll t with
  | case1 => rw [List.nil_append, readAll]; rfl
  | case2 t _ more ih =>
      obtain ⟨htake, hdrop⟩ := name_append_parenthesis t u
      rw [List.cons_append, readAll, if_pos rfl, htake, hdrop, ih]
  | case3 t _ _ more ih =>
      obtain ⟨htake, hdrop⟩ := name_append_parenthesis t u
      rw [List.cons_append, readAll, if_neg (by decide), if_pos rfl, htake, hdrop, ih]
  | case4 c t hid hclass =>
      rw [List.cons_append, readAll, if_neg hid, if_neg hclass]

namespace Element

open Html (Attribute)
open AttributeList (listed)

theorem readTag_append_parenthesis (t u : Text) :
    readTag (t ++ '(' :: u) = ((readTag t).1, (readTag t).2 ++ '(' :: u) := by
  cases t with
  | nil => rfl
  | cons c t =>
      obtain ⟨htake, hdrop⟩ := name_append_parenthesis (c :: t) u
      rw [List.cons_append] at htake hdrop ⊢
      rw [readTag, readTag]
      split
      · rw [htake, hdrop]
      · rfl

theorem closing?_append {list : Text} (h : ∀ c ∈ list, c ≠ '(' ∧ c ≠ ')') (rest : Text) :
    closing? 0 (list ++ ')' :: rest) = some (list, rest) :=
  (Text.balanced_of_not_mem (fun hmem => (h '(' hmem).1 rfl)
    (fun hmem => (h ')' hmem).2 rfl)).closing?_close rest

/-- Holds of a text that is a tag and selectors, either of which may be missing. -/
def IsHead (t : Text) : Prop :=
  (Selector.readAll (readTag t).2).2 = []

instance (t : Text) : Decidable (IsHead t) :=
  inferInstanceAs (Decidable (_ = _))

/-- An element line with a list in parentheses. -/
def withList (head list rest : Text) : Text :=
  head ++ '(' :: (list ++ ')' :: rest)

/-- The attributes of the list are read whatever stands around it. -/
theorem attributes_withList {head list : Text} (hhead : IsHead head)
    (hlist : ∀ c ∈ list, c ≠ '(' ∧ c ≠ ')') (htrim : Text.trim list = list) (rest : Text) :
    (ofLine (withList head list rest)).attributes =
      Selector.attributes (selectorsOf head) ++ AttributeList.attributes list := by
  have hselectors : Selector.readAll (readTag (withList head list rest)).2 =
      (selectorsOf head, '(' :: (list ++ ')' :: rest)) := by
    rw [withList, readTag_append_parenthesis, Selector.readAll_append_parenthesis, hhead]
    rfl
  have hinner : readParenthesised ('(' :: (list ++ ')' :: rest)) = (list, rest) := by
    rw [readParenthesised, closing?_append hlist]
    rfl
  rw [attributes_ofLine, selectorsOf, listOf, hselectors]
  dsimp only
  rw [hinner, htrim]

theorem attributes_listed_nil (separator : Text) :
    AttributeList.attributes (listed separator []) = [] := by
  rw [listed, List.map_nil, List.intercalate_nil, AttributeList.attributes, AttributeList.tokens,
    AttributeList.splitFirst]
  rfl

/-- A list written with commas has the attributes it is written from. -/
theorem attributes_listed_comma {as : List Attribute} (h : ∀ a ∈ as, AttributeList.Kept a) :
    AttributeList.attributes (listed ", ".toList as) = as := by
  cases as with
  | nil => exact attributes_listed_nil _
  | cons a as =>
      obtain ⟨ha, has⟩ := List.forall_mem_cons.mp h
      rw [AttributeList.attributes, AttributeList.tokens_listed_comma ha has,
        AttributeList.filterMap_attribute?_of_isName fun b hb => (h b hb).name]

theorem attributes_comma {as : List Attribute} (h : ∀ a ∈ as, a.Simple) :
    AttributeList.attributes (listed ", ".toList as) = as :=
  attributes_listed_comma fun a ha => AttributeList.kept_of_simple (h a ha)

/-- **Spaces for commas.**  An element line is written with the same attributes when the list is
spaced as when it has commas, just when every attribute but the first has a value. -/
theorem attributes_spaced_iff (scope : Scope) {head : Text} (hhead : IsHead head)
    {as : List Attribute} (has : ∀ a ∈ as, a.Simple) (rest : Text) :
    (Offsets.element scope (withList head (listed [' '] as) rest)).map (·.attributes) =
        (Offsets.element scope (withList head (listed ", ".toList as) rest)).map (·.attributes) ↔
      ∀ a ∈ as.tail, a.value.isSome = true := by
  have hspace := attributes_withList hhead
    (fun _ => AttributeList.no_parenthesis_of_mem_listed (by decide) (by decide) has)
    (AttributeList.trim_listed [' '] has) rest
  have hcomma := attributes_withList hhead
    (fun _ => AttributeList.no_parenthesis_of_mem_listed (by decide) (by decide) has)
    (AttributeList.trim_listed ", ".toList has) rest
  rw [attributes_comma has] at hcomma
  rw [Offsets.element_eq, Offsets.element_eq, Except.map, Except.map, Except.ok.injEq]
  dsimp only
  constructor
  · intro h
    -- what is written alike has as many attributes
    have hsame := congrArg List.length (Attribute.eq_of_printAll_eq
      (fun _ => isName_of_mem_resolve scope) (fun _ => isName_of_mem_resolve scope) h)
    rw [hspace, hcomma, List.length_map, List.length_map, List.length_append, List.length_append]
      at hsame
    cases as with
    | nil => exact fun _ ha => by cases ha
    | cons a as =>
        obtain ⟨ha, has⟩ := List.forall_mem_cons.mp has
        intro b hb
        refine Option.isSome_iff_ne_none.mpr fun hnone => ?_
        have hless := AttributeList.length_attributes_lt ha has ⟨b, hb, hnone⟩
        omega
  · intro h
    rw [hspace, hcomma]
    cases as with
    | nil => rw [attributes_listed_nil]
    | cons a as =>
        obtain ⟨ha, hmore⟩ := List.forall_mem_cons.mp has
        rw [AttributeList.attributes, AttributeList.tokens_listed_space ha hmore h,
          AttributeList.filterMap_attribute?_source has]

/-- A flag in front of a value may be followed by a space. -/
theorem attributes_spaced_of_flag_first :
    (Offsets.element (Scope.ofData []) "input.wide(checked name=\"q\") go".toList).map
        (·.attributes) =
      (Offsets.element (Scope.ofData []) "input.wide(checked, name=\"q\") go".toList).map
        (·.attributes) := by
  have hhead : IsHead "input.wide".toList := by decide +kernel
  have hvalue : Attribute.Simple ⟨"name".toList, some "q".toList⟩ := by
    refine ⟨by decide, fun v hv c hc => ?_⟩
    obtain rfl := Option.some.inj hv
    obtain rfl := List.mem_singleton.mp hc
    decide
  have hsimple : ∀ a ∈ [⟨"checked".toList, none⟩, ⟨"name".toList, some "q".toList⟩],
      Attribute.Simple a :=
    List.forall_mem_cons.mpr
      ⟨Attribute.simple_flag (by decide), List.forall_mem_singleton.mpr hvalue⟩
  exact (attributes_spaced_iff (Scope.ofData []) hhead hsimple " go".toList).mpr
    (List.forall_mem_singleton.mpr rfl)

/-- A flag behind another one needs its comma: `input(checked disabled)` has the one attribute
`checkeddisabled`. -/
theorem attributes_spaced_ne_of_flags :
    IsHead "input".toList ∧
      (∀ a ∈ [⟨"checked".toList, none⟩, ⟨"disabled".toList, none⟩], Attribute.Simple a) ∧
      (Offsets.element (Scope.ofData []) (withList "input".toList
          (listed [' '] [⟨"checked".toList, none⟩, ⟨"disabled".toList, none⟩]) [])).map
            (·.attributes) ≠
        (Offsets.element (Scope.ofData []) (withList "input".toList
          (listed ", ".toList [⟨"checked".toList, none⟩, ⟨"disabled".toList, none⟩]) [])).map
            (·.attributes) := by
  refine ⟨by decide +kernel, List.forall_mem_cons.mpr ⟨Attribute.simple_flag (by decide),
    List.forall_mem_singleton.mpr (Attribute.simple_flag (by decide))⟩, fun heq => ?_⟩
  have hspace := Offsets.element_eq (Scope.ofData []) "input(checked disabled)".toList
  have hcomma := Offsets.element_eq (Scope.ofData []) "input(checked, disabled)".toList
  have hsame := Except.ok.inj
    ((congrArg (Except.map (·.attributes)) hspace).symm.trans
      (heq.trans (congrArg (Except.map (·.attributes)) hcomma)))
  exact absurd hsame (by decide +kernel)

end Element

end IndentHtml
