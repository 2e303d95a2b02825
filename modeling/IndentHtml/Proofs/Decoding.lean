import IndentHtml.Proofs.Scanning

/-!
# Written attributes

A start tag is read back from its written form: an entity stands for its character
(`Html.unescape`), a name ends with its last name character, and a value ends before the next quote
(`Html.Attribute.read?`).  No value can break this, since an escaped value has no quote and its
ampersands all start entities.

**One list of attributes** (`Element.readAll?_written`).  What an element line is written with is
read back as the id and the classes of its selectors and then what its tokens give, in order.  A
token gives at most one attribute (`AttributeList.Gives`): the name characters before its first
`=`, and the interpolated text behind it.
-/

namespace IndentHtml

/-! ### Margins -/

namespace Text

theorem exists_eq_margin_append_trim (t : Text) :
    ∃ before after, (∀ c ∈ before, isMargin c = true) ∧ (∀ c ∈ after, isMargin c = true) ∧
      t = before ++ trim t ++ after := by
  have hleft : t.takeWhile isMargin ++ trimLeft t = t := List.takeWhile_append_dropWhile
  have hright : trim t ++ (trimLeft t).rtakeWhile isMargin = trimLeft t :=
    List.rdropWhile_append_rtakeWhile ..
  refine ⟨t.takeWhile isMargin, (trimLeft t).rtakeWhile isMargin,
    fun c hc => List.mem_takeWhile_imp hc, fun c hc => List.mem_rtakeWhile_imp hc, ?_⟩
  rw [List.append_assoc, hright, hleft]

/-- A margin behind a text is stripped with its own. -/
theorem trim_append_margin (t : Text) {after : Text} (h : ∀ c ∈ after, isMargin c = true) :
    trim (t ++ after) = trim t := by
  have hreverse : ∀ c ∈ after.reverse, isMargin c = true := fun c hc => h c (List.mem_reverse.mp hc)
  have hnothing : after.dropWhile isMargin = [] := List.dropWhile_eq_nil_iff.mpr h
  rw [trim, trim, trimLeft, trimLeft, List.dropWhile_append]
  split
  · next hblank => rw [hnothing, List.isEmpty_iff.mp hblank]
  · rw [List.reverse_append, List.dropWhile_append_of_pos hreverse]

/-- A text without a margin at its ends is left as it is. -/
theorem trim_eq_self {t : Text} (hhead : ∀ c ∈ t.head?, isMargin c = false)
    (hlast : ∀ c ∈ t.getLast?, isMargin c = false) : trim t = t := by
  have hkeep : ∀ {u : Text}, (∀ c ∈ u.head?, isMargin c = false) → u.dropWhile isMargin = u := by
    intro u hu
    cases u with
    | nil => rfl
    | cons c u => rw [List.dropWhile_cons_of_neg (by simp [hu c rfl])]
  rw [trim, trimLeft, hkeep hhead, hkeep (by rwa [List.head?_reverse]), List.reverse_reverse]

end Text

/-! ### Entities -/

namespace Html

/-- Reads the five entities as the characters they stand for, from left to right.  What starts no
entity stands for itself. -/
def unescape : Text → Text
  | '&' :: 'a' :: 'm' :: 'p' :: ';' :: t => '&' :: unescape t
  | '&' :: 'l' :: 't' :: ';' :: t => '<' :: unescape t
  | '&' :: 'g' :: 't' :: ';' :: t => '>' :: unescape t
  | '&' :: 'q' :: 'u' :: 'o' :: 't' :: ';' :: t => '"' :: unescape t
  | '&' :: '#' :: '0' :: '3' :: '9' :: ';' :: t => '\'' :: unescape t
  | c :: t => c :: unescape t
  | [] => []

theorem unescape_cons_of_ne {c : Char} (h : c ≠ '&') (t : Text) :
    unescape (c :: t) = c :: unescape t := by
  rw [unescape]
  all_goals exact fun _ hamp _ => h hamp

/-- An entity is read as its character, whatever follows. -/
theorem unescape_entity_append (c : Char) (t : Text) :
    unescape (entity c ++ t) = c :: unescape t := by
  unfold entity
  split
  · rfl
  · rfl
  · rfl
  · rfl
  · rfl
  · next hamp _ _ _ _ => exact unescape_cons_of_ne hamp t

theorem unescape_escape (t : Text) : unescape (escape t) = t := by
  induction t with
  | nil => rfl
  | cons c t ih => rw [escape_cons, unescape_entity_append, ih]

/-! ### Reading attributes -/

namespace Attribute

open Piece (IsName)

/-- Reads an attribute with the space before it; what follows it is left. -/
def read? : Text → Option (Attribute × Text)
  | ' ' :: t =>
      let name := t.takeWhile Text.isNameChar
      if name.isEmpty then none
      else
        match t.dropWhile Text.isNameChar with
        | '=' :: '"' :: rest =>
            (Text.cut? '"' rest).map fun p => (⟨name, some (unescape p.1)⟩, p.2)
        | rest => some (⟨name, none⟩, rest)
  | _ => none

theorem length_lt_of_read? {t rest : Text} {a : Attribute} (h : read? t = some (a, rest)) :
    rest.length < t.length := by
  unfold read? at h
  split at h
  · next t =>
      have hdrop := (List.dropWhile_sublist (l := t) Text.isNameChar).length_le
      dsimp only at h
      rw [List.length_cons]
      split at h
      · cases h
      · split at h
        · next inner hinner =>
            obtain ⟨⟨value, after⟩, hcut, heq⟩ := Option.map_eq_some_iff.mp h
            obtain rfl : after = _ := (Prod.mk.inj heq).2
            have hlength := congrArg List.length (Text.eq_of_cut? hcut)
            simp only [hinner, List.length_cons, List.length_append] at hdrop hlength
            omega
        · obtain ⟨-, rfl⟩ := Prod.mk.inj (Option.some.inj h)
          omega
  · cases h

/-- Reads a list of attributes, each with the space before it. -/
def readAll? : Text → Option (List Attribute)
  | [] => some []
  | c :: t =>
      match h : read? (c :: t) with
      | none => none
      | some (a, rest) =>
          have := length_lt_of_read? h
          (readAll? rest).map (a :: ·)
termination_by t => t.length
decreasing_by assumption

theorem readAll?_of_read? {t rest : Text} {a : Attribute} (h : read? t = some (a, rest)) :
    readAll? t = (readAll? rest).map (a :: ·) := by
  cases t with
  | nil => cases h
  | cons c t =>
      rw [readAll?]
      split
      · next hnone => cases hnone.symm.trans h
      · next other left hother =>
          obtain ⟨rfl, rfl⟩ := Prod.mk.inj (Option.some.inj (hother.symm.trans h))
          rfl

theorem stops_cons (c : Char) (h : Text.isNameChar c = false) (t : Text) :
    Piece.Stops Text.isNameChar (c :: t) :=
  fun _ hd => Option.some.inj hd ▸ h

/-- A name is read up to the first character that is no name character. -/
theorem takeWhile_name {name rest : Text} (h : ∀ c ∈ name, Text.isNameChar c = true)
    (hrest : Piece.Stops Text.isNameChar rest) :
    (name ++ rest).takeWhile Text.isNameChar = name ∧
      (name ++ rest).dropWhile Text.isNameChar = rest :=
  Piece.takeWhile_run h hrest

/-- **An attribute is read back**, when nothing or the space of another one follows. -/
theorem read?_print {a : Attribute} (h : IsName a.name) {rest : Text}
    (hrest : ∀ c ∈ rest.head?, c = ' ') : read? (a.print ++ rest) = some (a, rest) := by
  obtain ⟨name, value⟩ := a
  have hname : name.isEmpty = false := Bool.eq_false_iff.mpr fun hnil =>
    h.1 (List.isEmpty_iff.mp hnil)
  cases value with
  | none =>
      have hstops : Piece.Stops Text.isNameChar rest := by
        intro c hc
        rw [hrest c hc]
        rfl
      obtain ⟨htake, hdrop⟩ := takeWhile_name h.2 hstops
      show read? (' ' :: (name ++ rest)) = _
      rw [read?]
      rw [htake, hdrop, hname, if_neg Bool.false_ne_true]
      split
      · cases hrest '=' rfl
      · rfl
  | some v =>
      have hquote : '"' ∉ escape v := fun hmem => (isValue_escape v '"' hmem).2.2.1 rfl
      have hprint : print ⟨name, some v⟩ ++ rest =
          ' ' :: (name ++ '=' :: '"' :: (escape v ++ '"' :: rest)) := by simp [print]
      obtain ⟨htake, hdrop⟩ := takeWhile_name h.2
        (stops_cons '=' rfl ('"' :: (escape v ++ '"' :: rest)))
      rw [hprint, read?]
      rw [htake, hdrop, hname, if_neg Bool.false_ne_true]
      show (Text.cut? '"' (escape v ++ '"' :: rest)).map _ = _
      rw [Text.cut?_append hquote, Option.map_some, unescape_escape]

/-- **Attributes are read back** from their written form. -/
theorem readAll?_printAll {as : List Attribute} (h : ∀ a ∈ as, IsName a.name) :
    readAll? (printAll as) = some as := by
  induction as with
  | nil => rw [printAll, List.flatMap_nil, readAll?]
  | cons a as ih =>
      obtain ⟨ha, has⟩ := List.forall_mem_cons.mp h
      have hrest : ∀ c ∈ (printAll as).head?, c = ' ' := by
        intro c hc
        cases as with
        | nil => cases hc
        | cons b bs =>
            rw [printAll, List.flatMap_cons, Offsets.print_eq_cons] at hc
            exact (Option.some.inj hc).symm
      have hcons : printAll (a :: as) = a.print ++ printAll as := rfl
      rw [hcons, readAll?_of_read? (read?_print ha hrest), ih has, Option.map_some]

/-- Attributes with one written form are the same. -/
theorem eq_of_printAll_eq {as bs : List Attribute} (ha : ∀ a ∈ as, IsName a.name)
    (hb : ∀ b ∈ bs, IsName b.name) (h : printAll as = printAll bs) : as = bs := by
  have hread := readAll?_printAll ha
  rw [h, readAll?_printAll hb] at hread
  exact (Option.some.inj hread).symm

end Attribute

end Html

/-! ### Selectors -/

namespace Selector

/-- The names of the id selectors, in order. -/
def ids (selectors : List Selector) : List Text :=
  selectors.filterMap fun s => match s with | id name => some name | className _ => none

/-- The names of the class selectors, in order. -/
def classes (selectors : List Selector) : List Text :=
  selectors.filterMap fun s => match s with | id _ => none | className name => some name

theorem lastId_eq (selectors : List Selector) :
    lastId selectors = (ids selectors).getLast?.getD [] := by
  -- What has been found so far is the last id unless another one follows.
  suffices h : ∀ found, selectors.foldl
      (fun found s => match s with | id name => name | className _ => found) found =
        (ids selectors).getLast?.getD found from h []
  induction selectors with
  | nil => exact fun _ => rfl
  | cons s ss ih =>
      intro found
      cases s with
      | id name =>
          have hids : ids (id name :: ss) = name :: ids ss := rfl
          rw [List.foldl_cons, ih, hids, List.getLast?_cons, Option.getD_some]
      | className name => exact ih found

theorem classNames_eq (selectors : List Selector) :
    classNames selectors = (classes selectors).filter (!·.isEmpty) := by
  induction selectors with
  | nil => rfl
  | cons s ss ih =>
      cases s with
      | id name => exact ih
      | className name =>
          have hclasses : classes (className name :: ss) = name :: classes ss := rfl
          rw [classNames, List.filterMap_cons, hclasses, List.filter_cons]
          cases name with
          | nil => exact ih
          | cons c name => exact congrArg ((c :: name) :: ·) ih

/-- The attribute with a value, if there is a value. -/
def unlessEmpty (name value : Text) : List Html.Attribute :=
  if value.isEmpty then [] else [⟨name, some value⟩]

/-- The last id is written, and the classes that have a name, if there are any. -/
theorem attributes_eq (selectors : List Selector) :
    attributes selectors =
      unlessEmpty "id".toList ((ids selectors).getLast?.getD []) ++
        unlessEmpty "class".toList
          (List.intercalate [' '] ((classes selectors).filter (!·.isEmpty))) := by
  have hjoin : (List.intercalate [' '] (classNames selectors)).isEmpty =
      (classNames selectors).isEmpty := by
    cases hnames : classNames selectors with
    | nil => rfl
    | cons name names =>
        have hname : name ∈ classNames selectors := by rw [hnames]; exact List.mem_cons_self
        rw [classNames_eq] at hname
        cases name with
        | nil => cases (List.mem_filter.mp hname).2
        | cons c name => cases names <;> rfl
  rw [attributes, ← lastId_eq, ← classNames_eq, unlessEmpty, unlessEmpty, hjoin]

end Selector

/-! ### Tokens -/

namespace AttributeList

theorem isNameChar_of_isMargin {c : Char} (h : Text.isMargin c = true) :
    Text.isNameChar c = false := by
  simp only [Text.isMargin, Bool.or_eq_true, decide_eq_true_eq] at h
  rcases h with ((((rfl | rfl) | rfl) | rfl) | rfl) | rfl
  all_goals rfl

theorem isMargin_of_isNameChar {c : Char} (h : Text.isNameChar c = true) :
    Text.isMargin c = false :=
  Bool.eq_false_iff.mpr fun hmargin =>
    Bool.false_ne_true ((isNameChar_of_isMargin hmargin).symm.trans h)

theorem equals_not_mem_of_margin {t : Text} (h : ∀ c ∈ t, Text.isMargin c = true) : '=' ∉ t :=
  fun hmem => Bool.false_ne_true (h '=' hmem)

theorem nameOf_of_margin {t : Text} (h : ∀ c ∈ t, Text.isMargin c = true) : nameOf t = [] :=
  List.filter_eq_nil_iff.mpr fun c hc =>
    Bool.eq_false_iff.mp (isNameChar_of_isMargin (h c hc))

theorem nameOf_append (t u : Text) : nameOf (t ++ u) = nameOf t ++ nameOf u :=
  List.filter_append t u

/-- No character of a margin stands in a name. -/
theorem nameOf_trim (t : Text) : nameOf (Text.trim t) = nameOf t := by
  obtain ⟨before, after, hbefore, hafter, ht⟩ := Text.exists_eq_margin_append_trim t
  calc nameOf (Text.trim t)
      = nameOf before ++ nameOf (Text.trim t) ++ nameOf after := by
        rw [nameOf_of_margin hbefore, nameOf_of_margin hafter, List.nil_append, List.append_nil]
    _ = nameOf t := by rw [← nameOf_append, ← nameOf_append, ← ht]

/-- The attribute with a name, if there is a name. -/
def named (name : Text) (value : Option Text) : List Html.Attribute :=
  if name.isEmpty then [] else [⟨name, value⟩]

/-- The attributes that a token gives under a scope: a flag without a `=`, and with one a name and
the value behind the first `=`. -/
inductive Gives (scope : Scope) : Text → List Html.Attribute → Prop
  | flag {token : Text} (h : '=' ∉ token) : Gives scope token (named (nameOf token) none)
  | value {key rest : Text} (h : '=' ∉ key) :
    Gives scope (key ++ '=' :: rest)
      (named (nameOf key) (some (scope.interpolateAttribute (unquote (Text.trim rest)))))

/-- **A token gives its attribute**: the margins that the reader strips from the token and from
its key change nothing. -/
theorem gives_attribute? (scope : Scope) (token : Text) :
    Gives scope token ((attribute? token).map scope.resolve).toList := by
  obtain ⟨before, after, hbefore, hafter, htoken⟩ := Text.exists_eq_margin_append_trim token
  have hnamed : ∀ name value, ((if name.isEmpty then none else some ⟨name, value⟩ :
      Option Html.Attribute).map scope.resolve).toList =
        named name (value.map scope.interpolateAttribute) := by
    intro name value
    rw [named]
    split <;> rfl
  rw [attribute?]
  cases hcut : Text.cut? '=' (Text.trim token) with
  | none =>
      have hno : '=' ∉ token := by
        rw [htoken, List.mem_append, List.mem_append]
        rintro ((h | h) | h)
        · exact equals_not_mem_of_margin hbefore h
        · obtain ⟨key, rest, hsplit, hkey⟩ := List.eq_append_cons_of_mem h
          rw [hsplit, Text.cut?_append hkey] at hcut
          cases hcut
        · exact equals_not_mem_of_margin hafter h
      dsimp only
      rw [hnamed, nameOf_trim]
      exact .flag hno
  | some parts =>
      -- the margins go to the key and to the value, and neither is changed by its own
      obtain ⟨key, rest⟩ := parts
      have hwhole : token = (before ++ key) ++ '=' :: (rest ++ after) := by
        rw [htoken, Text.eq_of_cut? hcut]
        simp
      have hno : '=' ∉ before ++ key := by
        rw [List.mem_append, not_or]
        exact ⟨equals_not_mem_of_margin hbefore, Text.not_mem_of_cut? hcut⟩
      have hgives : Gives scope (before ++ key ++ '=' :: (rest ++ after)) _ := .value hno
      rw [nameOf_append, nameOf_of_margin hbefore, List.nil_append,
        Text.trim_append_margin rest hafter, ← hwhole] at hgives
      dsimp only
      rw [hnamed, nameOf_trim]
      exact hgives

end AttributeList

/-! ### Elements -/

namespace Element

/-- The selectors of an element line. -/
def selectorsOf (line : Text) : List Selector :=
  (Selector.readAll (readTag line).2).1

/-- The text in the parentheses of an element line. -/
def listOf (line : Text) : Text :=
  Text.trim (readParenthesised (Selector.readAll (readTag line).2).2).1

theorem attributes_ofLine (line : Text) :
    (ofLine line).attributes =
      Selector.attributes (selectorsOf line) ++ AttributeList.attributes (listOf line) :=
  rfl

theorem isName_of_mem_resolve (scope : Scope) {line : Text} {a : Html.Attribute}
    (h : a ∈ (ofLine line).attributes.map scope.resolve) : Piece.IsName a.name := by
  obtain ⟨b, hb, rfl⟩ := List.mem_map.mp h
  have hname : Piece.IsName b.name := isName_attributes hb
  exact hname

/-- What the tokens of a list give, one after the other. -/
theorem exists_gives (scope : Scope) (tokens : List Text) :
    ∃ listed, List.Forall₂ (AttributeList.Gives scope) tokens listed ∧
      (tokens.filterMap AttributeList.attribute?).map scope.resolve = listed.flatten := by
  induction tokens with
  | nil => exact ⟨[], .nil, rfl⟩
  | cons token tokens ih =>
      obtain ⟨listed, hgives, heq⟩ := ih
      refine ⟨_, .cons (AttributeList.gives_attribute? scope token) hgives, ?_⟩
      rw [List.flatten_cons, ← heq, List.filterMap_cons]
      cases AttributeList.attribute? token <;> rfl

/-- **The written attributes of an element line read back.**  They are the id of the last id
selector and the names of the class selectors, where these are not empty, and then what the tokens
of the list give, one after the other.  No other list with such names is written like that. -/
theorem readAll?_written (scope : Scope) (line : Text) :
    ∃ written listed as, Offsets.element scope line = .ok written ∧
      List.Forall₂ (AttributeList.Gives scope) (AttributeList.tokens (listOf line)) listed ∧
      as = Selector.unlessEmpty "id".toList ((Selector.ids (selectorsOf line)).getLast?.getD []) ++
        Selector.unlessEmpty "class".toList
          (List.intercalate [' '] ((Selector.classes (selectorsOf line)).filter (!·.isEmpty))) ++
        listed.flatten ∧
      Html.Attribute.readAll? written.attributes = some as ∧
      (∀ a ∈ as, Piece.IsName a.name) ∧
      ∀ bs : List Html.Attribute, (∀ b ∈ bs, Piece.IsName b.name) →
        (Html.Attribute.printAll bs = written.attributes ↔ bs = as) := by
  obtain ⟨listed, hgives, heq⟩ := exists_gives scope (AttributeList.tokens (listOf line))
  have has : (ofLine line).attributes.map scope.resolve =
      Selector.attributes (selectorsOf line) ++ listed.flatten := by
    rw [attributes_ofLine, List.map_append, AttributeList.attributes, heq]
    congr 1
    exact (List.map_congr_left fun a ha => Offsets.resolve_of_mem_attributes scope ha).trans
      (List.map_id _)
  have hnames : ∀ a ∈ (ofLine line).attributes.map scope.resolve, Piece.IsName a.name :=
    fun _ => isName_of_mem_resolve scope
  have hread := Html.Attribute.readAll?_printAll hnames
  rw [has] at hnames hread
  refine ⟨_, listed, _, Offsets.element_eq scope line, hgives,
    congrArg (· ++ listed.flatten) (Selector.attributes_eq (selectorsOf line)), ?_, hnames,
    fun bs hbs => ⟨fun h => ?_, ?_⟩⟩
  · dsimp only
    rw [has]
    exact hread
  · refine Html.Attribute.eq_of_printAll_eq hbs hnames ?_
    rw [h, ← has]
  · rintro rfl
    dsimp only
    rw [has]

end Element

end IndentHtml
