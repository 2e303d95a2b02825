import IndentHtml.Proofs.Leftmost

/-!
# Element lines as they are written

An element line is written from its parts, and those that are empty are left out
(`ElementLine.print`): `tag#id.c1.c2(a1="v1", a2="v2") text`.

A value stands between double quotes, but the quotes protect nothing.  They are not looked at
where the list is split, nor where its closing parenthesis is searched for, so a value has to be
whole (`AttributeList.Whole`) and its parentheses have to come in pairs (`Text.Balanced`).  It may
hold quotes, equals signs, spaces and markers as it likes.

**Round trip** (`ElementLine.element_print`).  A line that is written from well-formed parts is
read as these parts: the tag, the id and the classes, the attributes in order with their values
interpolated and escaped, and the text.

A value is a part of one token because every separator ends before a quote does
(`AttributeList.Whole.splitFirst_quote`), and the quote that closes the value is the last character
of its token, so that it is the one that is stripped with the first.
-/

namespace IndentHtml

open Piece (IsName Stops)

/-! ### Values in a list -/

namespace AttributeList

open Html (Attribute)
open Text (isSpace)

/-- What stands at the front of a text and has no quote in it ends before the first quote. -/
theorem prefix_of_prefix_quote {t u v : Text} (h : u <+: v ++ '"' :: t) (hu : '"' ∉ u) :
    u <+: v := by
  rcases List.prefix_or_prefix_of_prefix h (List.prefix_append v ('"' :: t)) with hle | ⟨w, rfl⟩
  · exact hle
  · cases w with
    | nil => rw [List.append_nil]
    | cons c w =>
        rw [List.prefix_append_right_inj, List.cons_prefix_cons] at h
        refine absurd ?_ hu
        rw [← h.1]
        exact List.mem_append_right v List.mem_cons_self

theorem quote_not_mem_of_space {run : Text} (h : ∀ c ∈ run, isSpace c = true) : '"' ∉ run :=
  fun hmem => Bool.false_ne_true (h '"' hmem)

theorem Whole.tail {c : Char} {t : Text} (h : Whole (c :: t)) : Whole t :=
  ⟨fun hmem => h.comma (List.mem_cons_of_mem c hmem), fun run hrun a ha hpart =>
    h.spaces run hrun a ha (hpart.trans (List.suffix_cons c t).isInfix)⟩

/-- No separator starts in a whole text that a quote follows. -/
theorem Whole.not_isSeparator {t v separator rest : Text} (h : Whole v)
    (heq : v ++ '"' :: t = separator ++ rest) : ¬ IsSeparator separator rest := by
  rintro (hcomma | ⟨hspace, a, ha, more, rfl⟩)
  · obtain ⟨before, after, hbefore, -, rfl⟩ := mem_commaForm.mp hcomma
    have hprefix : before ++ [','] <+: v ++ '"' :: t := ⟨after ++ rest, by simp [heq]⟩
    have hquote : '"' ∉ before ++ [','] := by
      rw [List.mem_append, List.mem_singleton]
      rintro (hmem | hmem)
      · exact quote_not_mem_of_space hbefore hmem
      · cases hmem
    exact h.comma ((prefix_of_prefix_quote hprefix hquote).subset (by simp))
  · obtain ⟨name, run, hname, hrun, rfl⟩ := mem_assignmentForm.mp ha
    have hprefix : separator ++ (name ++ (run ++ ['='])) <+: v ++ '"' :: t :=
      ⟨more, by simp [heq]⟩
    have hquote : '"' ∉ separator ++ (name ++ (run ++ ['='])) := by
      simp only [List.mem_append, List.mem_singleton]
      rintro (hmem | hmem | hmem | hmem)
      · exact quote_not_mem_of_space (mem_spaceForm.mp hspace).2 hmem
      · exact hname.not_mem rfl hmem
      · exact quote_not_mem_of_space hrun hmem
      · cases hmem
    exact h.spaces separator hspace _ ha (prefix_of_prefix_quote hprefix hquote).isInfix

/-- **A whole value is not split** where a quote closes it. -/
theorem Whole.splitFirst_quote {v : Text} (h : Whole v) (t : Text) :
    splitFirst (v ++ '"' :: t) = (v ++ '"' :: (splitFirst t).1, (splitFirst t).2) := by
  induction v with
  | nil => exact splitFirst_plain (by decide) rfl t
  | cons c v ih =>
      have hnone : afterSeparator? (c :: (v ++ '"' :: t)) = none := by
        refine Option.eq_none_iff_forall_ne_some.mpr fun rest hafter => ?_
        obtain ⟨separator, heq, hsep, -⟩ := exists_separator hafter
        exact h.not_isSeparator heq hsep
      rw [List.cons_append, splitFirst_of_none hnone, ih h.tail]
      rfl

theorem kept_of_whole {name v : Text} (hname : IsName name) (hv : Whole v) :
    Kept ⟨name, some v⟩ := by
  refine ⟨hname, fun t => ?_⟩
  have hstart : ∀ c ∈ name ++ ['=', '"'], Attribute.IsInner c := by
    simp only [List.mem_append, List.mem_cons, List.not_mem_nil, or_false]
    rintro c (hc | rfl | rfl)
    · exact Attribute.isInner_of_isNameChar (hname.2 c hc)
    · exact ⟨by decide, rfl, by decide, by decide⟩
    · exact ⟨by decide, rfl, by decide, by decide⟩
  have hsource : Attribute.source ⟨name, some v⟩ ++ t =
      (name ++ ['=', '"']) ++ (v ++ '"' :: t) := by simp [Attribute.source]
  rw [hsource, splitFirst_source hstart, hv.splitFirst_quote]
  simp [Attribute.source]

end AttributeList

/-! ### Selectors -/

namespace Selector

/-- The name behind the sigil. -/
def name : Selector → Text
  | id n => n
  | className n => n

/-- The written form of a selector. -/
def print : Selector → Text
  | id n => '#' :: n
  | className n => '.' :: n

/-- Holds of what ends a list of selectors. -/
def Ends (t : Text) : Prop :=
  ∀ c ∈ t.head?, Text.isNameChar c = false ∧ c ≠ '#' ∧ c ≠ '.'

theorem stops_print (ss : List Selector) {rest : Text} (h : Ends rest) :
    Stops Text.isNameChar (ss.flatMap print ++ rest) := by
  cases ss with
  | nil => exact fun c hc => (h c hc).1
  | cons s ss => cases s <;> exact Html.Attribute.stops_cons _ rfl _

theorem readAll_of_ends {t : Text} (h : Ends t) : readAll t = ([], t) := by
  cases t with
  | nil => rw [readAll]
  | cons c t =>
      obtain ⟨-, hid, hclass⟩ := h c rfl
      rw [readAll, if_neg hid, if_neg hclass]

/-- Selectors are read back, whatever ends them. -/
theorem readAll_print {ss : List Selector} {rest : Text} (h : ∀ s ∈ ss, IsName s.name)
    (hrest : Ends rest) : readAll (ss.flatMap print ++ rest) = (ss, rest) := by
  induction ss with
  | nil => exact readAll_of_ends hrest
  | cons s ss ih =>
      obtain ⟨hs, hss⟩ := List.forall_mem_cons.mp h
      obtain ⟨htake, hdrop⟩ := Html.Attribute.takeWhile_name hs.2 (stops_print ss hrest)
      rw [List.flatMap_cons, List.append_assoc]
      cases s with
      | id n =>
          rw [name] at htake hdrop
          rw [print, List.cons_append, readAll, if_pos rfl, htake, hdrop, ih hss]
      | className n =>
          rw [name] at htake hdrop
          rw [print, List.cons_append, readAll, if_neg (by decide), if_pos rfl, htake, hdrop,
            ih hss]

end Selector

/-! ### Element lines -/

/-- The parts that an element line is written from. -/
structure ElementLine where
  tag : Text
  id : Option Text
  classes : List Text
  /-- The names and the values of the attributes, the values not yet interpolated. -/
  attributes : List (Text × Text)
  text : Text

namespace ElementLine

open Html (Attribute)
open AttributeList (Whole listed)

/-- The selectors for the id and the classes. -/
def selectors (e : ElementLine) : List Selector :=
  e.id.toList.map .id ++ e.classes.map .className

/-- The attributes in the parentheses. -/
def given (e : ElementLine) : List Attribute :=
  e.attributes.map fun a => ⟨a.1, some a.2⟩

/-- The parentheses, unless there is nothing to stand in them. -/
def printList (e : ElementLine) : Text :=
  if e.attributes.isEmpty then [] else '(' :: (listed ", ".toList e.given ++ [')'])

/-- The text behind a space, unless there is none. -/
def printText (e : ElementLine) : Text :=
  if e.text.isEmpty then [] else ' ' :: e.text

/-- The written form of the line. -/
def print (e : ElementLine) : Text :=
  e.tag ++ (e.selectors.flatMap Selector.print ++ (e.printList ++ e.printText))

/-- The attributes of the element: the id, the classes with a space between each two, and those in
the parentheses with their values interpolated. -/
def rendered (scope : Scope) (e : ElementLine) : List Attribute :=
  (e.id.toList.map fun name => ⟨"id".toList, some name⟩) ++
    (if e.classes.isEmpty then []
      else [⟨"class".toList, some (List.intercalate [' '] e.classes)⟩]) ++
    e.attributes.map fun a => ⟨a.1, some (scope.interpolateAttribute a.2)⟩

/-- The tag is a letter and name characters, all other names are names, values are whole and
balanced, and the text is trimmed. -/
structure WellFormed (e : ElementLine) : Prop where
  tag : ∃ c t, e.tag = c :: t ∧ Text.isLetter c = true ∧ ∀ d ∈ t, Text.isNameChar d = true
  id : ∀ name ∈ e.id, IsName name
  classes : ∀ name ∈ e.classes, IsName name
  names : ∀ a ∈ e.attributes, IsName a.1
  balanced : ∀ a ∈ e.attributes, Text.Balanced a.2
  whole : ∀ a ∈ e.attributes, Whole a.2
  text : Text.trim e.text = e.text

variable {e : ElementLine}

theorem WellFormed.isName_selectors (h : e.WellFormed) : ∀ s ∈ e.selectors, IsName s.name := by
  intro s hs
  rcases List.mem_append.mp hs with hs | hs
  · obtain ⟨name, hname, rfl⟩ := List.mem_map.mp hs
    exact h.id name (Option.mem_toList.mp hname)
  · obtain ⟨name, hname, rfl⟩ := List.mem_map.mp hs
    exact h.classes name hname

theorem WellFormed.kept (h : e.WellFormed) : ∀ a ∈ e.given, AttributeList.Kept a := by
  intro a ha
  obtain ⟨b, hb, rfl⟩ := List.mem_map.mp ha
  exact AttributeList.kept_of_whole (h.names b hb) (h.whole b hb)

/-- The attributes of the selectors are the id and the classes. -/
theorem WellFormed.attributes_selectors (h : e.WellFormed) :
    Selector.attributes e.selectors =
      (e.id.toList.map fun name => ⟨"id".toList, some name⟩) ++
        (if e.classes.isEmpty then []
          else [⟨"class".toList, some (List.intercalate [' '] e.classes)⟩]) := by
  have hids : Selector.ids e.selectors = e.id.toList := by
    rw [Selector.ids, selectors, List.filterMap_append, List.filterMap_map, List.filterMap_map]
    simp
  have hclasses : Selector.classNames e.selectors = e.classes := by
    have hnames : ∀ name ∈ e.classes, (!name.isEmpty) = true := fun name hname => by
      simpa using (h.classes name hname).1
    rw [Selector.classNames_eq, Selector.classes, selectors, List.filterMap_append,
      List.filterMap_map, List.filterMap_map]
    simpa [Function.comp_def] using hnames
  rw [Selector.attributes, Selector.lastId_eq, hids, hclasses]
  cases hid : e.id with
  | none => rfl
  | some name =>
      have hname := (h.id name hid).1
      simp [hname]

/-! ### Reading the written line -/

theorem readTag_append {c : Char} {t rest : Text} (hc : Text.isLetter c = true)
    (ht : ∀ d ∈ t, Text.isNameChar d = true) (hrest : Stops Text.isNameChar rest) :
    Element.readTag (c :: t ++ rest) = (c :: t, rest) := by
  obtain ⟨htake, hdrop⟩ := Attribute.takeWhile_name
    (List.forall_mem_cons.mpr ⟨Text.isNameChar_of_isLetter hc, ht⟩) hrest
  rw [List.cons_append] at htake hdrop ⊢
  rw [Element.readTag, if_pos hc, htake, hdrop]

theorem ends_printList_append (e : ElementLine) :
    Selector.Ends (e.printList ++ e.printText) := by
  rw [printList, printText]
  intro c hc
  split at hc
  · split at hc
    · cases hc
    · obtain rfl := Option.some.inj hc
      exact ⟨rfl, by decide, by decide⟩
  · obtain rfl := Option.some.inj hc
    exact ⟨rfl, by decide, by decide⟩

/-- The parentheses of a list are balanced when those of its values are. -/
theorem WellFormed.balanced_listed (h : e.WellFormed) :
    Text.Balanced (listed ", ".toList e.given) := by
  have hsource : ∀ a ∈ e.given, Text.Balanced a.source := by
    intro a ha
    obtain ⟨⟨name, v⟩, hb, rfl⟩ := List.mem_map.mp ha
    have hname : Text.Balanced name := Text.balanced_of_not_mem
      ((h.names _ hb).not_mem rfl) ((h.names _ hb).not_mem rfl)
    exact hname.append (.char (by decide) (by decide) (.char (by decide) (by decide)
      ((h.balanced _ hb).append (.char (by decide) (by decide) .nil))))
  generalize e.given = as at hsource
  induction as with
  | nil => exact .nil
  | cons a as ih =>
      obtain ⟨ha, has⟩ := List.forall_mem_cons.mp hsource
      cases as with
      | nil => rwa [AttributeList.listed_singleton]
      | cons b as =>
          rw [AttributeList.listed_cons_cons]
          exact ha.append ((Text.balanced_of_not_mem (by decide) (by decide)).append (ih has))

/-- The list is cut out of the line at the parentheses around it. -/
theorem WellFormed.readParenthesised (h : e.WellFormed) :
    Element.readParenthesised (e.printList ++ e.printText) =
      (listed ", ".toList e.given, e.printText) := by
  rw [printList]
  split
  · next hempty =>
      -- without a list there is nothing, or the space in front of the text
      have hgiven : e.given = [] := by
        rw [given, List.isEmpty_iff.mp hempty, List.map_nil]
      rw [hgiven, List.nil_append, printText]
      split <;> rfl
  · rw [List.cons_append, List.append_assoc, List.singleton_append, Element.readParenthesised,
      h.balanced_listed.closing?_close]
    rfl

theorem WellFormed.trim_printText (h : e.WellFormed) : Text.trim e.printText = e.text := by
  rw [printText]
  split
  · next hempty =>
      rw [List.isEmpty_iff.mp hempty]
      rfl
  · exact (congrArg (List.rdropWhile Text.isMargin)
      (List.dropWhile_cons_of_pos (by rfl))).trans h.text

/-- **A written line is read back** as its parts. -/
theorem WellFormed.ofLine_print (h : e.WellFormed) :
    Element.ofLine e.print =
      ⟨e.tag, Selector.attributes e.selectors ++ e.given, e.text⟩ ∧
      (Selector.readAll (Element.readTag e.print).2).1 = e.selectors := by
  obtain ⟨c, t, htag, hc, ht⟩ := h.tag
  have hends := e.ends_printList_append
  have hreadTag : Element.readTag e.print =
      (e.tag, e.selectors.flatMap Selector.print ++ (e.printList ++ e.printText)) := by
    rw [print, htag]
    exact readTag_append hc ht (Selector.stops_print _ hends)
  have hreadAll := Selector.readAll_print h.isName_selectors hends
  refine ⟨?_, by rw [hreadTag, hreadAll]⟩
  have hlist : Text.trim (listed ", ".toList e.given) = listed ", ".toList e.given :=
    AttributeList.trim_listed_of_isName _ fun a ha => (h.kept a ha).name
  rw [Element.ofLine, hreadTag]
  dsimp only
  rw [hreadAll]
  dsimp only
  rw [h.readParenthesised]
  dsimp only
  rw [hlist, Element.attributes_listed_comma h.kept, h.trim_printText]

/-- **Round trip.**  An element line that is written from well-formed parts is read as its tag, its
attributes in order, with the values interpolated and escaped, and its text. -/
theorem element_print (scope : Scope) (h : e.WellFormed) :
    Offsets.element scope e.print =
      .ok ⟨e.tag, Attribute.printAll (e.rendered scope), e.text⟩ := by
  obtain ⟨hline, hselectors⟩ := h.ofLine_print
  have hplain : (Selector.attributes e.selectors).map scope.resolve =
      Selector.attributes e.selectors := by
    rw [← hselectors]
    exact (List.map_congr_left fun a ha => Offsets.resolve_of_mem_attributes scope ha).trans
      (List.map_id _)
  have hgiven : e.given.map scope.resolve =
      e.attributes.map fun a => ⟨a.1, some (scope.interpolateAttribute a.2)⟩ := by
    rw [given, List.map_map]
    rfl
  rw [Offsets.element_eq, hline]
  dsimp only
  rw [List.map_append, hplain, hgiven, h.attributes_selectors, rendered]

/-- A value with quotes, equals signs, spaces, parentheses and a marker, in a line with all parts
and a text in parentheses. -/
theorem element_print_call :
    Offsets.element (Scope.ofData [("u".toList, .text "5 > 3".toList)])
        "a-b#top.x.y(on=\"f(a (b) = 'c\" =d) #\x7bu\x7d \", q=\"\") (see .z)".toList =
      .ok ⟨"a-b".toList,
        (" id=\"top\" class=\"x y\"" ++
          " on=\"f(a (b) = &#039;c&quot; =d) 5 &gt; 3 \" q=\"\"").toList,
        "(see .z)".toList⟩ := by
  have hcall : Text.Balanced "f(a (b) = 'c\" =d) #\x7bu\x7d ".toList := by
    have hb : Text.Balanced "b".toList := Text.balanced_of_not_mem (by decide) (by decide)
    have hinner : Text.Balanced "a (b) = 'c\" =d".toList :=
      .char (by decide) (by decide) (.char (by decide) (by decide)
        (.pair hb (Text.balanced_of_not_mem (by decide) (by decide))))
    exact .char (by decide) (by decide)
      (.pair hinner (Text.balanced_of_not_mem (by decide) (by decide)))
  have h : WellFormed {
      tag := "a-b".toList
      id := some "top".toList
      classes := ["x".toList, "y".toList]
      attributes := [("on".toList, "f(a (b) = 'c\" =d) #\x7bu\x7d ".toList), ("q".toList, [])]
      text := "(see .z)".toList } := by
    refine {
      tag := ⟨'a', "-b".toList, rfl, rfl, List.all_eq_true.mp (by decide)⟩
      id := ?_
      classes := by decide
      names := by decide
      balanced := ?_
      whole := ?_
      text := by rfl }
    · rintro name hname
      obtain rfl := Option.some.inj hname
      decide
    · exact List.forall_mem_cons.mpr ⟨hcall, List.forall_mem_singleton.mpr .nil⟩
    · exact List.forall_mem_cons.mpr
        ⟨AttributeList.whole_of_tokens_eq (by decide +kernel), List.forall_mem_singleton.mpr
          (AttributeList.whole_of_tokens_eq (by decide +kernel))⟩
  refine (element_print (Scope.ofData [("u".toList, .text "5 > 3".toList)]) h).trans ?_
  decide +kernel

end ElementLine

end IndentHtml
