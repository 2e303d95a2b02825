import IndentHtml.Proofs.Plain
import Mathlib.Data.List.Basic
import Mathlib.Data.Set.Defs

/-!
# What a template reads

A template reads its data through dotted paths: those of its markers, its conditions and its
loops.  Each path starts at a name.  A line reads only the names of a set (`Line.ReadsOnly`) when
all its paths start at one of them and it has no marker with `!`.

**Confinement** (`renderLines_eq_of_agree`).  Two data that agree on the names that the lines read
give the same HTML.

A marker with `!` is left out because what it inserts is scanned for markers again.  The markers of
the text and of the attribute values of an element are markers of its line, since both are cut out
of it (`Element.isInfix_of_value`).  A loop binds what a path leads to, so its variable stands for
the same value under both data (`Scope.Agree.bind`).
-/

namespace IndentHtml

/-! ### Paths and markers -/

/-- The name a dotted path starts at. -/
def Scope.root (path : Text) : Text :=
  (List.splitOn '.' path).headD []

/-- The paths of the markers with `#` in a text. -/
def Text.markerPaths : Text → List Text
  | [] => []
  | c :: t =>
      if c = '#' then ((Segment.bracedPath? t).map (·.1)).toList ++ markerPaths t else markerPaths t

namespace Segment

/-- A path in braces ends at its closing brace, whatever follows. -/
theorem bracedPath?_append {t path rest : Text} (h : bracedPath? t = some (path, rest))
    (more : Text) : bracedPath? (t ++ more) = some (path, rest ++ more) := by
  unfold bracedPath? at h
  split at h
  · next c body =>
      split at h
      · next hc =>
          split at h
          · next after hafter =>
              obtain ⟨rfl, rfl⟩ := Prod.mk.inj (Option.some.inj h)
              have hdrop : (body ++ more).dropWhile Text.isPathChar = '}' :: (after ++ more) := by
                rw [List.dropWhile_append, hafter]
                rfl
              have htake : (body ++ more).takeWhile Text.isPathChar =
                  body.takeWhile Text.isPathChar := by
                have hlength := congrArg List.length
                  (List.takeWhile_append_dropWhile (p := Text.isPathChar) (l := body))
                rw [hafter, List.length_append, List.length_cons] at hlength
                rw [List.takeWhile_append, if_neg (by omega)]
              simp only [List.cons_append, bracedPath?, if_pos hc, hdrop, htake]
          · cases h
      · cases h
  · cases h

end Segment

namespace Text

/-- A path is one of a text's when a `#` and the path in braces stand anywhere in it. -/
theorem mem_markerPaths_iff {t path : Text} :
    path ∈ markerPaths t ↔
      ∃ after rest, '#' :: after <:+ t ∧ Segment.bracedPath? after = some (path, rest) := by
  induction t with
  | nil => simp [markerPaths]
  | cons c t ih =>
      have hsplit : path ∈ markerPaths (c :: t) ↔
          (c = '#' ∧ ∃ rest, Segment.bracedPath? t = some (path, rest)) ∨
            path ∈ markerPaths t := by
        by_cases hc : c = '#'
        · simp [markerPaths, hc]
        · simp [markerPaths, hc]
      rw [hsplit, ih]
      constructor
      · rintro (⟨rfl, rest, hrest⟩ | ⟨after, rest, hsuffix, hrest⟩)
        · exact ⟨t, rest, List.suffix_refl _, hrest⟩
        · exact ⟨after, rest, hsuffix.trans (List.suffix_cons _ _), hrest⟩
      · rintro ⟨after, rest, hsuffix, hrest⟩
        rcases List.suffix_cons_iff.mp hsuffix with heq | hsuffix
        · obtain ⟨rfl, rfl⟩ := List.cons.inj heq
          exact .inl ⟨rfl, rest, hrest⟩
        · exact .inr ⟨after, rest, hsuffix, hrest⟩

/-- The markers of a part of a text are markers of the text. -/
theorem markerPaths_subset {t u : Text} (h : u <:+: t) : markerPaths u ⊆ markerPaths t := by
  intro path hpath
  obtain ⟨after, rest, hsuffix, hrest⟩ := mem_markerPaths_iff.mp hpath
  obtain ⟨before, more, rfl⟩ := h
  obtain ⟨first, rfl⟩ := hsuffix
  refine mem_markerPaths_iff.mpr ⟨after ++ more, rest ++ more, ⟨before ++ first, ?_⟩,
    Segment.bracedPath?_append hrest more⟩
  simp

/-- Holds of a text whose markers all have `#` and paths that start at names of a set. -/
structure ReadsOnly (names : Set Text) (t : Text) : Prop where
  unmarked : ¬ ['!', '{'] <:+: t
  markers : ∀ path ∈ markerPaths t, Scope.root path ∈ names

/-- A part of a text reads no more than the text. -/
theorem ReadsOnly.of_isInfix {names : Set Text} {t u : Text} (h : ReadsOnly names t)
    (hu : u <:+: t) : ReadsOnly names u :=
  ⟨fun hm => h.unmarked (hm.trans hu),
    fun path hpath => h.markers path (markerPaths_subset hu hpath)⟩

/-- No marker fits into a text without an opening brace. -/
theorem ReadsOnly.of_not_mem {t : Text} (h : '{' ∉ t) (names : Set Text) : ReadsOnly names t := by
  refine ⟨fun hm => h (hm.subset (by simp)), fun path hpath => ?_⟩
  obtain ⟨after, rest, hsuffix, hrest⟩ := mem_markerPaths_iff.mp hpath
  rw [Segment.eq_of_bracedPath? hrest] at hsuffix
  exact absurd (hsuffix.subset (by simp)) h

end Text

/-- What interpolation replaces is one of the paths of the text. -/
theorem Segment.mem_markerPaths_of_mem_cut {isSigil : Char → Bool} {t path : Text}
    (h : Segment.marker '#' path ∈ Segment.cut isSigil t) : path ∈ Text.markerPaths t := by
  obtain ⟨-, after, rest, hsuffix, hrest⟩ := Segment.suffix_of_mem_cut h
  exact Text.mem_markerPaths_iff.mpr ⟨after, rest, hsuffix, hrest⟩

namespace Scope

/-! ### Scopes that agree -/

/-- Scopes with the same loop variables, over data that agree on the names of a set. -/
structure Agree (names : Set Text) (scope scope' : Scope) : Prop where
  bindings : scope.bindings = scope'.bindings
  data : ∀ name ∈ names, scope.data.find? name = scope'.data.find? name

variable {names : Set Text} {scope scope' : Scope}

/-- A loop variable stands for the same value in both scopes. -/
theorem Agree.bind (h : Agree names scope scope') (name : Text) (value : Value) :
    Agree names (scope.bind name value) (scope'.bind name value) :=
  ⟨congrArg ((name, value) :: ·) h.bindings, h.data⟩

theorem Agree.find?_eq (h : Agree names scope scope') {name : Text} (hname : name ∈ names) :
    scope.find? name = scope'.find? name := by
  have hgo : ∀ bindings, find?.go scope name bindings = find?.go scope' name bindings := by
    intro bindings
    induction bindings with
    | nil => exact h.data name hname
    | cons entry bindings ih =>
        obtain ⟨n, v⟩ := entry
        by_cases hn : n = name
        · simp only [find?.go, if_pos hn]
        · simp only [find?.go, if_neg hn, ih]
  rw [find?, find?, h.bindings, hgo]

/-- A path whose root the scopes agree on leads to one value under both. -/
theorem Agree.lookup?_eq (h : Agree names scope scope') {path : Text}
    (hpath : root path ∈ names) : scope.lookup? path = scope'.lookup? path := by
  rw [root] at hpath
  unfold lookup?
  cases hsplit : List.splitOn '.' path with
  | nil => rfl
  | cons name segments =>
      rw [hsplit, List.headD_cons] at hpath
      simp only [h.find?_eq hpath]

theorem Agree.textAt_eq (h : Agree names scope scope') {path : Text}
    (hpath : root path ∈ names) : scope.textAt path = scope'.textAt path := by
  rw [textAt, textAt, h.lookup?_eq hpath]

theorem Agree.isTruthyAt_eq (h : Agree names scope scope') {path : Text}
    (hpath : root path ∈ names) : scope.isTruthyAt path = scope'.isTruthyAt path := by
  rw [isTruthyAt, isTruthyAt, h.lookup?_eq hpath]

theorem Agree.itemsAt_eq (h : Agree names scope scope') {path : Text}
    (hpath : root path ∈ names) : scope.itemsAt path = scope'.itemsAt path := by
  rw [itemsAt, itemsAt, h.lookup?_eq hpath]

/-- The first pass over a text changes nothing, and the second one inserts texts of the names. -/
theorem Agree.interpolate_eq (h : Agree names scope scope') {t : Text}
    (ht : t.ReadsOnly names) : scope.interpolate t = scope'.interpolate t := by
  rw [interpolate, interpolate, substitute_of_not_isInfix _ ht.unmarked,
    substitute_of_not_isInfix _ ht.unmarked]
  refine substitute_congr fun sigil path hmem => ?_
  obtain rfl : sigil = '#' := of_decide_eq_true (Segment.suffix_of_mem_cut hmem).1
  rw [h.textAt_eq (ht.markers path (Segment.mem_markerPaths_of_mem_cut hmem))]

/-- A text that reads only names agreed on is interpolated alike in attributes. -/
theorem Agree.interpolateAttribute_eq (h : Agree names scope scope') {t : Text}
    (ht : t.ReadsOnly names) : scope.interpolateAttribute t = scope'.interpolateAttribute t := by
  refine substitute_congr fun sigil path hmem => ?_
  have hsigil : sigil = '#' ∨ sigil = '!' := by
    simpa using (Segment.suffix_of_mem_cut hmem).1
  rcases hsigil with rfl | rfl
  · exact h.textAt_eq (ht.markers path (Segment.mem_markerPaths_of_mem_cut hmem))
  · exact absurd (Segment.isInfix_of_mem_cut hmem) ht.unmarked

end Scope

/-! ### Attribute values of a line -/

namespace AttributeList

theorem suffix_of_afterSeparator? {t rest : Text} (h : afterSeparator? t = some rest) :
    rest <:+ t := by
  cases t with
  | nil => cases h
  | cons c t =>
      have hspaces : t.dropWhile Text.isSpace <:+ c :: t :=
        (List.dropWhile_suffix _).trans (List.suffix_cons _ _)
      rw [afterSeparator?] at h
      split at h
      · obtain rfl := Option.some.inj h
        exact hspaces
      · split at h
        · split at h
          · next after hafter =>
              obtain rfl := Option.some.inj h
              rw [hafter] at hspaces
              exact (List.dropWhile_suffix _).trans ((List.suffix_cons _ _).trans hspaces)
          · split at h
            · obtain rfl := Option.some.inj h
              exact hspaces
            · cases h
        · cases h

/-- The first token starts the text, and the others are cut out of it. -/
theorem isInfix_splitFirst (t : Text) :
    (splitFirst t).1 <+: t ∧ ∀ token ∈ (splitFirst t).2, token <:+: t := by
  fun_induction splitFirst t with
  | case1 => exact ⟨List.prefix_refl _, fun token h => absurd h List.not_mem_nil⟩
  | case2 c t rest h _ ih =>
      have hrest := (suffix_of_afterSeparator? h).isInfix
      refine ⟨List.nil_prefix, List.forall_mem_cons.mpr ⟨ih.1.isInfix.trans hrest, ?_⟩⟩
      intro token htoken
      exact (ih.2 token htoken).trans hrest
  | case3 c t h ih =>
      refine ⟨(List.prefix_cons_inj c).mpr ih.1, fun token htoken => ?_⟩
      exact (ih.2 token htoken).trans (List.suffix_cons _ _).isInfix

/-- A token of an attribute list is a part of it. -/
theorem isInfix_of_mem_tokens {t token : Text} (h : token ∈ tokens t) : token <:+: t := by
  obtain ⟨hfirst, hmore⟩ := isInfix_splitFirst t
  rcases List.mem_cons.mp h with rfl | h
  · exact hfirst.isInfix
  · exact hmore token h

theorem isInfix_unquote (t : Text) : unquote t <:+: t := by
  have hinner : ∀ (q : Char) (rest : Text), rest.dropLast <:+: q :: rest := by
    intro q rest
    exact (List.dropLast_prefix rest).isInfix.trans (List.suffix_cons _ _).isInfix
  unfold unquote
  split
  · split
    · exact hinner _ _
    · exact List.infix_refl _
  · split
    · exact hinner _ _
    · exact List.infix_refl _
  · exact List.infix_refl _

/-- The value of an attribute is cut out of its token. -/
theorem isInfix_of_attribute? {token value : Text} {a : Html.Attribute}
    (h : attribute? token = some a) (hvalue : a.value = some value) : value <:+: token := by
  obtain ⟨-, rfl | ⟨key, raw, hcut, rfl⟩⟩ := attribute?_eq_some h
  · cases hvalue
  · obtain rfl := Option.some.inj hvalue
    have hraw : raw <:+: Text.trim token := by
      rw [Text.eq_of_cut? hcut]
      exact ((List.suffix_cons _ _).trans (List.suffix_append _ _)).isInfix
    exact (isInfix_unquote _).trans ((Text.isInfix_trim raw).trans
      (hraw.trans (Text.isInfix_trim token)))

end AttributeList

namespace Selector

/-- The name in a selector. -/
def text : Selector → Text
  | id name => name
  | className name => name

/-- The names of selectors are too plain to hold a marker. -/
theorem brace_not_mem_text {t : Text} {s : Selector} (h : s ∈ (readAll t).1) : '{' ∉ s.text := by
  have hname : ∀ u : Text, '{' ∉ u.takeWhile Text.isNameChar := by
    intro u hmem
    exact absurd (List.mem_takeWhile_imp hmem) (by decide)
  fun_induction readAll t with
  | case1 => cases h
  | case2 t name _ ih | case3 t name _ _ ih =>
      rcases List.mem_cons.mp h with rfl | h
      · exact hname t
      · exact ih h
  | case4 c t _ _ => cases h

theorem brace_not_mem_lastId {selectors : List Selector} (h : ∀ s ∈ selectors, '{' ∉ s.text) :
    '{' ∉ lastId selectors := by
  suffices hfold : ∀ found : Text, '{' ∉ found → '{' ∉ selectors.foldl
      (fun found s => match s with | id name => name | className _ => found) found from
    hfold [] List.not_mem_nil
  induction selectors with
  | nil =>
      intro found hfound
      exact hfound
  | cons s selectors ih =>
      obtain ⟨hs, hrest⟩ := List.forall_mem_cons.mp h
      intro found hfound
      cases s with
      | id name => exact ih hrest name hs
      | className name => exact ih hrest found hfound

theorem brace_not_mem_classNames {selectors : List Selector} (h : ∀ s ∈ selectors, '{' ∉ s.text)
    {name : Text} (hname : name ∈ classNames selectors) : '{' ∉ name := by
  obtain ⟨s, hs, heq⟩ := List.mem_filterMap.mp hname
  have hplain := h s hs
  cases s with
  | id _ => cases heq
  | className _ =>
      simp only at heq
      split at heq
      · cases heq
      · obtain rfl := Option.some.inj heq
        exact hplain

end Selector

/-- Values that come from selectors have no marker, since a name has no brace. -/
theorem Selector.brace_not_mem_of_attributes {t value : Text} {a : Html.Attribute}
    (h : a ∈ attributes (readAll t).1) (hvalue : a.value = some value) : '{' ∉ value := by
  have hplain : ∀ s ∈ (readAll t).1, '{' ∉ s.text := fun s hs => brace_not_mem_text hs
  rcases mem_attributes h with rfl | rfl
  · obtain rfl := Option.some.inj hvalue
    exact brace_not_mem_lastId hplain
  · obtain rfl := Option.some.inj hvalue
    intro hmem
    rcases Text.mem_intercalate hmem with hmem | ⟨name, hname, hmem⟩
    · exact absurd hmem (by decide)
    · exact brace_not_mem_classNames hplain hname hmem

namespace Element

theorem isInfix_readParenthesised (t : Text) : (readParenthesised t).1 <:+: t := by
  unfold readParenthesised
  split
  · next rest =>
      have htail : rest <:+: '(' :: rest := (List.suffix_cons _ _).isInfix
      cases h : closing? 0 rest with
      | none => exact (List.dropLast_prefix rest).isInfix.trans htail
      | some p =>
          have hinner : p.1 <+: rest := ⟨')' :: p.2, (eq_of_closing? h).symm⟩
          exact hinner.isInfix.trans htail
  · exact List.nil_infix

/-- The value of an attribute is cut out of the line, unless a selector stands for it, and then it
has no braces. -/
theorem isInfix_of_value {t value : Text} {a : Html.Attribute} (h : a ∈ (ofLine t).attributes)
    (hvalue : a.value = some value) : value <:+: t ∨ '{' ∉ value := by
  rcases List.mem_append.mp h with h | h
  · exact .inr (Selector.brace_not_mem_of_attributes h hvalue)
  · obtain ⟨token, htoken, ha⟩ := List.mem_filterMap.mp h
    refine .inl ?_
    exact (AttributeList.isInfix_of_attribute? ha hvalue).trans
      ((AttributeList.isInfix_of_mem_tokens htoken).trans ((Text.isInfix_trim _).trans
        ((isInfix_readParenthesised _).trans
          ((Selector.readAll_suffix _).trans (readTag_suffix t)).isInfix)))

end Element

/-! ### Lines -/

/-- Holds of a line that reads nothing of the data but what is under the names of a set. -/
structure Line.ReadsOnly (names : Set Text) (line : Line) : Prop where
  text : Text.ReadsOnly names line
  condition : ∀ path, line.Says (.condition path) → Scope.root path ∈ names
  loop : ∀ path name, line.Says (.loop path name) → Scope.root path ∈ names

namespace Scope.Agree

variable {names : Set Text} {scope scope' : Scope}

/-- A text that reads only names agreed on is written alike. -/
theorem textToken_eq (h : Agree names scope scope') {t : Text} (ht : t.ReadsOnly names) :
    textToken scope t = textToken scope' t := by
  rw [textToken, textToken, h.interpolate_eq ht]

/-- The attributes of a line that reads only names agreed on are resolved alike. -/
theorem map_resolve_eq (h : Agree names scope scope') {t : Text} (ht : t.ReadsOnly names) :
    (Element.ofLine t).attributes.map scope.resolve =
      (Element.ofLine t).attributes.map scope'.resolve := by
  refine List.map_congr_left fun a ha => ?_
  obtain ⟨name, value⟩ := a
  cases value with
  | none => rfl
  | some value =>
      have hvalue : value.ReadsOnly names := by
        rcases Element.isInfix_of_value ha rfl with hcut | hplain
        · exact ht.of_isInfix hcut
        · exact .of_not_mem hplain names
      simp only [resolve, Option.map_some, h.interpolateAttribute_eq hvalue]

end Scope.Agree

/-! ### Confinement -/

namespace Outline

theorem branches_subset (level : Nat) (lines : List Line) :
    (branches level lines).yes ⊆ lines ∧ (branches level lines).no ⊆ lines ∧
      (branches level lines).rest ⊆ lines := by
  refine ⟨?_, ?_, branches_rest_subset level lines⟩
  · rw [branches_eq]
    exact Line.block_subset level lines
  · rw [branches_eq]
    exact Script.elseBlock_afterBlock_subset level lines

/-- **Scopes that agree give one outline.** -/
theorem tokens_eq_of_agree {names : Set Text} {lines : List Line}
    (hlines : ∀ line ∈ lines, line.ReadsOnly names) {scope scope' : Scope}
    (h : Scope.Agree names scope scope') : tokens lines scope = tokens lines scope' := by
  fun_induction tokens lines scope generalizing scope' with
  | case1 scope => rw [tokens]
  | case2 line rest scope _ _ _ _ _ hb ih =>
      rw [tokens, if_pos hb]
      exact ih (List.forall_mem_cons.mp hlines).2 h
  | case3 line rest scope _ _ _ _ _ hb hst ih | case4 line rest scope _ _ _ _ _ hb hst ih =>
      rw [tokens, if_neg hb, hst]
      exact ih (List.forall_mem_cons.mp hlines).2 h
  | case5 line rest scope _ _ _ _ _ hb hst ih =>
      rw [tokens, if_neg hb, hst, ih (List.forall_mem_cons.mp hlines).2 h]
  | case6 line rest scope _ _ _ _ _ hb content hst ih =>
      obtain ⟨hline, hrest⟩ := List.forall_mem_cons.mp hlines
      have hcut := (Statement.suffix_of_ofContent_eq_text hst).trans line.content_suffix
      rw [tokens, if_neg hb, hst, ih hrest h, h.textToken_eq (hline.text.of_isInfix hcut.isInfix)]
  | case7 line rest scope _ _ _ _ _ hb e hst ihInside ihAfter =>
      obtain ⟨hline, hrest⟩ := List.forall_mem_cons.mp hlines
      obtain rfl := Statement.eq_ofLine_of_ofContent_eq_element hst
      have hcontent := hline.text.of_isInfix line.content_suffix.isInfix
      have htext := hcontent.of_isInfix (Element.isInfix_text line.content)
      rw [tokens, if_neg hb, hst, h.map_resolve_eq hcontent, h.textToken_eq htext,
        ihInside (fun l hl => hrest l ((List.takeWhile_sublist _).subset hl)) h,
        ihAfter (fun l hl => hrest l ((List.dropWhile_sublist _).subset hl)) h]
  | case8 line rest scope _ _ _ _ _ hb path hst ihYes ihNo ih =>
      obtain ⟨hline, hrest⟩ := List.forall_mem_cons.mp hlines
      have hpath := hline.condition path ⟨Bool.eq_false_iff.mpr hb, hst⟩
      obtain ⟨hyes, hno, hafter⟩ := branches_subset line.level rest
      rw [tokens, if_neg hb, hst, h.isTruthyAt_eq hpath,
        ihYes (fun l hl => hrest l (hyes hl)) h, ihNo (fun l hl => hrest l (hno hl)) h,
        ih (fun l hl => hrest l (hafter hl)) h]
  | case9 line rest scope _ _ _ _ _ hb path name hst ihBody ih =>
      obtain ⟨hline, hrest⟩ := List.forall_mem_cons.mp hlines
      have hpath := hline.loop path name ⟨Bool.eq_false_iff.mpr hb, hst⟩
      have hbody := fun item =>
        ihBody item (fun l hl => hrest l ((List.takeWhile_sublist _).subset hl))
          (h.bind name (loopBinding item))
      rw [tokens, if_neg hb, hst, h.itemsAt_eq hpath,
        ih (fun l hl => hrest l ((List.dropWhile_sublist _).subset hl)) h]
      simp only [hbody]

end Outline

/-- **Confinement.**  Data that agree on the names that the lines read give the same HTML. -/
theorem renderLines_eq_of_agree (names : Set Text) {lines : List Line}
    (hlines : ∀ line ∈ lines, line.ReadsOnly names) {data data' : Data}
    (h : ∀ name ∈ names, data.find? name = data'.find? name) :
    renderLines data lines = renderLines data' lines := by
  have hscopes : Scope.Agree names (Scope.ofData data) (Scope.ofData data') := ⟨rfl, h⟩
  rw [renderLines_eq_printAll, renderLines_eq_printAll,
    Outline.tokens_eq_of_agree hlines hscopes]

/-- A value that looks like a marker does not let in the data under its path. -/
theorem renderLines_eq_of_marker_in_data :
    ∃ (lines : List Line) (data data' : Data),
      (∀ line ∈ lines, line.ReadsOnly {name | name ∈ ["xs".toList, "x".toList]}) ∧
      data.find? "key".toList = some (.text "1".toList) ∧
      data'.find? "key".toList = some (.text "2".toList) ∧
      renderLines data lines = renderLines data' lines ∧
      renderLines data lines = "<p title=\"#\x7bkey\x7d\">#\x7bkey\x7d\n</p>\n".toList := by
  let loop : Line := "@foreach xs as x".toList
  let body : Line := "  p(title='#\x7bx.0\x7d') #\x7bx.0\x7d".toList
  let items : Value := .list [.text "#\x7bkey\x7d".toList]
  let data : Data := [("key".toList, .text "1".toList), ("xs".toList, items)]
  let data' : Data := [("key".toList, .text "2".toList), ("xs".toList, items)]
  have hloop : loop.ReadsOnly {name | name ∈ ["xs".toList, "x".toList]} := by
    have hstatement : Statement.ofContent loop.content = .loop "xs".toList "x".toList := by
      decide +kernel
    refine ⟨⟨by decide +kernel, ?_⟩, fun path hsay => ?_, fun path name hsay => ?_⟩
    · show ∀ path ∈ Text.markerPaths loop, Scope.root path ∈ ["xs".toList, "x".toList]
      decide +kernel
    · cases hstatement.symm.trans hsay.2
    · obtain ⟨rfl, -⟩ := Statement.loop.inj (hstatement.symm.trans hsay.2)
      exact List.mem_cons_self
  have hbody : body.ReadsOnly {name | name ∈ ["xs".toList, "x".toList]} := by
    have hstatement :
        Statement.ofContent body.content = .element (Element.ofLine body.content) := by
      decide +kernel
    refine ⟨⟨by decide +kernel, ?_⟩, fun path hsay => ?_, fun path name hsay => ?_⟩
    · show ∀ path ∈ Text.markerPaths body, Scope.root path ∈ ["xs".toList, "x".toList]
      decide +kernel
    · cases hstatement.symm.trans hsay.2
    · cases hstatement.symm.trans hsay.2
  have hlines : ∀ line ∈ [loop, body], line.ReadsOnly {name | name ∈ ["xs".toList, "x".toList]} :=
    List.forall_mem_cons.mpr ⟨hloop, List.forall_mem_singleton.mpr hbody⟩
  have hdata : ∀ name ∈ ["xs".toList, "x".toList], data.find? name = data'.find? name :=
    List.forall_mem_cons.mpr ⟨rfl, List.forall_mem_singleton.mpr rfl⟩
  exact ⟨[loop, body], data, data', hlines, rfl, rfl, renderLines_eq_of_agree _ hlines hdata,
    by decide +kernel⟩

end IndentHtml
