import IndentHtml.Proofs.Provenance

/-!
# Nesting

`Page.Reached lines page` holds of the pages that come about from the new page by rendering lines
under any scopes and closing to any levels, in any order; `lines` are the lines rendered on the
way.

The tokens of a page are replayed from the outside: a start tag goes on a stack, and an end tag has
to be that of the tag on top (`replay`).  A walk is `Faithful` when it keeps the levels of a stack
strictly increasing and its tokens replay to what it does to the stack.  Every run is faithful, and
faithful walks compose, whatever the order of calls.

**Nesting** (`nesting_of_reached`).  On every reached page the levels increase, the tokens replay to
the stack, closing to a level keeps exactly the tags below it, and closing everything gives a
balanced page, in which every start tag has its own end tag.
-/

namespace IndentHtml

open Html (Tag Token)
open Stack (Increasing)

/-! ### Replaying tokens -/

namespace Html

/-- What a token does to the stack of open tags.  An end tag has to be that of the innermost one. -/
def Token.apply : Token → List Tag → Option (List Tag)
  | .opening tag _, stack => some (tag :: stack)
  | .closing tag, top :: stack => if tag = top then some stack else none
  | .closing _, [] => none
  | .doctype, stack => some stack
  | .text _, stack => some stack

/-- The tags that are open after some tokens. -/
def replay : List Token → List Tag → Option (List Tag)
  | [], stack => some stack
  | token :: tokens, stack => (token.apply stack).bind (replay tokens)

/-- Tokens are replayed part by part. -/
theorem replay_append (tokens more : List Token) (stack : List Tag) :
    replay (tokens ++ more) stack = (replay tokens stack).bind (replay more) := by
  induction tokens generalizing stack with
  | nil => rfl
  | cons token tokens ih =>
      rw [List.cons_append, replay, replay, Option.bind_assoc]
      exact congrArg _ (funext ih)

/-- An end tag in the replay is that of the innermost open tag. -/
theorem apply_closing {tag : Tag} {stack stack' : List Tag}
    (h : (Token.closing tag).apply stack = some stack') : stack = tag :: stack' := by
  cases stack with
  | nil => cases h
  | cons top stack =>
      rw [Token.apply] at h
      split at h
      · next htop => rw [htop, Option.some.inj h]
      · cases h

/-- Wherever an end tag stands in tokens that replay, its tag is the innermost open one. -/
theorem innermost_of_replay {before after : List Token} {tag : Tag} {stack stack' : List Tag}
    (h : replay (before ++ .closing tag :: after) stack = some stack') :
    ∃ outer, replay before stack = some (tag :: outer) := by
  rw [replay_append] at h
  obtain ⟨top, hbefore, hafter⟩ := Option.bind_eq_some_iff.mp h
  obtain ⟨outer, hstep, -⟩ := Option.bind_eq_some_iff.mp hafter
  obtain rfl := apply_closing hstep
  exact ⟨outer, hbefore⟩

/-- Tokens in which every start tag has its own end tag, with balanced tokens between the two. -/
inductive Balanced : List Token → Prop where
  | nil : Balanced []
  | doctype {rest : List Token} : Balanced rest → Balanced (.doctype :: rest)
  | text (content : Text) {rest : List Token} : Balanced rest → Balanced (.text content :: rest)
  | element (tag : Tag) (attributes : List Attribute) {inner rest : List Token} :
      Balanced inner → Balanced rest →
        Balanced (.opening tag attributes :: (inner ++ .closing tag :: rest))

/-- Among balanced tokens, the tag of an end tag has been opened. -/
theorem Balanced.opening_of_closing {tokens : List Token} (h : Balanced tokens) {tag : Tag}
    (hmem : .closing tag ∈ tokens) : ∃ attributes, .opening tag attributes ∈ tokens := by
  induction h with
  | nil => cases hmem
  | doctype _ ih | text _ _ ih =>
      rcases List.mem_cons.mp hmem with heq | hmem
      · cases heq
      · obtain ⟨attributes, ha⟩ := ih hmem
        exact ⟨attributes, List.mem_cons_of_mem _ ha⟩
  | element tag' attributes' _ _ ihInner ihRest =>
      rcases List.mem_cons.mp hmem with heq | hmem
      · cases heq
      rcases List.mem_append.mp hmem with hmem | hmem
      · obtain ⟨attributes, ha⟩ := ihInner hmem
        exact ⟨attributes, List.mem_cons_of_mem _ (List.mem_append_left _ ha)⟩
      · rcases List.mem_cons.mp hmem with heq | hmem
        · obtain rfl := Token.closing.inj heq
          exact ⟨attributes', List.mem_cons_self⟩
        · obtain ⟨attributes, ha⟩ := ihRest hmem
          exact ⟨attributes, List.mem_cons_of_mem _
            (List.mem_append_right _ (List.mem_cons_of_mem _ ha))⟩

/-- Tokens that close the tags of a stack one after the other and are balanced otherwise. -/
def Unwinds : List Tag → List Token → Prop
  | [], tokens => Balanced tokens
  | tag :: stack, tokens =>
      ∃ inner rest, tokens = inner ++ .closing tag :: rest ∧ Balanced inner ∧ Unwinds stack rest

/-- Tokens that keep what follows them balanced may come first. -/
theorem Unwinds.prepend (first : List Token) {stack : List Tag} {tokens : List Token}
    (hfirst : ∀ {inner}, Balanced inner → Balanced (first ++ inner)) (h : Unwinds stack tokens) :
    Unwinds stack (first ++ tokens) := by
  cases stack with
  | nil => exact hfirst h
  | cons tag stack =>
      obtain ⟨inner, rest, rfl, hinner, hrest⟩ := h
      exact ⟨first ++ inner, rest, by rw [List.append_assoc], hfirst hinner, hrest⟩

/-- Tokens whose replay ends with no open tag unwind the stack. -/
theorem unwinds_of_replay {tokens : List Token} {stack : List Tag}
    (h : replay tokens stack = some []) : Unwinds stack tokens := by
  induction tokens generalizing stack with
  | nil =>
      obtain rfl : stack = [] := Option.some.inj h
      exact .nil
  | cons token tokens ih =>
      obtain ⟨stack', hstep, hrest⟩ := Option.bind_eq_some_iff.mp h
      cases token with
      | doctype =>
          obtain rfl := Option.some.inj hstep
          exact .prepend [.doctype] .doctype (ih hrest)
      | text content =>
          obtain rfl := Option.some.inj hstep
          exact .prepend [.text content] (.text content) (ih hrest)
      | opening tag attributes =>
          obtain rfl := Option.some.inj hstep
          obtain ⟨inner, rest, rfl, hinner, houter⟩ := ih hrest
          -- the first end tag that unwinds the stack is that of this start tag
          have hassoc : Token.opening tag attributes :: (inner ++ .closing tag :: rest) =
              (.opening tag attributes :: (inner ++ [.closing tag])) ++ rest := by simp
          rw [hassoc]
          refine .prepend _ (fun hafter => ?_) houter
          rw [List.cons_append, List.append_assoc]
          exact .element tag attributes hinner hafter
      | closing tag =>
          obtain rfl := apply_closing hstep
          exact ⟨[], tokens, rfl, .nil, ih hrest⟩

/-- Tokens that replay from no open tags to none are balanced. -/
theorem balanced_of_replay {tokens : List Token} (h : replay tokens [] = some []) :
    Balanced tokens :=
  unwinds_of_replay h

end Html

/-! ### Faithful walks -/

/-- A walk that keeps levels increasing and whose tokens replay to what it does to the stack. -/
structure Walk.Faithful (walk : Walk) : Prop where
  increasing : ∀ {stack}, Increasing stack → Increasing (walk stack).2
  replayed : ∀ stack, Html.replay (walk stack).1 stack = some (walk stack).2

namespace Walk

open Html (replay)

theorem faithful_idle : Faithful idle :=
  ⟨fun h => h, fun _ => rfl⟩

theorem faithful_write {token : Token} (h : ∀ stack, token.apply stack = some stack) :
    Faithful (write token) := by
  refine ⟨fun hs => hs, fun stack => ?_⟩
  show (token.apply stack).bind (replay []) = some stack
  rw [h]
  rfl

theorem replay_close (level : Nat) (stack : List Tag) :
    replay (close level stack).1 stack = some (close level stack).2 := by
  induction stack with
  | nil => rfl
  | cons tag stack ih =>
      rw [close]
      split
      · have hstep : (Token.closing tag).apply (tag :: stack) = some stack := by
          rw [Token.apply, if_pos rfl]
        show ((Token.closing tag).apply (tag :: stack)).bind (replay _) = _
        rw [hstep]
        exact ih
      · rfl

theorem faithful_close (level : Nat) : Faithful (close level) := by
  refine ⟨fun {stack} hs => ?_, replay_close level⟩
  rw [close_of_increasing hs]
  exact hs.filter _

/-- Faithful walks make a faithful walk. -/
theorem Faithful.andThen {a b : Walk} (ha : Faithful a) (hb : Faithful b) :
    Faithful (a.andThen b) := by
  refine ⟨fun hs => hb.increasing (ha.increasing hs), fun stack => ?_⟩
  rw [andThen_apply, Html.replay_append, ha.replayed, Option.bind_some, hb.replayed]

theorem faithful_forEach {α : Type} {walk : α → Walk} (h : ∀ item, Faithful (walk item))
    (items : List α) : Faithful (forEach walk items) := by
  induction items with
  | nil => exact faithful_idle
  | cons item items ih => exact (h item).andThen ih

/-- A tag may be opened at a level after closing to that level. -/
theorem faithful_close_openTag (tag : Tag) (attributes : List Html.Attribute) :
    Faithful ((close tag.level).andThen (openTag tag attributes)) := by
  refine ⟨fun {stack} hs => ?_, fun stack => ?_⟩
  · -- all that closing keeps is below the level of the new tag
    have hkept := (faithful_close tag.level).increasing hs
    refine Stack.increasing_cons.mpr ⟨fun t ht => ?_, hkept⟩
    rw [close_of_increasing hs] at ht
    simpa using (List.mem_filter.mp ht).2
  · rw [andThen_apply, Html.replay_append, replay_close]
    rfl

end Walk

/-- **A run is faithful.** -/
theorem Script.faithful_run (script : Script) (scope : Scope) : (script.run scope).Faithful := by
  induction script generalizing scope with
  | done => exact Walk.faithful_idle
  | skip level rest ih => exact (Walk.faithful_close level).andThen (ih scope)
  | doctype level rest ih =>
      exact (Walk.faithful_close level).andThen
        ((Walk.faithful_write fun _ => rfl).andThen (ih scope))
  | text level content rest ih =>
      exact (Walk.faithful_close level).andThen
        ((Walk.faithful_write fun _ => rfl).andThen (ih scope))
  | element level e rest ih =>
      rw [run, ← Walk.andThen_assoc]
      exact (Walk.faithful_close_openTag ⟨e.tag, level⟩ _).andThen
        ((Walk.faithful_write fun _ => rfl).andThen (ih scope))
  | choice level path yes no rest ihYes ihNo ih =>
      refine (Walk.faithful_close level).andThen (Walk.Faithful.andThen ?_
        ((Walk.faithful_close (level + 1)).andThen (ih scope)))
      split
      · exact ihYes scope
      · exact ihNo scope
  | loop level path name body rest ihBody ih =>
      exact (Walk.faithful_close level).andThen ((Walk.faithful_forEach
        (fun item => (ihBody _).andThen (Walk.faithful_close (level + 1))) _).andThen (ih scope))

/-! ### Reached pages -/

namespace Page

/-- The pages that come about from the new one by rendering and closing, in any order, with the
lines that were rendered on the way. -/
inductive Reached : List Line → Page → Prop where
  | empty : Reached [] Page.empty
  | render {lines : List Line} {page : Page} (scope : Scope) (more : List Line) :
      Reached lines page → Reached (lines ++ more) (page.renderLines scope more)
  | close {lines : List Line} {page : Page} (level : Nat) :
      Reached lines page → Reached lines (page.closeTo level)

/-- What every step keeps: the levels increase, the tokens replay to the stack, and each of them
comes from a line. -/
structure Sound (lines : List Line) (page : Page) : Prop where
  increasing : Increasing page.stack
  replayed : Html.replay page.tokens [] = some page.stack
  brought : ∀ token ∈ page.tokens, Brought lines token

theorem Sound.walk {lines : List Line} {page : Page} {walk : Walk} (h : Sound lines page)
    (hf : walk.Faithful) (hw : walk.Writes (Brought lines)) : Sound lines (page.walk walk) := by
  refine ⟨hf.increasing h.increasing, ?_, fun token ht => ?_⟩
  · show Html.replay (page.tokens ++ (walk page.stack).1) [] = some (walk page.stack).2
    rw [Html.replay_append, h.replayed, Option.bind_some, hf.replayed]
  · rcases List.mem_append.mp ht with ht | ht
    · exact h.brought token ht
    · exact hw page.stack token ht

theorem Sound.mono {lines lines' : List Line} {page : Page} (h : Sound lines page)
    (hsub : lines ⊆ lines') : Sound lines' page :=
  ⟨h.increasing, h.replayed, fun token ht => (h.brought token ht).mono hsub⟩

/-- Every page that is reached is sound. -/
theorem Reached.sound {lines : List Line} {page : Page} (h : Reached lines page) :
    Sound lines page := by
  induction h with
  | empty => exact ⟨List.Pairwise.nil, rfl, fun token ht => absurd ht List.not_mem_nil⟩
  | @render lines page scope more _ ih =>
      have hmore := Script.writes_run_ofLines more scope
      exact (ih.mono (List.subset_append_left lines more)).walk (Script.faithful_run _ scope)
        (hmore.brought_mono (List.subset_append_right lines more))
  | @close lines page level _ ih =>
      exact ih.walk (Walk.faithful_close level) (Script.writes_close_brought lines level)

theorem closeTo_of_increasing {page : Page} (h : Increasing page.stack) (level : Nat) :
    page.closeTo level =
      ⟨page.stack.filter fun tag => decide (tag.level < level),
        page.tokens ++
          (page.stack.filter fun tag => decide (level ≤ tag.level)).map .closing⟩ :=
  walk_of_eq (Walk.close_of_increasing h)

/-- Closing to level zero closes all tags, innermost first. -/
theorem closeTo_zero {page : Page} (h : Increasing page.stack) :
    page.closeTo 0 = ⟨[], page.tokens ++ page.stack.map .closing⟩ := by
  have hall : page.stack.filter (fun tag => decide (0 ≤ tag.level)) = page.stack :=
    List.filter_eq_self.mpr fun tag _ => decide_eq_true (Nat.zero_le tag.level)
  have hnone : page.stack.filter (fun tag => decide (tag.level < 0)) = [] :=
    List.filter_eq_nil_iff.mpr fun tag _ => by simp
  rw [closeTo_of_increasing h, hall, hnone]

end Page

/-- **Nesting.**  On a reached page the levels of the stack strictly increase towards the inside.
The tags that were opened, by element lines, and not closed are those of the stack, and every end
tag is that of the tag that was innermost when it was written.  Closing to a level writes the end
tags of the tags at the level or deeper and keeps the others.  Finishing writes the end tags of the
whole stack, innermost first, and leaves a balanced page. -/
theorem nesting_of_reached {lines : List Line} {page : Page} (h : Page.Reached lines page) :
    Increasing page.stack ∧
    Html.replay page.tokens [] = some page.stack ∧
    (∀ tag attributes, .opening tag attributes ∈ page.tokens →
      ∃ line ∈ lines, ∃ e, line.Says (.element e) ∧ tag = ⟨e.tag, line.level⟩) ∧
    (∀ before tag after, page.tokens = before ++ .closing tag :: after →
      ∃ outer, Html.replay before [] = some (tag :: outer)) ∧
    (∀ level, page.closeTo level =
      ⟨page.stack.filter fun tag => decide (tag.level < level),
        page.tokens ++
          (page.stack.filter fun tag => decide (level ≤ tag.level)).map .closing⟩) ∧
    page.finish = Token.printAll (page.tokens ++ page.stack.map .closing) ∧
    Html.Balanced (page.tokens ++ page.stack.map .closing) := by
  have hs := h.sound
  have hfinish := Page.closeTo_zero hs.increasing
  refine ⟨hs.increasing, hs.replayed, fun tag attributes ht => ?_, fun before tag after he => ?_,
    Page.closeTo_of_increasing hs.increasing, ?_, ?_⟩
  · cases hs.brought _ ht with
    | opening scope hline hsay => exact ⟨_, hline, _, hsay, rfl⟩
  · have hreplay := hs.replayed
    rw [he] at hreplay
    exact Html.innermost_of_replay hreplay
  · rw [Page.finish, hfinish]
    rfl
  · have hclosed := (Page.Reached.close 0 h).sound.replayed
    rw [hfinish] at hclosed
    exact Html.balanced_of_replay hclosed

/-- Two items of a list, rendered by two calls with a closing between them. -/
theorem nesting_of_two_items :
    ∃ page, Page.Reached ["ul".toList, "  li a".toList, "  li b".toList] page ∧
      page.stack = [⟨"li".toList, 1⟩, ⟨"ul".toList, 0⟩] ∧
      Html.Balanced (page.tokens ++ page.stack.map .closing) := by
  have h : Page.Reached ["ul".toList, "  li a".toList, "  li b".toList]
      (((Page.empty.renderLines (Scope.ofData []) ["ul".toList, "  li a".toList]).closeTo
        1).renderLines (Scope.ofData []) ["  li b".toList]) :=
    .render _ ["  li b".toList] (.close 1 (.render _ ["ul".toList, "  li a".toList] .empty))
  obtain ⟨-, -, -, -, -, -, hbalanced⟩ := nesting_of_reached h
  exact ⟨_, h, by decide +kernel, hbalanced⟩

end IndentHtml
