import IndentHtml.Proofs.Expansion
import IndentHtml.Source.Changing

/-!
# Idempotence of expansion

A source may change while it is being asked (`ChangingSource`), so two include lines with one
target may be replaced by different lines, and a template may even include itself under a new
canonical path.  What an expansion leaves behind does not depend on the answers.

**Completeness** (`Expansion.Complete`).  A success takes off the chain what it put on it, and none
of its lines is an include line.  A spliced line has the content of the line of the target, since it
only gains a margin, so one level keeps this when the level below has it
(`ChangingSource.complete_expandWith`).

A source in the narrow sense is a changing one that never changes
(`Source.expandIncludes_steady`), so this holds of it as well.

**Idempotence** (`expandIncludes_idempotent`).  Lines without includes are their own expansion at
every depth that is followed, and no source is asked about them (`WithoutIncludes.expanded`).  So
the lines that a success leaves are expanded (`Expanded`), once and for all.
-/

namespace IndentHtml

/-- What is put in front of a line as a margin belongs to its margin. -/
theorem Line.content_append {margin : Text} (h : ∀ c ∈ margin, Text.isMargin c = true)
    (line : Line) : Line.content (margin ++ line) = line.content :=
  List.dropWhile_append_of_pos h

theorem Line.isMargin_of_mem_margin {line : Line} {c : Char} (h : c ∈ line.margin) :
    Text.isMargin c = true :=
  List.all_eq_true.mp List.all_takeWhile c h

/-- Holds of lines none of which is an include line. -/
def WithoutIncludes (lines : List Line) : Prop :=
  ∀ line ∈ lines, Directive.include? line.content = none

/-- A margin makes no include line out of a line that is none. -/
theorem WithoutIncludes.indent {lines : List Line} (h : WithoutIncludes lines) (line : Line) :
    WithoutIncludes (lines.map (line.margin ++ ·)) := by
  refine List.forall_mem_map.mpr fun inner hinner => ?_
  rw [Line.content_append fun c hc => Line.isMargin_of_mem_margin hc]
  exact h inner hinner

namespace Expansion

variable {x : Expansion} {lines : List Line} {chain : List Path}

/-- Holds of an expansion that, if it is a success, ends with the chain it began with and leaves no
include line. -/
def Complete (x : Expansion) (chain : List Path) : Prop :=
  ∀ out, x.result = .ok out → x.chain = chain ∧ WithoutIncludes out

/-- An error makes no claim. -/
theorem complete_error (e : TemplateError) (left : List Path) :
    (⟨.error e, left⟩ : Expansion).Complete chain := by
  intro out hout
  cases hout

theorem complete_nil : (⟨.ok [], chain⟩ : Expansion).Complete chain := by
  intro out hout
  obtain rfl := Except.ok.inj hout
  exact ⟨rfl, fun line hline => absurd hline List.not_mem_nil⟩

/-- Lines without includes may be put in front of a complete expansion. -/
theorem Complete.prepend (h : x.Complete chain) (hlines : WithoutIncludes lines) :
    (x.prepend lines).Complete chain := by
  intro out hout
  obtain ⟨more, hmore, rfl⟩ := prepend_eq_ok.mp hout
  obtain ⟨hchain, hplain⟩ := h more hmore
  exact ⟨hchain, List.forall_mem_append.mpr ⟨hlines, hplain⟩⟩

end Expansion

/-- Holds of a computation whose value has a property, whatever the state is that it starts in. -/
def Always {σ α : Type} (P : α → Prop) (m : StateM σ α) : Prop :=
  ∀ state, P (m.run state).1

namespace Always

variable {σ α β : Type} {P : α → Prop} {Q : β → Prop} {m : StateM σ α}

theorem of_pure {a : α} (h : P a) : Always P (pure a : StateM σ α) :=
  fun _ => h

/-- A property goes through a computation step by step. -/
theorem bind {f : α → StateM σ β} (h : Always P m) (hf : ∀ a, P a → Always Q (f a)) :
    Always Q (m >>= f) :=
  fun state => hf _ (h state) _

theorem map {f : α → β} (h : Always P m) (hf : ∀ a, P a → Q (f a)) : Always Q (f <$> m) :=
  fun state => hf _ (h state)

end Always

namespace ChangingSource

variable {σ : Type} {source : ChangingSource σ}

theorem run_bind_of_eq {α β : Type} {m : StateM σ α} {f : α → StateM σ β} {a : α} {state left : σ}
    (h : m.run state = (a, left)) : (m >>= f).run state = (f a).run left := by
  rw [StateT.run_bind, h]
  rfl

/-! ### One level -/

section

variable {enter : List Line → Path → List Path → StateM σ Expansion} {base : Path}
  {chain : List Path} {line : Line} {lines rest : List Line}

theorem expandWith_plain (h : Directive.include? line.content = none) :
    source.expandWith enter base chain (line :: rest) =
      Expansion.prepend [line] <$> source.expandWith enter base chain rest := by
  simp only [expandWith, h]

/-- **One level of an expansion is complete if the level below is**, whatever becomes of the state
of the source on the way. -/
theorem complete_expandWith
    (henter : ∀ lines base chain, Always (Expansion.Complete · chain) (enter lines base chain))
    (lines : List Line) (chain : List Path) :
    Always (Expansion.Complete · chain) (source.expandWith enter base chain lines) := by
  induction lines generalizing chain with
  | nil => exact .of_pure Expansion.complete_nil
  | cons line rest ih =>
      cases hline : Directive.include? line.content with
      | none =>
          rw [expandWith_plain hline]
          exact (ih chain).map fun x hx => hx.prepend (List.forall_mem_singleton.mpr hline)
      | some target =>
          -- nothing is known of the answers of the source
          have hopen : Always (fun _ => True) (source.openTarget base chain target) :=
            fun _ => trivial
          simp only [expandWith, hline]
          refine hopen.bind fun opened _ => ?_
          cases opened with
          | error e => exact .of_pure (Expansion.complete_error e chain)
          | ok t =>
              refine (henter t.lines t.directory (chain ++ [t.canonical])).bind fun x hx => ?_
              obtain ⟨e | ls, inner⟩ := x
              · exact .of_pure (Expansion.complete_error e inner)
              · obtain ⟨hinner, hplain⟩ := hx ls rfl
                -- the target is the last path of the chain again, so it is the one taken off
                obtain rfl : inner = chain ++ [t.canonical] := hinner
                simp only [List.dropLast_concat]
                exact (ih chain).map fun x hx => hx.prepend (hplain.indent line)

/-- Lines without includes are expanded to themselves, and the source is not asked anything. -/
theorem expandWith_of_withoutIncludes (h : WithoutIncludes lines) :
    source.expandWith enter base chain lines = pure ⟨.ok lines, chain⟩ := by
  induction lines with
  | nil => rfl
  | cons line rest ih =>
      obtain ⟨hline, hrest⟩ := List.forall_mem_cons.mp h
      rw [expandWith_plain hline, ih hrest]
      rfl

end

/-! ### All levels -/

/-- Expansions are complete, with any budget. -/
theorem complete_expandWithin (source : ChangingSource σ) (budget depth : Nat)
    (lines : List Line) (base : Path) (chain : List Path) :
    Always (Expansion.Complete · chain) (source.expandWithin budget depth lines base chain) := by
  induction budget generalizing depth lines base chain with
  | zero => exact .of_pure (Expansion.complete_error _ chain)
  | succ budget ih => exact complete_expandWith (ih (depth + 1)) lines chain

end ChangingSource

/-! ### Sources that never change -/

namespace Source

variable {σ : Type} {source : Source}

/-- A source that never changes opens a target as it does without a state. -/
theorem openTarget_steady (base : Path) (chain : List Path) (target : Text) :
    (source.steady : ChangingSource σ).openTarget base chain target =
      pure (source.openTarget base chain target) := by
  simp only [ChangingSource.openTarget, steady, openTarget, pure_bind]
  split
  · rfl
  · split
    · rfl
    · cases source.read (base.target target) with
      | error cause => rfl
      | ok t => rfl

/-- One level is expanded alike if the level below is complete: the chain that is handed on to the
next include line is then the one that every include line is given. -/
theorem expandWith_steady {enter : List Line → Path → List Path → Expansion}
    (hcomplete : ∀ lines base chain, (enter lines base chain).Complete chain)
    (lines : List Line) (base : Path) (chain : List Path) :
    (source.steady : ChangingSource σ).expandWith
        (fun lines base chain => pure (enter lines base chain)) base chain lines =
      pure (source.expandWith enter base chain lines) := by
  induction lines with
  | nil => rfl
  | cons line rest ih =>
      cases hline : Directive.include? line.content with
      | none =>
          rw [ChangingSource.expandWith_plain hline, ih, map_pure]
          simp only [expandWith, hline]
      | some target =>
          simp only [ChangingSource.expandWith, expandWith, hline, openTarget_steady, pure_bind]
          cases source.openTarget base chain target with
          | error e => rfl
          | ok t =>
              have hinner := hcomplete t.lines t.directory (chain ++ [t.canonical])
              dsimp only
              generalize enter t.lines t.directory (chain ++ [t.canonical]) = x at hinner ⊢
              obtain ⟨e | ls, inner⟩ := x
              · rfl
              · obtain rfl : inner = chain ++ [t.canonical] := (hinner ls rfl).1
                simp only [List.dropLast_concat, ih, map_pure]

theorem expandWithin_steady (budget depth : Nat) :
    (source.steady : ChangingSource σ).expandWithin budget depth =
      fun lines base chain => pure (source.expandWithin budget depth lines base chain) := by
  induction budget generalizing depth with
  | zero => rfl
  | succ budget ih =>
      funext lines base chain state
      -- what holds of changing sources is known of this one at the level below
      have hcomplete (lines : List Line) (base : Path) (chain : List Path) :
          (source.expandWithin budget (depth + 1) lines base chain).Complete chain := by
        have h := (source.steady : ChangingSource σ).complete_expandWithin budget (depth + 1)
          lines base chain
        rw [ih] at h
        exact h state
      rw [ChangingSource.expandWithin, expandWithin, ih, expandWith_steady hcomplete]

/-- **The includes of a source that never changes** are expanded as those of a source in general. -/
theorem expandIncludes_steady (lines : List Line) (base : Path) (depth : Nat)
    (chain : List Path) :
    (source.steady : ChangingSource σ).expandIncludes lines base depth chain =
      pure (source.expandIncludes lines base depth chain) := by
  rw [ChangingSource.expandIncludes, expandWithin_steady, expandIncludes]

end Source

/-! ### Expanding again -/

/-- Holds of lines that are expanded: none of them is an include line, and every further expansion
gives them back, whatever the source, the directory and the chain are, at every depth that is
followed.  It leaves the chain and the state of the source as they are. -/
structure Expanded (ls : List Line) : Prop where
  plain : ∀ line ∈ ls, Directive.include? line.content = none
  again : ∀ (source : Source) (base : Path) (depth : Nat) (chain : List Path),
    depth ≤ maxIncludeDepth → source.expandIncludes ls base depth chain = ⟨.ok ls, chain⟩
  againChanging : ∀ (σ : Type) (source : ChangingSource σ) (state : σ) (base : Path) (depth : Nat)
    (chain : List Path), depth ≤ maxIncludeDepth →
      (source.expandIncludes ls base depth chain).run state = (⟨.ok ls, chain⟩, state)

/-- Lines without includes are expanded to themselves. -/
theorem Source.expandWith_of_withoutIncludes {source : Source}
    (enter : List Line → Path → List Path → Expansion) (base : Path) (chain : List Path)
    {lines : List Line} (h : WithoutIncludes lines) :
    source.expandWith enter base chain lines = ⟨.ok lines, chain⟩ := by
  induction lines with
  | nil => rfl
  | cons line rest ih =>
      obtain ⟨hline, hrest⟩ := List.forall_mem_cons.mp h
      simp only [expandWith, hline, ih hrest]
      rfl

/-- **Lines without includes** are their own expansion, whatever the source is. -/
theorem WithoutIncludes.expanded {ls : List Line} (h : WithoutIncludes ls) : Expanded ls where
  plain := h
  again source base depth chain hdepth := by
    rw [Source.expandIncludes, Nat.succ_sub hdepth, Source.expandWithin]
    exact Source.expandWith_of_withoutIncludes _ base chain h
  againChanging σ source state base depth chain hdepth := by
    rw [ChangingSource.expandIncludes, Nat.succ_sub hdepth, ChangingSource.expandWithin,
      ChangingSource.expandWith_of_withoutIncludes h]
    rfl

/-- **Idempotence.**  The lines of a successful expansion are expanded, and the chain is as it was
before.  This holds of every source, also of one that changes while it is being asked.  Lines
without includes are expanded as they stand. -/
theorem expandIncludes_idempotent (lines : List Line) (base : Path) (depth : Nat)
    (chain : List Path) :
    (∀ (source : Source) (ls : List Line),
      (source.expandIncludes lines base depth chain).result = .ok ls →
        (source.expandIncludes lines base depth chain).chain = chain ∧ Expanded ls) ∧
    (∀ (σ : Type) (source : ChangingSource σ) (state : σ) (ls : List Line),
      ((source.expandIncludes lines base depth chain).run state).1.result = .ok ls →
        ((source.expandIncludes lines base depth chain).run state).1.chain = chain ∧
          Expanded ls) ∧
    (WithoutIncludes lines → Expanded lines) := by
  have hchanging (σ : Type) (source : ChangingSource σ) :
      Always (Expansion.Complete · chain) (source.expandIncludes lines base depth chain) :=
    source.complete_expandWithin _ depth lines base chain
  refine ⟨?_, ?_, WithoutIncludes.expanded⟩
  · intro source ls hls
    have hcomplete := hchanging Unit source.steady
    rw [Source.expandIncludes_steady] at hcomplete
    obtain ⟨hchain, hplain⟩ := hcomplete () ls hls
    exact ⟨hchain, hplain.expanded⟩
  · intro σ source state ls hls
    obtain ⟨hchain, hplain⟩ := hchanging σ source state ls hls
    exact ⟨hchain, hplain.expanded⟩

/-- A source that counts what is read from it.  A template includes itself when it is read for the
first time, and is an element from then on; the canonical path changes as well. -/
def ChangingSource.growing : ChangingSource Nat where
  isFile _ := pure true
  canonical path := do return if (← get) = 0 then path else Path.empty
  read _ := modifyGet fun count =>
    (.ok (if count = 0 then "\t@include 'a'".toList else "p".toList), count + 1)

/-- An include behind a NUL of a template with an include behind a tab: the second one is of another
template of a store, and of the template itself from a source where it changes. -/
theorem expandIncludes_idempotent_of_growing :
    ∃ store : Store,
      (store.source.expandIncludes ["\x00@include 'a'".toList] Path.empty 18 []).result =
        .ok ["\x00\tp".toList, "\x00h1".toList] ∧
      Expanded ["\x00\tp".toList, "\x00h1".toList] ∧
      ((ChangingSource.growing.expandIncludes ["\x00@include 'a'".toList] Path.empty 18 []).run
        0).1.result = .ok ["\x00\tp".toList] ∧
      Expanded ["\x00\tp".toList] := by
  obtain ⟨store, hstore⟩ : ∃ store : Store, store =
      (Store.empty.add (Path.ofString "a") "\t@include 'b'\nh1".toList).add (Path.ofString "b")
        "p".toList := ⟨_, rfl⟩
  have hresult : (store.source.expandIncludes ["\x00@include 'a'".toList] Path.empty 18 []).result =
      .ok ["\x00\tp".toList, "\x00h1".toList] := by
    subst hstore
    rfl
  have hgrowing : ((ChangingSource.growing.expandIncludes ["\x00@include 'a'".toList] Path.empty
      18 []).run 0).1.result = .ok ["\x00\tp".toList] := rfl
  obtain ⟨hsource, hchanging, -⟩ :=
    expandIncludes_idempotent ["\x00@include 'a'".toList] Path.empty 18 []
  exact ⟨store, hresult, (hsource store.source _ hresult).2, hgrowing,
    (hchanging Nat ChangingSource.growing 0 _ hgrowing).2⟩

end IndentHtml
