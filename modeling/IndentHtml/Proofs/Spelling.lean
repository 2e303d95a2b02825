import IndentHtml.Proofs.Expansion
import IndentHtml.Proofs.NormalForm
import IndentHtml.Source.Render

/-!
# How a path is spelled

A directory is carried along as a spelled path, cut off an include target and extended by the next
one, while a store and the chain of open templates know normal forms only.  In a store whose
include targets are ordinary (`Store.IncludesOrdinary`), two spellings of a directory lead to the
same targets: opening a target gives the same lines, the same place on the chain and two spellings
of the next directory, or it fails in the same way (`Store.openTarget_respelled`).

**Spelling** (`Store.expand_respelled`).  Two spellings of an ordinary path have one expansion: the
same lines, or errors of one kind at one path.
-/

namespace IndentHtml

/-! ### Results that agree -/

/-- Errors of one kind at one path, however it is spelled.  What a store holds it can read, so
there is no case for an unreadable template. -/
inductive TemplateError.Alike : TemplateError → TemplateError → Prop where
  | notFound {p q : Path} : p.normal = q.normal → Alike (.notFound p) (.notFound q)
  | includeNotFound {p q : Path} :
      p.normal = q.normal → Alike (.includeNotFound p) (.includeNotFound q)
  | includeCycle {p q : Path} : p.normal = q.normal → Alike (.includeCycle p) (.includeCycle q)
  | tooManyIncludes (depth : Nat) : Alike (.tooManyIncludes depth) (.tooManyIncludes depth)

/-- Two results that both succeed with related values or both fail with alike errors. -/
inductive Source.Agree {α : Type} (R : α → α → Prop) :
    Except TemplateError α → Except TemplateError α → Prop where
  | ok {a b : α} : R a b → Agree R (.ok a) (.ok b)
  | error {e f : TemplateError} : e.Alike f → Agree R (.error e) (.error f)

/-- Holds of lines with ordinary include targets. -/
def Line.IncludesOrdinary (lines : List Line) : Prop :=
  ∀ line ∈ lines, ∀ target, Directive.include? line.content = some target →
    (Path.mk target).Ordinary

instance (lines : List Line) : Decidable (Line.IncludesOrdinary lines) :=
  decidable_of_iff (∀ line ∈ lines, ((Directive.include? line.content).all fun target =>
      decide (Path.mk target).Ordinary) = true)
    (forall₂_congr fun line _ => by
      cases Directive.include? line.content <;> simp)

namespace Store

open Source (Agree)

/-- Holds of a store with ordinary include targets in all its templates. -/
def IncludesOrdinary (store : Store) : Prop :=
  ∀ path content, store.read path = .ok content → Line.IncludesOrdinary (Text.lines content)

variable {store : Store}

theorem read_eq_ok_iff {path : Path} {content : Text} :
    store.read path = .ok content ↔ store.find? path.normal = some content := by
  rw [read]
  cases store.find? path.normal <;> simp

theorem read_respelled {p q : Path} (h : p.normal = q.normal) {content : Text}
    (hp : store.read p = .ok content) : store.read q = .ok content := by
  rw [read_eq_ok_iff] at hp ⊢
  rwa [← h]

theorem canonical_respelled {p q : Path} (h : p.normal = q.normal) :
    store.source.canonical p = store.source.canonical q :=
  congrArg NormalPath.toPath h

theorem includesOrdinary_of_forall_mem
    (h : ∀ entry ∈ store.templates, Line.IncludesOrdinary (Text.lines entry.2)) :
    store.IncludesOrdinary := by
  intro path content hread
  obtain ⟨before, after, heq, -⟩ := List.lookup_eq_some_iff.mp (read_eq_ok_iff.mp hread)
  refine h (path.normal, content) ?_
  rw [heq]
  exact List.mem_append_right _ List.mem_cons_self

/-- Two opened targets that are one template, with two spellings of its directory. -/
structure SameTarget (t u : IncludeTarget) : Prop where
  lines : t.lines = u.lines
  canonical : t.canonical = u.canonical
  directory : t.directory.Respelled u.directory
  ordinary : Line.IncludesOrdinary t.lines

/-- What a store answers when a target is opened: its template, unless there is none or it is open
already. -/
theorem openTarget_eq (base : Path) (chain : List Path) (target : Text) :
    store.source.openTarget base chain target =
      match store.find? (base.target target).normal with
      | none => .error (.includeNotFound (base.target target))
      | some content =>
          if chain.any (Path.same (base.target target).normal.toPath) then
            .error (.includeCycle (base.target target))
          else
            .ok ⟨Text.lines content, (base.target target).parent?.getD base,
              (base.target target).normal.toPath⟩ := by
  rcases Option.eq_none_or_eq_some (store.find? (base.target target).normal) with
    hfind | ⟨content, hfind⟩
  · simp only [Source.openTarget, source, hfind, Option.isSome_none, Bool.not_false, if_true]
  · simp only [Source.openTarget, source, read, hfind, Option.isSome_some, Bool.not_true,
      Bool.false_eq_true, if_false]

/-- **A target is opened in the same way** under two spellings of a directory. -/
theorem openTarget_respelled (hstore : store.IncludesOrdinary) {base base' : Path}
    (hbase : base.Respelled base') (chain : List Path) {target : Text}
    (htarget : (Path.mk target).Ordinary) :
    Agree SameTarget (store.source.openTarget base chain target)
      (store.source.openTarget base' chain target) := by
  have hnormal := hbase.target htarget.slashed
  obtain ⟨dir, dir', hdir, hdir', hparents⟩ :=
    (htarget.target hbase.left).exists_parents (htarget.target hbase.right) hnormal
  rw [openTarget_eq, openTarget_eq, ← hnormal]
  cases hfind : store.find? (base.target target).normal with
  | none => exact .error (.includeNotFound hnormal)
  | some content =>
      cases hchain : chain.any (Path.same (base.target target).normal.toPath) with
      | true => exact .error (.includeCycle hnormal)
      | false =>
          have hordinary := hstore _ content (read_eq_ok_iff.mpr hfind)
          rw [hdir, hdir']
          exact .ok ⟨rfl, rfl, hparents, hordinary⟩

/-! ### Expansion -/

/-- Holds of an expansion that agrees for any two spellings of a directory. -/
def SpellingFree (enter : List Line → Path → List Path → Expansion) : Prop :=
  ∀ {lines : List Line} {base base' : Path} (chain : List Path), Line.IncludesOrdinary lines →
    base.Respelled base' →
      Agree (· = ·) (enter lines base chain).result (enter lines base' chain).result

theorem agree_prepend {x y : Expansion} (h : Agree (· = ·) x.result y.result) (lines : List Line) :
    Agree (· = ·) (x.prepend lines).result (y.prepend lines).result := by
  obtain ⟨result, chain⟩ := x
  obtain ⟨result', chain'⟩ := y
  cases h with
  | ok heq => exact .ok (congrArg (lines ++ ·) heq)
  | error halike => exact .error halike

/-- One level of an expansion is free of the spelling when the levels below are. -/
theorem spellingFree_expandWith (hstore : store.IncludesOrdinary)
    {enter : List Line → Path → List Path → Expansion} (henter : SpellingFree enter) :
    SpellingFree fun lines base chain => store.source.expandWith enter base chain lines := by
  intro lines base base' chain hlines hbase
  induction lines with
  | nil => exact .ok rfl
  | cons line rest ih =>
      obtain ⟨hline, hrest⟩ := List.forall_mem_cons.mp hlines
      cases hinclude : Directive.include? line.content with
      | none =>
          simp only [Source.expandWith, hinclude]
          exact agree_prepend (ih hrest) [line]
      | some target =>
          have hopen := openTarget_respelled hstore hbase chain (hline target hinclude)
          simp only [Source.expandWith, hinclude]
          generalize store.source.openTarget base chain target = left at hopen ⊢
          generalize store.source.openTarget base' chain target = right at hopen ⊢
          cases hopen with
          | error halike => exact .error halike
          | @ok t u hsame =>
              have hinner := henter (chain ++ [t.canonical]) hsame.ordinary hsame.directory
              simp only [← hsame.lines, ← hsame.canonical]
              rcases henter₁ : enter t.lines t.directory (chain ++ [t.canonical]) with ⟨x, _⟩
              rcases henter₂ : enter t.lines u.directory (chain ++ [t.canonical]) with ⟨y, _⟩
              rw [henter₁, henter₂] at hinner
              cases hinner with
              | error halike => exact .error halike
              | ok heq =>
                  obtain rfl := heq
                  exact agree_prepend (ih hrest) _

/-- No level of an expansion depends on the spelling. -/
theorem spellingFree_expandWithin (hstore : store.IncludesOrdinary) (budget depth : Nat) :
    SpellingFree (store.source.expandWithin budget depth) := by
  induction budget generalizing depth with
  | zero =>
      intro lines base base' chain _ _
      exact .error (.tooManyIncludes depth)
  | succ budget ih => exact spellingFree_expandWith hstore (ih (depth + 1))

/-- What a store answers when a template is expanded: the expansion of what it holds. -/
theorem expand_eq (path : Path) :
    store.source.expand path =
      match store.find? path.normal with
      | none => .error (.notFound path)
      | some content =>
          (store.source.expandIncludes (Text.lines content) (path.parent?.getD Path.empty) 0
            [path.normal.toPath]).result := by
  rcases Option.eq_none_or_eq_some (store.find? path.normal) with hfind | ⟨content, hfind⟩
  · simp only [Source.expand, Source.loadLines, source, hfind, Option.isSome_none,
      Bool.false_eq_true, if_false]
  · simp only [Source.expand, Source.loadLines, source, read, hfind, Option.isSome_some, if_true]

/-- **Spelling.**  Two spellings of an ordinary path have one expansion. -/
theorem expand_respelled (hstore : store.IncludesOrdinary) {p q : Path} (hp : p.Ordinary)
    (hq : q.Ordinary) (h : p.normal = q.normal) :
    Agree (· = ·) (store.source.expand p) (store.source.expand q) := by
  obtain ⟨dir, dir', hdir, hdir', hparents⟩ := hp.exists_parents hq h
  rw [expand_eq, expand_eq, ← h, hdir, hdir']
  cases hfind : store.find? p.normal with
  | none => exact .error (.notFound h)
  | some content =>
      have hlines := hstore p content (read_eq_ok_iff.mpr hfind)
      exact spellingFree_expandWithin hstore _ _ _ hlines hparents

/-- A template that includes itself, reached by two spellings that both climb above where they
start. -/
theorem expand_respelled_of_cycle :
    ∃ (store : Store) (p q : Path), store.IncludesOrdinary ∧ p.Ordinary ∧ q.Ordinary ∧
      p.normal = q.normal ∧
      store.source.expand p = .error (.includeCycle (Path.ofString "a/../../a/b")) ∧
      store.source.expand q = .error (.includeCycle (Path.ofString "../x/..//a/../../a/b")) ∧
      Agree (· = ·) (store.source.expand p) (store.source.expand q) := by
  let store := Store.empty.add (Path.ofString "a/b") "p\n@include '../../a/b'".toList
  let p := Path.ofString "a/b"
  let q := Path.ofString "../x/..//a/./b"
  have hstore : store.IncludesOrdinary :=
    includesOrdinary_of_forall_mem (List.forall_mem_singleton.mpr (by decide))
  have hp : p.Ordinary := by decide
  have hq : q.Ordinary := by decide
  have hnormal : p.normal = q.normal := by decide
  exact ⟨store, p, q, hstore, hp, hq, hnormal, by rfl, by rfl,
    expand_respelled hstore hp hq hnormal⟩

end Store

end IndentHtml
