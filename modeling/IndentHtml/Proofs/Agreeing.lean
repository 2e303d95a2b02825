import IndentHtml.Proofs.Expansion
import IndentHtml.Source.Render

/-!
# Sources that agree

An expansion asks its source about the targets of its trails and about nothing else, and what the
canonical form and the content of a missing template are does not matter.  So two sources that
agree at these targets (`Source.AgreeAt`) expand and render a template alike
(`Source.render_congr`).
-/

namespace IndentHtml

namespace Source

/-- Two sources give one answer about a path, as far as it matters. -/
structure AgreeAt (source source' : Source) (path : Path) : Prop where
  isFile : source'.isFile path = source.isFile path
  canonical : source.isFile path = true → source'.canonical path = source.canonical path
  read : source.isFile path = true → source'.read path = source.read path

variable {source source' : Source} {lines : List Line} {base : Path} {chain : List Path}

theorem AgreeAt.openTarget_eq {target : Text} (h : AgreeAt source source' (base.target target)) :
    source'.openTarget base chain target = source.openTarget base chain target := by
  rw [openTarget, openTarget, h.isFile]
  cases hfile : source.isFile (base.target target) with
  | false => rfl
  | true => rw [h.canonical hfile, h.read hfile]

/-- A level expands alike when its targets are opened and entered alike. -/
theorem expandWith_congr {enter enter' : List Line → Path → List Path → Expansion}
    (h : ∀ line ∈ lines, ∀ target, Directive.include? line.content = some target →
      source'.openTarget base chain target = source.openTarget base chain target ∧
      ∀ t, source.openTarget base chain target = .ok t →
        ∀ chain, enter' t.lines t.directory chain = enter t.lines t.directory chain) :
    source'.expandWith enter' base chain lines = source.expandWith enter base chain lines := by
  induction lines with
  | nil => rfl
  | cons line rest ih =>
      obtain ⟨hline, hrest⟩ := List.forall_mem_cons.mp h
      rw [expandWith, expandWith, ih hrest]
      cases htarget : Directive.include? line.content with
      | none => rfl
      | some target =>
          obtain ⟨hopen, henter⟩ := hline target htarget
          dsimp only
          rw [hopen]
          cases ht : source.openTarget base chain target with
          | error e => rfl
          | ok t =>
              dsimp only
              rw [henter t ht]

/-- **Sources that agree on all trails** expand alike. -/
theorem expandWithin_congr {budget depth : Nat}
    (h : ∀ trail, source.Trail lines base trail → ∀ path ∈ trail, AgreeAt source source' path) :
    source'.expandWithin budget depth lines base chain =
      source.expandWithin budget depth lines base chain := by
  induction budget generalizing depth lines base chain with
  | zero => rfl
  | succ budget ih =>
      refine expandWith_congr fun line hline target htarget => ⟨?_, fun t ht chain => ?_⟩
      · exact (h _ (.last hline htarget) _ (List.mem_singleton_self _)).openTarget_eq
      · obtain ⟨-, -, content, hread, rfl⟩ := openTarget_eq_ok.mp ht
        exact ih fun trail htrail path hpath =>
          h _ (.enter hline htarget hread htrail) path (List.mem_cons_of_mem _ hpath)

/-- **A template is rendered alike** by sources that agree on it and on the targets of its
trails. -/
theorem render_congr {path : Path} (data : Data) (hpath : AgreeAt source source' path)
    (h : ∀ content, source.read path = .ok content →
      ∀ trail, source.Trail (Text.lines content) (path.parent?.getD Path.empty) trail →
        ∀ target ∈ trail, AgreeAt source source' target) :
    source'.render path data = source.render path data := by
  rw [render, render, expand, expand, loadLines, loadLines, hpath.isFile]
  cases hfile : source.isFile path with
  | false => rfl
  | true =>
      rw [if_pos rfl, if_pos rfl, hpath.canonical hfile, hpath.read hfile]
      cases hread : source.read path with
      | error cause => rfl
      | ok content =>
          dsimp only
          rw [expandIncludes, expandIncludes, expandWithin_congr (h content hread)]

/-! ### The targets of trails -/

/-- The targets of the include lines of a template. -/
def includes (source : Source) (path : Path) : List Path :=
  match source.read path with
  | .error _ => []
  | .ok content => (Text.lines content).filterMap fun (line : Line) =>
      (Directive.include? line.content).map (path.parent?.getD Path.empty).target

theorem mem_includes {path : Path} {content : Text} (h : source.read path = .ok content)
    {line : Line} (hline : line ∈ Text.lines content) {target : Text}
    (htarget : Directive.include? line.content = some target) :
    (path.parent?.getD Path.empty).target target ∈ source.includes path := by
  rw [includes, h]
  exact List.mem_filterMap.mpr ⟨line, hline, by rw [htarget]; rfl⟩

/-- A trail does not leave a list of paths with all that they include. -/
theorem mem_of_mem_trail {paths : List Path}
    (hclosed : ∀ path ∈ paths, path.parent? ≠ none ∧ source.includes path ⊆ paths)
    (hlines : ∀ line ∈ lines, ∀ target, Directive.include? line.content = some target →
      base.target target ∈ paths)
    {trail : List Path} (htrail : source.Trail lines base trail) :
    ∀ path ∈ trail, path ∈ paths := by
  induction htrail with
  | last hline htarget => exact List.forall_mem_singleton.mpr (hlines _ hline _ htarget)
  | enter hline htarget hread _ ih =>
      have hmem := hlines _ hline _ htarget
      obtain ⟨hparent, hsubset⟩ := hclosed _ hmem
      obtain ⟨dir, hdir⟩ := Option.ne_none_iff_exists'.mp hparent
      refine List.forall_mem_cons.mpr ⟨hmem, ih fun line hline target htarget => hsubset ?_⟩
      have hin := mem_includes hread hline htarget
      rw [hdir] at hin ⊢
      exact hin

end Source

end IndentHtml
