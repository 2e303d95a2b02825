import IndentHtml.Source.Render

/-!
# Changing sources

A template may appear, vanish or be edited while includes are being expanded.  A changing source
has a state, and answering a question may change it.

Expansion asks such a source the questions that it asks any other, in the same order, and asks them
anew for every include line.  The chain is handed on from one include line to the next: a template
is put on it before its own includes are expanded, and the last path is taken off after a success.

A template given as a text is rendered from the lines of its expansion, in the state of the source
that the expansion leaves.
-/

namespace IndentHtml

/-- A source of templates whose answers may change from one question to the next. -/
structure ChangingSource (σ : Type) where
  isFile : Path → StateM σ Bool
  canonical : Path → StateM σ Path
  read : Path → StateM σ (Except ReadFailure Text)

namespace Source

/-- A source as a changing one that never changes. -/
def steady {σ : Type} (source : Source) : ChangingSource σ where
  isFile path := pure (source.isFile path)
  canonical path := pure (source.canonical path)
  read path := pure (source.read path)

end Source

namespace ChangingSource

variable {σ : Type}

/-- Opens the target of an include.  A question that is not reached is not asked. -/
def openTarget (source : ChangingSource σ) (base : Path) (chain : List Path) (target : Text) :
    StateM σ (Except TemplateError IncludeTarget) := do
  let path := base.target target
  if !(← source.isFile path) then
    return .error (.includeNotFound path)
  else
    let canonical ← source.canonical path
    if chain.any (Path.same canonical) then
      return .error (.includeCycle path)
    else
      match ← source.read path with
      | .error cause => return .error (.unreadable path cause)
      | .ok t => return .ok ⟨Text.lines t, path.parent?.getD base, canonical⟩

/-- Expands the includes of a list of lines, where `enter` expands the lines of a target. -/
def expandWith (source : ChangingSource σ)
    (enter : List Line → Path → List Path → StateM σ Expansion) (base : Path) :
    List Path → List Line → StateM σ Expansion
  | chain, [] => pure ⟨.ok [], chain⟩
  | chain, line :: rest =>
      match Directive.include? line.content with
      | none => Expansion.prepend [line] <$> expandWith source enter base chain rest
      | some target => do
          match ← source.openTarget base chain target with
          | .error e => return ⟨.error e, chain⟩
          | .ok t =>
              match ← enter t.lines t.directory (chain ++ [t.canonical]) with
              | ⟨.error e, inner⟩ => return ⟨.error e, inner⟩
              | ⟨.ok ls, inner⟩ =>
                  Expansion.prepend (ls.map (line.margin ++ ·)) <$>
                    expandWith source enter base inner.dropLast rest

/-- Expands lines at a depth, as long as the budget of nested includes lasts. -/
def expandWithin (source : ChangingSource σ) :
    (budget depth : Nat) → List Line → Path → List Path → StateM σ Expansion
  | 0, depth, _, _, chain => pure ⟨.error (.tooManyIncludes depth), chain⟩
  | budget + 1, depth, lines, base, chain =>
      source.expandWith (source.expandWithin budget (depth + 1)) base chain lines

/-- Expands the includes of a list of lines of a template in the directory `base`. -/
def expandIncludes (source : ChangingSource σ) (lines : List Line) (base : Path) (depth : Nat)
    (chain : List Path) : StateM σ Expansion :=
  source.expandWithin (maxIncludeDepth + 1 - depth) depth lines base chain

/-- The HTML of a template given as a text, with includes relative to `base`. -/
def renderText (source : ChangingSource σ) (template : Text) (base : Path) (data : Data) :
    StateM σ (Except TemplateError Text) := do
  let x ← source.expandIncludes (Text.lines template) base 0 []
  return x.result.map (renderLines data)

end ChangingSource

end IndentHtml
