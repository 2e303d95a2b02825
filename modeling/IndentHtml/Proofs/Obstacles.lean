import IndentHtml.Proofs.Expansion

/-!
# Obstacles

An expansion follows the trails of its lines in the order of the document: include line by include
line, and into each target before the next include line (`Source.trails`).  At the end of a trail
there may be an obstacle (`Source.obstacle?`).  The last target does not exist, is open already or
cannot be read, checked in this order; or it can be entered, but lies too deep for its own lines
to be expanded.

**Failure** (`expandIncludes_chain`).  An expansion that fails does so at the first trail with an
obstacle.  It leaves the chain with the templates that were entered on this trail, outermost
first, all different and none of them on the chain before; after a success the chain is as it was.

The empty trail stands for the given lines themselves, which may be too deep from the start.
-/

namespace IndentHtml

/-- What ends an expansion: an error, and the canonical paths of the templates that were entered on
the way to it, outermost first. -/
structure Obstacle where
  error : TemplateError
  entered : List Path

namespace Obstacle

/-- The obstacle as it is met from outside a template. -/
def enter (canonical : Path) (o : Obstacle) : Obstacle :=
  { o with entered := canonical :: o.entered }

end Obstacle

namespace Source

variable {source : Source}

/-! ### Trails in the order of the document -/

/-- The trails from some lines that are no longer than a bound, in the order of the document.  A
trail stands before those that go on from it. -/
def trails (source : Source) : (bound : Nat) → List Line → Path → List (List Path)
  | 0, _, _ => []
  | bound + 1, lines, base =>
      lines.flatMap fun line =>
        match Directive.include? line.content with
        | none => []
        | some target =>
            [base.target target] ::
              match source.read (base.target target) with
              | .error _ => []
              | .ok content =>
                  (trails source bound (Text.lines content)
                    ((base.target target).parent?.getD base)).map (base.target target :: ·)

/-- These are the trails from the lines, as far as the bound goes. -/
theorem mem_trails {bound : Nat} {lines : List Line} {base : Path} {trail : List Path} :
    trail ∈ source.trails bound lines base ↔
      source.Trail lines base trail ∧ trail.length ≤ bound := by
  induction bound generalizing lines base trail with
  | zero =>
      refine ⟨fun h => absurd h List.not_mem_nil, fun ⟨h, hlength⟩ => ?_⟩
      cases h <;> exact absurd hlength (Nat.not_succ_le_zero _)
  | succ bound ih =>
      rw [trails, List.mem_flatMap]
      constructor
      · rintro ⟨line, hline, h⟩
        cases hinclude : Directive.include? line.content with
        | none =>
            rw [hinclude] at h
            exact absurd h List.not_mem_nil
        | some target =>
            simp only [hinclude] at h
            rcases List.mem_cons.mp h with rfl | h
            · exact ⟨.last hline hinclude, Nat.le_add_left 1 bound⟩
            · cases hread : source.read (base.target target) with
              | error cause =>
                  rw [hread] at h
                  exact absurd h List.not_mem_nil
              | ok content =>
                  simp only [hread] at h
                  obtain ⟨inner, hinner, rfl⟩ := List.mem_map.mp h
                  obtain ⟨htrail, hlength⟩ := ih.mp hinner
                  exact ⟨.enter hline hinclude hread htrail, Nat.succ_le_succ hlength⟩
      · rintro ⟨h, hlength⟩
        cases h with
        | @last _ _ line target hline hinclude =>
            refine ⟨line, hline, ?_⟩
            rw [hinclude]
            exact List.mem_cons_self
        | @enter _ _ line target content inner hline hinclude hread htrail =>
            refine ⟨line, hline, ?_⟩
            simp only [hinclude, hread]
            exact List.mem_cons_of_mem _
              (List.mem_map_of_mem (ih.mpr ⟨htrail, Nat.le_of_succ_le_succ hlength⟩))

/-! ### Obstacles of a trail -/

/-- Why a target cannot be entered, checked in this order: it does not exist, it is open already,
or it cannot be read. -/
def refusal? (source : Source) (chain : List Path) (path : Path) : Option TemplateError :=
  if !source.isFile path then some (.includeNotFound path)
  else if chain.any (Path.same (source.canonical path)) then some (.includeCycle path)
  else
    match source.read path with
    | .error cause => some (.unreadable path cause)
    | .ok _ => none

/-- The obstacle at the end of a trail all of whose earlier targets were entered, from a depth and
with a chain of open templates. -/
def obstacle? (source : Source) (chain : List Path) (depth : Nat) (trail : List Path) :
    Option Obstacle :=
  let entered := trail.dropLast.map source.canonical
  match trail.getLast?.bind (source.refusal? (chain ++ entered)) with
  | some e => some ⟨e, entered⟩
  | none =>
      if maxIncludeDepth < depth + trail.length then
        some ⟨.tooManyIncludes (depth + trail.length), trail.map source.canonical⟩
      else none

/-- The first obstacle in the order of the document. -/
def firstObstacle? (source : Source) (chain : List Path) (depth : Nat) (lines : List Line)
    (base : Path) : Option Obstacle :=
  ([] :: source.trails (maxIncludeDepth + 1 - depth) lines base).findSome?
    (source.obstacle? chain depth)

section

variable {chain : List Path} {depth : Nat} {path : Path}

/-- A trail that no target refuses can only be too deep. -/
theorem obstacle?_of_none {trail : List Path}
    (h : trail.getLast?.bind
      (source.refusal? (chain ++ trail.dropLast.map source.canonical)) = none) :
    source.obstacle? chain depth trail =
      if maxIncludeDepth < depth + trail.length then
        some ⟨.tooManyIncludes (depth + trail.length), trail.map source.canonical⟩
      else none := by
  rw [obstacle?, h]

theorem obstacle?_of_some {trail : List Path} {e : TemplateError}
    (h : trail.getLast?.bind
      (source.refusal? (chain ++ trail.dropLast.map source.canonical)) = some e) :
    source.obstacle? chain depth trail = some ⟨e, trail.dropLast.map source.canonical⟩ := by
  rw [obstacle?, h]

theorem obstacle?_of_refusal {e : TemplateError} (h : source.refusal? chain path = some e) :
    source.obstacle? chain depth [path] = some ⟨e, []⟩ :=
  obstacle?_of_some (by simpa using h)

/-- What stands in the way after a target has been entered stands in the way of the whole trail. -/
theorem obstacle?_cons (h : source.refusal? chain path = none) (trail : List Path) :
    source.obstacle? chain depth (path :: trail) =
      (source.obstacle? (chain ++ [source.canonical path]) (depth + 1) trail).map
        (Obstacle.enter (source.canonical path)) := by
  have hlength : depth + (path :: trail).length = depth + 1 + trail.length := by
    rw [List.length_cons]
    omega
  have hdeep : (if maxIncludeDepth < depth + (path :: trail).length then
        some (Obstacle.mk (.tooManyIncludes (depth + (path :: trail).length))
          ((path :: trail).map source.canonical)) else none) =
      (if maxIncludeDepth < depth + 1 + trail.length then
        some (Obstacle.mk (.tooManyIncludes (depth + 1 + trail.length))
          (trail.map source.canonical)) else none).map
            (Obstacle.enter (source.canonical path)) := by
    rw [hlength]
    split <;> rfl
  cases trail with
  | nil =>
      have hnone : [path].getLast?.bind
          (source.refusal? (chain ++ [path].dropLast.map source.canonical)) = none := by
        simpa using h
      rw [obstacle?_of_none hnone, obstacle?_of_none rfl]
      exact hdeep
  | cons next more =>
      have hlast : (path :: next :: more).getLast?.bind
          (source.refusal? (chain ++ (path :: next :: more).dropLast.map source.canonical)) =
          (next :: more).getLast?.bind (source.refusal? (chain ++ [source.canonical path] ++
            (next :: more).dropLast.map source.canonical)) := by
        simp
      cases hrefusal : (next :: more).getLast?.bind (source.refusal?
        (chain ++ [source.canonical path] ++ (next :: more).dropLast.map source.canonical)) with
      | some e =>
          rw [obstacle?_of_some (hlast.trans hrefusal), obstacle?_of_some hrefusal]
          rfl
      | none =>
          rw [obstacle?_of_none (hlast.trans hrefusal), obstacle?_of_none hrefusal]
          exact hdeep

/-- When some lines are not too deep themselves, the first obstacle is at the end of a trail with
targets. -/
theorem firstObstacle?_eq (h : depth ≤ maxIncludeDepth) (lines : List Line) (base : Path) :
    source.firstObstacle? chain depth lines base =
      (source.trails (maxIncludeDepth - depth + 1) lines base).findSome?
        (source.obstacle? chain depth) := by
  have hbound : maxIncludeDepth + 1 - depth = maxIncludeDepth - depth + 1 := by omega
  have hstart : source.obstacle? chain depth [] = none := by
    rw [obstacle?_of_none rfl]
    exact if_neg (Nat.not_lt.mpr h)
  rw [firstObstacle?, hbound, List.findSome?_cons, hstart]

/-- The first obstacle that is met by going into a target, and into nothing but the target. -/
theorem findSome?_obstacle?_enter (h : source.refusal? chain path = none) (lines : List Line)
    (base : Path) :
    ([path] :: (source.trails (maxIncludeDepth - depth) lines base).map (path :: ·)).findSome?
        (source.obstacle? chain depth) =
      (source.firstObstacle? (chain ++ [source.canonical path]) (depth + 1) lines base).map
        (Obstacle.enter (source.canonical path)) := by
  have hbound : maxIncludeDepth + 1 - (depth + 1) = maxIncludeDepth - depth := by omega
  rw [firstObstacle?, hbound, List.map_findSome?, ← List.map_cons, List.findSome?_map]
  exact congrArg (fun f => List.findSome? f _) (funext fun trail => obstacle?_cons h trail)

/-! ### Opening targets -/

theorem openTarget_of_refusal {base : Path} {target : Text} {e : TemplateError}
    (h : source.refusal? chain (base.target target) = some e) :
    source.openTarget base chain target = .error e := by
  rw [refusal?] at h
  rw [openTarget]
  split at h
  · next hfile => rw [if_pos hfile, ← Option.some.inj h]
  · next hfile =>
      rw [if_neg hfile]
      split at h
      · next hopen => rw [if_pos hopen, ← Option.some.inj h]
      · next hopen =>
          rw [if_neg hopen]
          cases hread : source.read (base.target target) with
          | error cause =>
              rw [hread] at h
              rw [← Option.some.inj h]
          | ok content =>
              rw [hread] at h
              cases h

theorem refusal?_eq_none {path : Path} (h : source.refusal? chain path = none) :
    source.isFile path = true ∧ source.New chain path ∧
      ∃ content, source.read path = .ok content := by
  rw [refusal?] at h
  split at h
  · cases h
  · next hfile =>
      split at h
      · cases h
      · next hopen =>
          refine ⟨by simpa using hfile, new_iff.mpr (Bool.eq_false_iff.mpr hopen), ?_⟩
          cases hread : source.read path with
          | error cause =>
              rw [hread] at h
              cases h
          | ok content => exact ⟨content, rfl⟩

/-- A cycle is a path that is on the chain. -/
theorem mem_of_refusal_cycle {path p : Path}
    (h : source.refusal? chain path = some (.includeCycle p)) :
    ∃ canonical ∈ chain, Path.same (source.canonical p) canonical = true := by
  rw [refusal?] at h
  split at h
  · cases h
  · split at h
    · next hopen =>
        obtain rfl := TemplateError.includeCycle.inj (Option.some.inj h)
        exact List.any_eq_true.mp hopen
    · split at h <;> cases h

theorem refusal?_ne_tooManyIncludes {path : Path} {n : Nat} :
    source.refusal? chain path ≠ some (.tooManyIncludes n) := by
  intro h
  rw [refusal?] at h
  split at h
  · cases h
  · split at h
    · cases h
    · split at h <;> cases h

end

/-! ### Sound obstacles -/

/-- What holds of an obstacle that an expansion ends at. -/
structure Sound (source : Source) (chain : List Path) (depth : Nat) (o : Obstacle) : Prop where
  distinct : o.entered.Pairwise fun outer inner => Path.same outer inner = false
  offChain : ∀ canonical ∈ o.entered, ∀ opened ∈ chain, Path.same canonical opened = false
  cycle : ∀ path, o.error = .includeCycle path →
    ∃ canonical ∈ chain ++ o.entered, Path.same (source.canonical path) canonical = true
  deep : ∀ n, o.error = .tooManyIncludes n →
    n = depth + o.entered.length ∧ n = max depth (maxIncludeDepth + 1)

theorem same_comm (p q : Path) : Path.same p q = Path.same q p :=
  decide_eq_decide.mpr eq_comm

variable {chain : List Path} {depth : Nat}

theorem sound_of_refusal {path : Path} {e : TemplateError}
    (h : source.refusal? chain path = some e) : source.Sound chain depth ⟨e, []⟩ := by
  refine ⟨.nil, fun _ hc => absurd hc List.not_mem_nil, fun p hp => ?_, fun n hn => ?_⟩
  · rw [List.append_nil]
    exact mem_of_refusal_cycle (h.trans (congrArg some hp))
  · exact absurd (h.trans (congrArg some hn)) refusal?_ne_tooManyIncludes

theorem sound_tooManyIncludes (h : maxIncludeDepth < depth) :
    source.Sound chain depth ⟨.tooManyIncludes depth, []⟩ := by
  refine ⟨.nil, fun _ hc => absurd hc List.not_mem_nil, fun p hp => ?_, fun n hn => ?_⟩
  · cases hp
  · obtain rfl := TemplateError.tooManyIncludes.inj hn
    exact ⟨rfl, (Nat.max_eq_left h).symm⟩

/-- An obstacle met inside a target that could be entered. -/
theorem Sound.enter {path : Path} {o : Obstacle} (hdepth : depth ≤ maxIncludeDepth)
    (hnew : source.New chain path)
    (h : source.Sound (chain ++ [source.canonical path]) (depth + 1) o) :
    source.Sound chain depth (o.enter (source.canonical path)) := by
  have hassoc : chain ++ source.canonical path :: o.entered =
      chain ++ [source.canonical path] ++ o.entered := by simp
  refine ⟨List.pairwise_cons.mpr ⟨fun inner hinner => ?_, h.distinct⟩, fun c hc => ?_,
    fun p hp => ?_, fun n hn => ?_⟩
  · rw [same_comm]
    exact h.offChain inner hinner _ (List.mem_append_right _ (List.mem_singleton_self _))
  · rcases List.mem_cons.mp hc with rfl | hc
    · exact hnew
    · exact fun opened hopened => h.offChain c hc opened (List.mem_append_left _ hopened)
  · obtain ⟨c, hc, hsame⟩ := h.cycle p hp
    exact ⟨c, hassoc ▸ hc, hsame⟩
  · obtain ⟨hlength, hmax⟩ := h.deep n hn
    have hentered : (o.enter (source.canonical path)).entered.length = o.entered.length + 1 :=
      List.length_cons
    rw [hentered]
    omega

end Source

/-! ### How an expansion ends -/

/-- An expansion that ends at an obstacle, or succeeds when there is none and leaves the chain as it
was. -/
def Expansion.EndsAt (x : Expansion) (source : Source) (chain : List Path) (depth : Nat) :
    Option Obstacle → Prop
  | none => (∃ out, x.result = .ok out) ∧ x.chain = chain
  | some o => x.result = .error o.error ∧ x.chain = chain ++ o.entered ∧
    source.Sound chain depth o

theorem Expansion.EndsAt.prepend {x : Expansion} {source : Source} {chain : List Path}
    {depth : Nat} {o? : Option Obstacle} (h : x.EndsAt source chain depth o?)
    (lines : List Line) : (x.prepend lines).EndsAt source chain depth o? := by
  obtain ⟨result, left⟩ := x
  cases o? with
  | none =>
      obtain ⟨⟨out, rfl⟩, rfl⟩ := h
      exact ⟨⟨lines ++ out, rfl⟩, rfl⟩
  | some o =>
      obtain ⟨rfl, rfl, hsound⟩ := h
      exact ⟨rfl, rfl, hsound⟩

namespace Source

variable {source : Source}

section

variable {enter : List Line → Path → List Path → Expansion} {base : Path} {chain : List Path}
  {depth : Nat}

/-- Lines that start with an include end where the target does, and where the rest does when the
target is expanded. -/
theorem endsAt_include {line : Line} {rest : List Line} {target : Text} {path : Path}
    {t : IncludeTarget} {inner? rest? : Option Obstacle} (hdepth : depth ≤ maxIncludeDepth)
    (hinclude : Directive.include? line.content = some target) (hnew : source.New chain path)
    (hopen : source.openTarget base chain target = .ok t)
    (hcanonical : t.canonical = source.canonical path)
    (hinner : (enter t.lines t.directory (chain ++ [source.canonical path])).EndsAt source
      (chain ++ [source.canonical path]) (depth + 1) inner?)
    (hrest : (source.expandWith enter base chain rest).EndsAt source chain depth rest?) :
    (source.expandWith enter base chain (line :: rest)).EndsAt source chain depth
      ((inner?.map (Obstacle.enter (source.canonical path))).or rest?) := by
  simp only [expandWith, hinclude, hopen, hcanonical]
  generalize enter t.lines t.directory (chain ++ [source.canonical path]) = x at hinner ⊢
  obtain ⟨e | ls, left⟩ := x
  · cases inner? with
    | none =>
        obtain ⟨⟨out, hout⟩, -⟩ := hinner
        cases hout
    | some o =>
        obtain ⟨hresult, hchain, hsound⟩ := hinner
        exact ⟨hresult, hchain.trans (List.append_assoc _ _ _), hsound.enter hdepth hnew⟩
  · cases inner? with
    | none => exact hrest.prepend _
    | some o => cases hinner.1

/-- One level of an expansion ends at the first obstacle when the levels below do. -/
theorem endsAt_expandWith (hdepth : depth ≤ maxIncludeDepth)
    (henter : ∀ lines base chain, (enter lines base chain).EndsAt source chain (depth + 1)
      (source.firstObstacle? chain (depth + 1) lines base))
    (lines : List Line) (base : Path) (chain : List Path) :
    (source.expandWith enter base chain lines).EndsAt source chain depth
      (source.firstObstacle? chain depth lines base) := by
  rw [firstObstacle?_eq hdepth]
  induction lines with
  | nil => exact ⟨⟨[], rfl⟩, rfl⟩
  | cons line rest ih =>
      rw [trails] at ih ⊢
      rw [List.flatMap_cons, List.findSome?_append]
      cases hinclude : Directive.include? line.content with
      | none =>
          simp only [expandWith, hinclude]
          exact ih.prepend [line]
      | some target =>
          cases hrefusal : source.refusal? chain (base.target target) with
          | some e =>
              simp only [expandWith, hinclude, openTarget_of_refusal hrefusal,
                List.findSome?_cons, obstacle?_of_refusal hrefusal]
              exact ⟨rfl, (List.append_nil chain).symm, sound_of_refusal hrefusal⟩
          | none =>
              obtain ⟨hfile, hnew, content, hread⟩ := refusal?_eq_none hrefusal
              have hopen := openTarget_eq_ok.mpr ⟨hfile, hnew, content, hread, rfl⟩
              simp only [hread]
              rw [findSome?_obstacle?_enter hrefusal]
              exact endsAt_include hdepth hinclude hnew hopen rfl (henter _ _ _) ih

end

/-- **Every expansion ends at its first obstacle**, when the budget is what is left of the depth. -/
theorem endsAt_expandWithin {budget depth : Nat} (h : budget = maxIncludeDepth + 1 - depth)
    (lines : List Line) (base : Path) (chain : List Path) :
    (source.expandWithin budget depth lines base chain).EndsAt source chain depth
      (source.firstObstacle? chain depth lines base) := by
  induction budget generalizing depth lines base chain with
  | zero =>
      have hdeep : maxIncludeDepth < depth := by omega
      have hstart : source.obstacle? chain depth [] = some ⟨.tooManyIncludes depth, []⟩ := by
        rw [obstacle?_of_none rfl]
        exact if_pos hdeep
      rw [firstObstacle?, List.findSome?_cons, hstart]
      exact ⟨rfl, (List.append_nil chain).symm, sound_tooManyIncludes hdeep⟩
  | succ budget ih =>
      exact endsAt_expandWith (by omega)
        (fun lines base chain => ih (by omega) lines base chain) lines base chain

end Source

/-- **Failure.**  An expansion that succeeds leaves the chain as it was, and no trail has an
obstacle.  One that fails does so at the first trail of the lines, in the order of the document,
that has one; the empty trail has one when the depth is too great already.  It adds the canonical
paths of the templates that were entered on this trail to the chain, outermost first; they are all
different, and none of them was on the chain.  A cycle is reported for a path that is on the chain
then.  Too many includes are reported with the depth that was reached, which is one more than the
greatest one unless the depth was beyond it from the start. -/
theorem expandIncludes_chain (source : Source) (lines : List Line) (base : Path) (depth : Nat)
    (chain : List Path) :
    (∀ out, (source.expandIncludes lines base depth chain).result = .ok out →
      (source.expandIncludes lines base depth chain).chain = chain ∧
      ∀ trail ∈ [] :: source.trails (maxIncludeDepth + 1 - depth) lines base,
        source.obstacle? chain depth trail = none) ∧
    ∀ e, (source.expandIncludes lines base depth chain).result = .error e →
      ∃ before trail after entered,
        [] :: source.trails (maxIncludeDepth + 1 - depth) lines base = before ++ trail :: after ∧
        (trail = [] ∨ source.Trail lines base trail) ∧
        (∀ earlier ∈ before, source.obstacle? chain depth earlier = none) ∧
        source.obstacle? chain depth trail = some ⟨e, entered⟩ ∧
        (source.expandIncludes lines base depth chain).chain = chain ++ entered ∧
        entered.Pairwise (fun outer inner => Path.same outer inner = false) ∧
        (∀ canonical ∈ entered, ∀ opened ∈ chain, Path.same canonical opened = false) ∧
        (∀ path, e = .includeCycle path →
          ∃ canonical ∈ chain ++ entered, Path.same (source.canonical path) canonical = true) ∧
        ∀ n, e = .tooManyIncludes n →
          n = depth + entered.length ∧ n = max depth (maxIncludeDepth + 1) := by
  have hends : (source.expandIncludes lines base depth chain).EndsAt source chain depth
      (source.firstObstacle? chain depth lines base) :=
    Source.endsAt_expandWithin rfl lines base chain
  cases hfirst : source.firstObstacle? chain depth lines base with
  | none =>
      rw [hfirst] at hends
      obtain ⟨⟨out, hout⟩, hchain⟩ := hends
      refine ⟨fun _ _ => ⟨hchain, List.findSome?_eq_none_iff.mp hfirst⟩, fun e he => ?_⟩
      rw [hout] at he
      cases he
  | some o =>
      rw [hfirst] at hends
      obtain ⟨hresult, hchain, hsound⟩ := hends
      refine ⟨fun out hout => ?_, fun e he => ?_⟩
      · rw [hout] at hresult
        cases hresult
      · obtain rfl := Except.error.inj (hresult.symm.trans he)
        obtain ⟨before, trail, after, heq, htrail, hbefore⟩ :=
          List.findSome?_eq_some_iff.mp hfirst
        have hmem : trail ∈ [] :: source.trails (maxIncludeDepth + 1 - depth) lines base :=
          heq ▸ List.mem_append_right before List.mem_cons_self
        have horigin := (List.mem_cons.mp hmem).imp_right fun h => (Source.mem_trails.mp h).1
        exact ⟨before, trail, after, o.entered, heq, horigin, hbefore, htrail, hchain,
          hsound.distinct, hsound.offChain, hsound.cycle, hsound.deep⟩

/-- A cycle of two templates, met after an include without includes of its own. -/
theorem expandIncludes_chain_of_cycle :
    ∃ (store : Store) (lines : List Line),
      (store.source.expandIncludes lines Path.empty 0 [Path.ofString "page"]).result =
        .error (.includeCycle (Path.ofString "././a")) ∧
      (store.source.expandIncludes lines Path.empty 0 [Path.ofString "page"]).chain =
        [Path.ofString "page", Path.ofString "a", Path.ofString "b"] ∧
      [Path.ofString "a", Path.ofString "b"].Pairwise
        (fun outer inner => Path.same outer inner = false) := by
  obtain ⟨store, hstore⟩ : ∃ store : Store, store =
      ((Store.empty.add (Path.ofString "a") "p\n@include 'b'".toList).add (Path.ofString "b")
        "@include 'c'\n@include './a'".toList).add (Path.ofString "c") "p".toList := ⟨_, rfl⟩
  have hresult : (store.source.expandIncludes ["@include 'c'".toList, "@include 'a'".toList]
      Path.empty 0 [Path.ofString "page"]).result =
        .error (.includeCycle (Path.ofString "././a")) := by
    subst hstore
    rfl
  have hchain : (store.source.expandIncludes ["@include 'c'".toList, "@include 'a'".toList]
      Path.empty 0 [Path.ofString "page"]).chain =
        [Path.ofString "page", Path.ofString "a", Path.ofString "b"] := by
    subst hstore
    decide +kernel
  obtain ⟨-, -, -, entered, -, -, -, -, hentered, hdistinct, -⟩ :=
    (expandIncludes_chain store.source _ Path.empty 0 [Path.ofString "page"]).2 _ hresult
  obtain rfl : [Path.ofString "a", Path.ofString "b"] = entered :=
    (List.cons.inj (hchain.symm.trans hentered)).2
  exact ⟨store, _, hresult, hchain, hdistinct⟩

end IndentHtml
