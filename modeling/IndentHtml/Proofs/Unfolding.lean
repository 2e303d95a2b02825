import IndentHtml.Proofs.Idempotence

/-!
# Unfoldings

A source that changes while it is asked may give other lines for each of two include lines with one
target, so what an expansion read is not a matter of the source alone.  An *unfolding*
(`Unfolding`) keeps it: a list of lines in which each include line carries the unfolding of the
lines that were read for it.

An unfolding is one of a source in a state (`ChangingSource.Unfolds`) when the source, asked from
this state on, gives for each include line the lines that the unfolding has for it.  The state is
handed on from one include line to the next, through everything that is read for the first one.

**Every success has one unfolding** (`ChangingSource.exists_unfolds_of_expandIncludes`), and the
lines of the expansion are the lines that the unfolding comes to.
-/

namespace IndentHtml

/-- A list of lines, with an unfolding of the lines of its target at each line that is entered. -/
inductive Unfolding where
  | nil
  | plain (line : Line) (rest : Unfolding)
  | enter (line : Line) (target rest : Unfolding)

namespace Unfolding

/-- The lines that are unfolded. -/
def given : Unfolding → List Line
  | nil => []
  | plain line rest => line :: rest.given
  | enter line _ rest => line :: rest.given

/-- The lines that they unfold to.  The lines of a target stand behind the margin of the line that
it is entered at. -/
def lines : Unfolding → List Line
  | nil => []
  | plain line rest => line :: rest.lines
  | enter line target rest => target.lines.map (line.margin ++ ·) ++ rest.lines

/-- The lines that are entered, each with the unfolding of the lines of its target. -/
def targets : Unfolding → List (Line × Unfolding)
  | nil => []
  | plain _ rest => rest.targets
  | enter line target rest => (line, target) :: rest.targets

/-- One unfolding after the other. -/
def append : Unfolding → Unfolding → Unfolding
  | nil, v => v
  | plain line rest, v => plain line (rest.append v)
  | enter line target rest, v => enter line target (rest.append v)

/-- Holds when exactly the include lines are entered, here and in the targets. -/
def Resolved : Unfolding → Prop
  | nil => True
  | plain line rest => Directive.include? line.content = none ∧ rest.Resolved
  | enter line target rest =>
      (∃ text, Directive.include? line.content = some text) ∧ target.Resolved ∧ rest.Resolved

variable {u v : Unfolding}

/-- An unfolding in two parts comes to the lines of both. -/
theorem lines_append (u v : Unfolding) : (u.append v).lines = u.lines ++ v.lines := by
  induction u with
  | nil => rfl
  | plain line rest ih => rw [append, lines, ih, lines, List.cons_append]
  | enter line target rest _ ih => rw [append, lines, ih, lines, List.append_assoc]

theorem resolved_append : (u.append v).Resolved ↔ u.Resolved ∧ v.Resolved := by
  induction u with
  | nil => exact (and_iff_right trivial).symm
  | plain line rest ih => rw [append, Resolved, ih, Resolved, and_assoc]
  | enter line target rest _ ih => rw [append, Resolved, ih, Resolved, and_assoc, and_assoc]

/-- The unfolding of a list in two parts falls into two parts. -/
theorem exists_eq_append {first last : List Line} (h : u.given = first ++ last) :
    ∃ v w : Unfolding, u = v.append w ∧ v.given = first ∧ w.given = last := by
  induction first generalizing u with
  | nil => exact ⟨nil, u, rfl, rfl, h⟩
  | cons line first ih =>
      cases u with
      | nil => cases h
      | plain line' rest =>
          obtain ⟨rfl, hrest⟩ := List.cons.inj h
          obtain ⟨v, w, rfl, rfl, hlast⟩ := ih hrest
          exact ⟨plain line' v, w, rfl, rfl, hlast⟩
      | enter line' target rest =>
          obtain ⟨rfl, hrest⟩ := List.cons.inj h
          obtain ⟨v, w, rfl, rfl, hlast⟩ := ih hrest
          exact ⟨enter line' target v, w, rfl, rfl, hlast⟩

/-- Where an include line stands in a resolved unfolding, its target is entered. -/
theorem Resolved.exists_enter {line : Line} {target : Text} (h : u.Resolved)
    (hline : line ∈ u.given) (hinclude : Directive.include? line.content = some target) :
    ∃ v inner w : Unfolding, u = v.append (enter line inner w) := by
  obtain ⟨first, last, hgiven⟩ := List.append_of_mem hline
  obtain ⟨v, w, rfl, -, hw⟩ := exists_eq_append hgiven
  cases w with
  | nil => cases hw
  | plain line' rest =>
      obtain ⟨rfl, -⟩ := List.cons.inj hw
      have hplain := (resolved_append.mp h).2.1
      rw [hinclude] at hplain
      cases hplain
  | enter line' inner rest =>
      obtain ⟨rfl, -⟩ := List.cons.inj hw
      exact ⟨v, inner, rest, rfl⟩

/-- Where a line is entered, the unfolding of its target lies between two others. -/
theorem exists_of_mem_targets {line : Line} {target : Unfolding} (h : (line, target) ∈ u.targets) :
    ∃ v w : Unfolding, u = v.append (enter line target w) := by
  induction u with
  | nil => cases h
  | plain line' rest ih =>
      obtain ⟨v, w, rfl⟩ := ih h
      exact ⟨plain line' v, w, rfl⟩
  | enter line' target' rest _ ih =>
      rcases List.mem_cons.mp h with heq | hrest
      · obtain ⟨rfl, rfl⟩ := Prod.mk.inj heq
        exact ⟨nil, rest, rfl⟩
      · obtain ⟨v, w, rfl⟩ := ih hrest
        exact ⟨enter line' target' v, w, rfl⟩

end Unfolding

namespace ChangingSource

variable {σ : Type} {source : ChangingSource σ} {base : Path} {chain : List Path}
  {state left : σ}

/-- The unfolding is what the source gives from a state on, for lines of a directory and with a
chain, and the source is left in a state. -/
inductive Unfolds (source : ChangingSource σ) :
    Path → List Path → σ → Unfolding → σ → Prop where
  | nil (base : Path) (chain : List Path) (state : σ) : Unfolds source base chain state .nil state
  | plain {base : Path} {chain : List Path} {state left : σ} {line : Line} {rest : Unfolding} :
      Directive.include? line.content = none → Unfolds source base chain state rest left →
        Unfolds source base chain state (.plain line rest) left
  | enter {base directory canonical : Path} {chain : List Path} {state opened entered left : σ}
      {line : Line} {target : Text} {inner rest : Unfolding} :
      Directive.include? line.content = some target →
        (source.openTarget base chain target).run state =
            (.ok ⟨inner.given, directory, canonical⟩, opened) →
          Unfolds source directory (chain ++ [canonical]) opened inner entered →
            Unfolds source base chain entered rest left →
              Unfolds source base chain state (.enter line inner rest) left

/-- What a source gives is resolved, since every include line is entered and no other line is. -/
theorem Unfolds.resolved {u : Unfolding} (h : source.Unfolds base chain state u left) :
    u.Resolved := by
  induction h with
  | nil => trivial
  | plain hline _ ih => exact ⟨hline, ih⟩
  | enter hline _ _ _ ihInner ihRest => exact ⟨⟨_, hline⟩, ihInner, ihRest⟩

/-- Lines have one unfolding only, and it leaves the source in one state. -/
theorem Unfolds.unique {u v : Unfolding} {left' : σ} (h : source.Unfolds base chain state u left)
    (h' : source.Unfolds base chain state v left') (hgiven : v.given = u.given) :
    v = u ∧ left' = left := by
  induction h generalizing v left' with
  | nil base chain state =>
      cases h' with
      | nil => exact ⟨rfl, rfl⟩
      | plain _ _ => cases hgiven
      | enter _ _ _ _ => cases hgiven
  | plain hline _ ih =>
      cases h' with
      | nil => cases hgiven
      | plain _ hrest =>
          obtain ⟨rfl, hmore⟩ := List.cons.inj hgiven
          obtain ⟨rfl, rfl⟩ := ih hrest hmore
          exact ⟨rfl, rfl⟩
      | enter hline' _ _ _ =>
          obtain ⟨rfl, -⟩ := List.cons.inj hgiven
          rw [hline] at hline'
          cases hline'
  | enter hline hopen _ _ ihInner ihRest =>
      cases h' with
      | nil => cases hgiven
      | plain hline' _ =>
          obtain ⟨rfl, -⟩ := List.cons.inj hgiven
          rw [hline] at hline'
          cases hline'
      | enter hline' hopen' hinner hrest =>
          obtain ⟨rfl, hmore⟩ := List.cons.inj hgiven
          obtain rfl := Option.some.inj (hline.symm.trans hline')
          -- one question in one state has one answer
          obtain ⟨ht, rfl⟩ := Prod.mk.inj (hopen.symm.trans hopen')
          obtain ⟨hlines, rfl, rfl⟩ := IncludeTarget.mk.inj (Except.ok.inj ht)
          obtain ⟨rfl, rfl⟩ := ihInner hinner hlines.symm
          obtain ⟨rfl, rfl⟩ := ihRest hrest hmore
          exact ⟨rfl, rfl⟩

/-! ### One step -/

section

variable {enter : List Line → Path → List Path → StateM σ Expansion} {line : Line}
  {lines rest out : List Line}

theorem exists_of_expandWith_plain (h : Directive.include? line.content = none)
    (hout : ((source.expandWith enter base chain (line :: rest)).run state).1.result = .ok out) :
    ∃ more, ((source.expandWith enter base chain rest).run state).1.result = .ok more ∧
      out = line :: more ∧
      ((source.expandWith enter base chain (line :: rest)).run state).2 =
        ((source.expandWith enter base chain rest).run state).2 := by
  rw [expandWith_plain h] at hout ⊢
  obtain ⟨more, hmore, rfl⟩ := Expansion.prepend_eq_ok.mp hout
  exact ⟨more, hmore, rfl, rfl⟩

/-- What an include line takes: its target is opened, expanded, and followed by the other lines. -/
theorem exists_of_expandWith_include {target : Text}
    (h : Directive.include? line.content = some target)
    (hout : ((source.expandWith enter base chain (line :: rest)).run state).1.result = .ok out) :
    ∃ t opened ls inner entered more,
      (source.openTarget base chain target).run state = (.ok t, opened) ∧
      (enter t.lines t.directory (chain ++ [t.canonical])).run opened =
        (⟨.ok ls, inner⟩, entered) ∧
      ((source.expandWith enter base inner.dropLast rest).run entered).1.result = .ok more ∧
      out = ls.map (line.margin ++ ·) ++ more ∧
      ((source.expandWith enter base chain (line :: rest)).run state).2 =
        ((source.expandWith enter base inner.dropLast rest).run entered).2 := by
  simp only [expandWith, h] at hout ⊢
  rcases hopen : (source.openTarget base chain target).run state with ⟨e | t, opened⟩
  · rw [run_bind_of_eq hopen] at hout
    cases hout
  · rw [run_bind_of_eq hopen] at hout ⊢
    dsimp only at hout ⊢
    rcases hinner : (enter t.lines t.directory (chain ++ [t.canonical])).run opened with
      ⟨⟨e | ls, inner⟩, entered⟩
    · rw [run_bind_of_eq hinner] at hout
      cases hout
    · rw [run_bind_of_eq hinner] at hout ⊢
      obtain ⟨more, hmore, rfl⟩ := Expansion.prepend_eq_ok.mp hout
      exact ⟨t, opened, ls, inner, entered, more, rfl, hinner, hmore, rfl, rfl⟩

/-- Holds of a computation whose success is an unfolding of some lines, whatever the state is that
it starts in. -/
def Unfolded (source : ChangingSource σ) (lines : List Line) (base : Path) (chain : List Path)
    (m : StateM σ Expansion) : Prop :=
  ∀ state out, (m.run state).1.result = .ok out →
    ∃ u, source.Unfolds base chain state u (m.run state).2 ∧ u.given = lines ∧ u.lines = out

/-- One level unfolds its lines if the level below does and is complete. -/
theorem unfolded_expandWith
    (hcomplete : ∀ lines base chain, Always (Expansion.Complete · chain) (enter lines base chain))
    (henter : ∀ lines base chain, source.Unfolded lines base chain (enter lines base chain)) :
    source.Unfolded lines base chain (source.expandWith enter base chain lines) := by
  intro state out hout
  induction lines generalizing state out with
  | nil =>
      obtain rfl := Except.ok.inj hout
      exact ⟨.nil, .nil base chain state, rfl, rfl⟩
  | cons line rest ih =>
      cases hline : Directive.include? line.content with
      | none =>
          obtain ⟨more, hmore, rfl, hleft⟩ := exists_of_expandWith_plain hline hout
          obtain ⟨u, hu, rfl, rfl⟩ := ih state more hmore
          rw [hleft]
          exact ⟨.plain line u, .plain hline hu, rfl, rfl⟩
      | some target =>
          obtain ⟨t, opened, ls, inner, entered, more, hopen, hinner, hmore, rfl, hleft⟩ :=
            exists_of_expandWith_include hline hout
          have hok : ((enter t.lines t.directory (chain ++ [t.canonical])).run opened).1.result =
              .ok ls := by rw [hinner]
          -- the target is the last path of the chain again, and is taken off
          have hchain := (hcomplete t.lines t.directory (chain ++ [t.canonical]) opened ls hok).1
          rw [hinner] at hchain
          obtain rfl : inner = chain ++ [t.canonical] := hchain
          rw [List.dropLast_concat] at hmore hleft
          obtain ⟨v, hv, hgiven, rfl⟩ :=
            henter t.lines t.directory (chain ++ [t.canonical]) opened ls hok
          obtain ⟨u, hu, rfl, rfl⟩ := ih entered more hmore
          obtain ⟨targetLines, directory, canonical⟩ := t
          obtain rfl : v.given = targetLines := hgiven
          rw [hinner] at hv
          rw [hleft]
          exact ⟨.enter line v u, .enter hline hopen hv hu, rfl, rfl⟩

end

/-! ### All levels -/

theorem unfolded_expandWithin (source : ChangingSource σ) (budget depth : Nat) (lines : List Line)
    (base : Path) (chain : List Path) :
    source.Unfolded lines base chain (source.expandWithin budget depth lines base chain) := by
  induction budget generalizing depth lines base chain with
  | zero =>
      intro state out hout
      cases hout
  | succ budget ih =>
      exact unfolded_expandWith (source.complete_expandWithin budget (depth + 1)) (ih (depth + 1))

/-- **Every success has one unfolding**, and the lines of the expansion are what it comes to. -/
theorem exists_unfolds_of_expandIncludes {lines out : List Line} {depth : Nat} {final : List Path}
    (h : (source.expandIncludes lines base depth chain).run state = (⟨.ok out, final⟩, left)) :
    ∃ u, source.Unfolds base chain state u left ∧ u.given = lines ∧
      (∀ v left', source.Unfolds base chain state v left' → v.given = lines → v = u) ∧
      u.lines = out := by
  have hunfolded := source.unfolded_expandWithin (maxIncludeDepth + 1 - depth) depth lines base
    chain state out
  rw [← expandIncludes, h] at hunfolded
  obtain ⟨u, hu, rfl, rfl⟩ := hunfolded rfl
  exact ⟨u, hu, rfl, fun v left' hv hgiven => (hu.unique hv hgiven).1, rfl⟩

end ChangingSource

end IndentHtml
