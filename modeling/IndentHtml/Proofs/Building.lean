import IndentHtml.Proofs.Templates

/-!
# Builds and walks

A build takes the steps of its search between the pages that it writes, and the search looks at a
directory only when its turn comes.  As long as the templates directory stays as it is, this makes
no difference: the build deals with the templates of the disk that it started from, one after the
other (`Build.run_eq_visitAll`).
-/

namespace IndentHtml

namespace Build

open Candidate (Spot Holds Quiet Dead deep inside walkAll sizeAll)

variable {options : BuildOptions} {data : Data} {disk : Disk} {report : BuildReport}

/-- Deals with templates one after the other, up to the first one that fails. -/
def visitAll (options : BuildOptions) (data : Data) :
    Disk → BuildReport → List Path → Except SiteError BuildReport × Disk
  | disk, report, [] => (.ok report, disk)
  | disk, report, path :: paths =>
      match visit options data disk report path with
      | (.ok report, disk) => visitAll options data disk report paths
      | (.error e, disk) => (.error e, disk)

theorem buildAll_quiet {n : Nat} {cs ds : List Candidate} (h : Quiet disk n cs ds) (steps : Nat)
    (report : BuildReport) :
    buildAll options data (n + steps) disk ⟨false, cs⟩ report =
      buildAll options data steps disk ⟨false, ds⟩ report := by
  induction h with
  | refl cs => rw [Nat.zero_add]
  | step hlook _ ih =>
      rw [Nat.add_right_comm, buildAll, Search.next?]
      dsimp only
      rw [hlook]
      exact ih

theorem buildAll_nil (steps : Nat) :
    buildAll options data steps disk ⟨false, []⟩ report = (.ok report, disk) := by
  cases steps <;> rfl

/-- **A build below its base** deals with what the walk finds, whatever is written meanwhile, as
long as the spots of the walk stay. -/
theorem buildAll_walk {last : GlobPattern} (hlast : last.IsSuffix) {P : Disk → Prop}
    {S : Spot → Prop} (hholds : ∀ disk, P disk → ∀ spot, S spot → Holds disk spot)
    (hinside : ∀ spot, S spot → ∀ next ∈ inside spot, S next)
    {spots : List Spot} (hspots : ∀ spot ∈ spots, S spot)
    (hvisit : ∀ path ∈ walkAll last spots, ∀ disk report report' disk', P disk →
      visit options data disk report path = (.ok report', disk') → P disk')
    {dead : List Candidate} (hdead : ∀ c ∈ dead, Dead c) {steps : Nat}
    (hsteps : sizeAll spots + dead.length ≤ steps) (hdisk : P disk) :
    buildAll options data steps disk ⟨false, spots.map (fun spot => deep last spot.1) ++ dead⟩
        report = visitAll options data disk report (walkAll last spots) := by
  induction spots using Candidate.spots_induction generalizing steps disk report with
  | nil =>
      obtain ⟨more, rfl⟩ := Nat.exists_eq_add_of_le (Nat.le_of_add_left_le hsteps)
      have hquiet : Quiet disk dead.length (dead ++ []) [] := Candidate.quiet_of_dead hdead []
      rw [List.append_nil] at hquiet
      rw [List.map_nil, List.nil_append, buildAll_quiet hquiet, buildAll_nil]
      rfl
  | cons spot spots ih =>
      obtain ⟨hspot, hnext⟩ := Candidate.forall_mem_step hinside hspots
      have hless := Candidate.sizeAll_cons spot spots
      obtain ⟨more, rfl⟩ := Nat.exists_eq_add_of_lt (show 0 < steps by omega)
      rw [Candidate.walkAll_cons] at hvisit ⊢
      obtain ⟨hfound, hrest⟩ := List.forall_mem_append.mp hvisit
      have hgo : ∀ disk report, P disk →
          buildAll options data (0 + more) disk ⟨false, (inside spot ++ spots).map
            (fun spot => deep last spot.1) ++ dead⟩ report =
          visitAll options data disk report (walkAll last (inside spot ++ spots)) :=
        fun disk report hdisk => ih hnext hrest (by omega) hdisk
      rw [buildAll, Candidate.next?_deep hlast (hholds disk hdisk spot hspot)]
      cases hpath : Candidate.found last spot.1 with
      | none => exact hgo disk report hdisk
      | some path =>
          rw [hpath] at hfound
          have hkeeps := hfound path List.mem_cons_self disk report
          rw [Option.toList_some, List.singleton_append, visitAll]
          dsimp only
          rcases hvisited : visit options data disk report path with ⟨e | report', disk'⟩
          · rfl
          · exact hgo disk' report' (hkeeps report' disk' hdisk hvisited)

/-- **A run** deals with the templates of the disk it starts from, whatever it writes, as long as
the templates directory stays. -/
theorem run_eq_visitAll {last : GlobPattern} (hwell : disk.root.WellFormed) (hlast : last.IsSuffix)
    (hpattern : PathPattern.ofText options.patternText = .ok (options.patternFor last))
    (hdata : Data.load disk options.data = .ok data) {P : Disk → Prop}
    (hP : ∀ here node, Found options disk here node → ∀ new, P new → Found options new here node)
    (hvisit : ∀ path ∈ templates options disk, ∀ disk report report' disk', P disk →
      visit options data disk report path = (.ok report', disk') → P disk') (hdisk : P disk) :
    run options disk = visitAll options data disk ⟨[], 0⟩ (templates options disk) := by
  obtain ⟨cs, n, dead, steps, hstart, hbound, hsteps, hdead, hquiet⟩ :=
    exists_quiet_start options hwell last
  obtain ⟨S, hholds, hinside, hspots⟩ := exists_spots_invariant options hwell hP
  rw [templates_eq_walkAll hwell hlast hpattern] at hvisit ⊢
  rw [run, hdata, hpattern]
  dsimp only
  rw [hstart, hbound, buildAll_quiet hquiet]
  exact buildAll_walk hlast hholds hinside hspots hvisit hdead hsteps hdisk

end Build

end IndentHtml
