import IndentHtml.Proofs.Pattern

/-!
# What a search finds

A candidate is looked at in one of a few ways, by what its first pattern is: a component without
wildcards is followed (`Candidate.ofPath_of_literal`), one with wildcards is looked for among the
names in a directory (`Candidate.ofPath_of_wild`), and a name that matches is found or leads on
(`Candidate.matchName_singleton`, `Candidate.matchName_of_holds`).

A search keeps the last of its patterns (`Candidate.EndsIn`): whatever is still to be looked at has
to match it in the end, so the name of every path that is found does (`Search.exists_name_of_mem`).
This holds on whatever disk each step is taken.
-/

namespace IndentHtml

theorem Disk.names_of_not_isDirectory {disk : Disk} {p : Path} (h : disk.isDirectory p = false) :
    disk.names p = [] := by
  unfold isDirectory at h
  unfold names
  split at h
  · cases h
  · rfl

namespace Candidate

/-! ### The ways of a look -/

section Ways

variable {disk : Disk} {directoriesOnly : Bool} {path : Path} {name : Text}
  {pattern : GlobPattern} {patterns : List GlobPattern}

/-- A component without wildcards is followed. -/
theorem ofPath_of_literal (h : pattern.literal? = some name) :
    ofPath disk path (pattern :: patterns) =
      if if name = ['.'] ∨ name = ['.', '.'] then disk.isDirectory path
          else disk.isPresent (below path name) then ofPath disk (below path name) patterns
      else [] := by
  rw [ofPath, h]
  by_cases hspecial : name = ['.'] ∨ name = ['.', '.']
  · have hnot : ¬ (¬ name = ['.'] ∧ ¬ name = ['.', '.']) :=
      fun hnone => hspecial.elim hnone.1 hnone.2
    simp [hspecial, hnot]
  · obtain ⟨hhere, hup⟩ := not_or.mp hspecial
    simp [hhere, hup]

/-- A pattern with wildcards is looked for among the names in a directory.  Only one that starts
with a dot can stand for a special name. -/
theorem ofPath_of_wild (h : pattern.literal? = none)
    (hspecial : pattern.head? = some (.char '.') →
      pattern.holds ['.', '.'] = false ∧ pattern.holds ['.'] = false) :
    ofPath disk path (pattern :: patterns) =
      (disk.names path).map fun name => ⟨below path name, pattern :: patterns⟩ := by
  rw [ofPath, h]
  cases hdir : disk.isDirectory path with
  | false =>
      rw [Disk.names_of_not_isDirectory hdir]
      simp
  | true =>
      by_cases hhead : pattern.head? = some (.char '.')
      · obtain ⟨hup, hhere⟩ := hspecial hhead
        simp [hup, hhere]
      · simp [hhead]

/-- A path whose name is not matched is left out and not gone into. -/
theorem matchName_of_not_holds
    (h : ∀ name, path.fileName? = some name → pattern.holds name = false) :
    matchName disk directoriesOnly path (pattern :: patterns) = (none, []) := by
  cases hname : path.fileName? with
  | none => simp [matchName, hname]
  | some name => simp [matchName, hname, h name hname]

/-- A path whose name the last pattern matches is found, but for a file where only directories are
looked for. -/
theorem matchName_singleton (hname : path.fileName? = some name) (h : pattern.holds name = true) :
    matchName disk directoriesOnly path [pattern] =
      (if !directoriesOnly || disk.isDirectory path then some path else none, []) := by
  simp [matchName, hname, h]

/-- A path whose name is matched is gone into when there are patterns left. -/
theorem matchName_of_holds (hname : path.fileName? = some name) (h : pattern.holds name = true)
    (hne : patterns ≠ []) :
    matchName disk directoriesOnly path (pattern :: patterns) =
      (none, ofPath disk path patterns) := by
  simp [matchName, hname, h, hne]

end Ways

end Candidate

/-! ### The names of found paths -/

namespace GlobPattern.IsSuffix

variable {last : GlobPattern}

theorem literal?_eq (h : last.IsSuffix) : last.literal? = none := by
  obtain ⟨rest, rfl⟩ := h.starts
  rfl

theorem head?_ne (h : last.IsSuffix) : last.head? ≠ some (.char '.') := by
  obtain ⟨rest, rfl⟩ := h.starts
  exact nofun

end GlobPattern.IsSuffix

namespace Candidate

/-- Holds of a candidate whose last pattern is a given one. -/
def EndsIn (last : GlobPattern) (c : Candidate) : Prop :=
  c.patterns.getLast? = some last

variable {last : GlobPattern} (hlast : last.IsSuffix)

include hlast

/-- What is looked at below a path ends in the same pattern. -/
theorem endsIn_of_mem_ofPath {disk : Disk} {p : Path} {patterns : List GlobPattern}
    (hend : patterns.getLast? = some last) : ∀ c ∈ ofPath disk p patterns, c.EndsIn last := by
  induction patterns generalizing p with
  | nil => cases hend
  | cons pattern patterns ih =>
      have hmore : patterns ≠ [] → patterns.getLast? = some last := by
        intro hne
        rwa [← List.getLast?_cons_of_ne_nil hne]
      have honly : patterns = [] → pattern = last := by
        rintro rfl
        exact Option.some.inj hend
      intro c hc
      rw [ofPath] at hc
      split at hc
      · next name hname =>
          -- the last pattern has wildcards, so this one is not it
          have hne : patterns ≠ [] := by
            intro hnil
            rw [honly hnil, hlast.literal?_eq] at hname
            cases hname
          dsimp only at hc
          split at hc
          · exact ih (hmore hne) c hc
          · cases hc
      · split at hc
        · have hspecial : ∀ name,
              c ∈ (if pattern.head? = some (.char '.') && pattern.holds name then
                ofPath disk (p.join ⟨name⟩) patterns else []) → c.EndsIn last := by
            intro name hmem
            split at hmem
            · next hhead =>
                have hne : patterns ≠ [] := by
                  intro hnil
                  rw [honly hnil] at hhead
                  exact hlast.head?_ne (by simpa using (Bool.and_eq_true_iff.mp hhead).1)
                exact ih (hmore hne) c hmem
            · cases hmem
          rcases List.mem_append.mp hc with hc | hc
          · rcases List.mem_append.mp hc with hc | hc
            · exact hspecial _ hc
            · exact hspecial _ hc
          · obtain ⟨name, -, rfl⟩ := List.mem_map.mp hc
            exact hend
        · cases hc

/-- Recursive patterns at the front are not the last one. -/
theorem getLast?_splitRecursive {pattern : GlobPattern} {patterns : List GlobPattern}
    (hend : (pattern :: patterns).getLast? = some last) (hrec : pattern.isRecursive = true) :
    (splitRecursive pattern patterns).2.getLast? = some last := by
  induction patterns generalizing pattern with
  | nil =>
      have hpattern : pattern = last := Option.some.inj hend
      rw [hpattern, hlast.plain] at hrec
      cases hrec
  | cons next patterns ih =>
      rw [List.getLast?_cons_cons] at hend
      rw [splitRecursive]
      split
      · next hnext => exact ih hend hnext
      · exact hend

omit hlast in
/-- What a look leads to: a path whose name the last pattern stands for, and candidates that end in
the pattern. -/
structure Leads (last : GlobPattern) (answer : Option Path × List Candidate) : Prop where
  found : ∀ path, answer.1 = some path →
    ∃ name, path.fileName? = some name ∧ last.holds name = true
  inside : ∀ c ∈ answer.2, c.EndsIn last

omit hlast in
theorem leads_nil (last : GlobPattern) : Leads last (none, []) :=
  ⟨nofun, nofun⟩

theorem leads_matchName (disk : Disk) (directoriesOnly : Bool) (path : Path)
    {patterns : List GlobPattern} (hend : patterns.getLast? = some last) :
    Leads last (matchName disk directoriesOnly path patterns) := by
  cases patterns with
  | nil => cases hend
  | cons pattern patterns =>
      by_cases hholds : ∃ name, path.fileName? = some name ∧ pattern.holds name = true
      · obtain ⟨name, hname, hholds⟩ := hholds
        cases patterns with
        | nil =>
            have hpattern : pattern = last := Option.some.inj hend
            rw [matchName_singleton hname hholds]
            refine ⟨fun found hfound => ?_, nofun⟩
            dsimp only at hfound
            split at hfound
            · obtain rfl := Option.some.inj hfound
              exact ⟨name, hname, hpattern ▸ hholds⟩
            · cases hfound
        | cons next patterns =>
            rw [List.getLast?_cons_cons] at hend
            rw [matchName_of_holds hname hholds (List.cons_ne_nil _ _)]
            exact ⟨nofun, endsIn_of_mem_ofPath hlast hend⟩
      · rw [matchName_of_not_holds fun name hname =>
          Bool.eq_false_iff.mpr fun h => hholds ⟨name, hname, h⟩]
        exact leads_nil last

/-- Looking at a candidate leads to candidates with the same end, and finds what this matches. -/
theorem leads_look (disk : Disk) (directoriesOnly : Bool) {c : Candidate}
    (hend : c.EndsIn last) : Leads last (c.look disk directoriesOnly) := by
  obtain ⟨path, patterns⟩ := c
  cases patterns with
  | nil => cases hend
  | cons pattern patterns =>
      unfold look
      dsimp only
      split
      · next hrec =>
          have hrest := getLast?_splitRecursive hlast hend hrec
          have hne : (splitRecursive pattern patterns).2 ≠ [] := by
            intro hnil
            rw [hnil] at hrest
            cases hrest
          split
          · have hinside : ∀ c ∈ ofPath disk path ((splitRecursive pattern patterns).1 ::
                (splitRecursive pattern patterns).2), c.EndsIn last :=
              endsIn_of_mem_ofPath hlast (by rw [List.getLast?_cons_of_ne_nil hne, hrest])
            rw [if_neg (by simpa [List.isEmpty_iff] using hne)]
            obtain ⟨hfound, hmore⟩ := leads_matchName hlast disk directoriesOnly path hrest
            exact ⟨hfound, fun c hc => (List.mem_append.mp hc).elim (hmore c) (hinside c)⟩
          · exact leads_matchName hlast disk directoriesOnly path hrest
      · exact leads_matchName hlast disk directoriesOnly path hend

end Candidate

namespace Search

variable {last : GlobPattern} (hlast : last.IsSuffix)

include hlast

/-- A step finds a path whose name the last pattern stands for, and keeps the last pattern. -/
theorem leads_next? {disk : Disk} {search rest : Search} {found : Option Path}
    (h : ∀ c ∈ search.candidates, c.EndsIn last) (hnext : search.next? disk = some (found, rest)) :
    Candidate.Leads last (found, rest.candidates) := by
  obtain ⟨directoriesOnly, candidates⟩ := search
  cases candidates with
  | nil => cases hnext
  | cons c cs =>
      obtain ⟨hc, hcs⟩ := List.forall_mem_cons.mp h
      obtain ⟨hfound, hinside⟩ := Candidate.leads_look hlast disk directoriesOnly hc
      obtain ⟨rfl, rfl⟩ := Prod.mk.inj (Option.some.inj hnext)
      exact ⟨hfound, fun d hd => (List.mem_append.mp hd).elim (hinside d) (hcs d)⟩

/-- **The name of a found path** is one that the last pattern stands for. -/
theorem exists_name_of_mem {disk : Disk} {steps : Nat} {search : Search} {path : Path}
    (h : ∀ c ∈ search.candidates, c.EndsIn last) (hpath : path ∈ paths disk steps search) :
    ∃ name, path.fileName? = some name ∧ last.holds name = true := by
  induction steps generalizing search with
  | zero => cases hpath
  | succ steps ih =>
      rw [paths] at hpath
      cases hnext : search.next? disk with
      | none =>
          rw [hnext] at hpath
          cases hpath
      | some answer =>
          obtain ⟨found, rest⟩ := answer
          obtain ⟨hfound, hrest⟩ := leads_next? hlast h hnext
          rw [hnext] at hpath
          rcases List.mem_append.mp hpath with hpath | hpath
          · exact hfound path (Option.mem_toList.mp hpath)
          · exact ih hrest hpath

end Search

end IndentHtml
