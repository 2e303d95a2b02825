import IndentHtml.Proofs.Walking
import IndentHtml.Site.Build

/-!
# The templates of a build

A search first follows the segments of its base, and finds nothing on the way
(`Candidate.exists_quiet`); then it walks through what is below the base.  Its bound suffices for
both, so it finds all there is to find (`Search.paths_eq`).

**The templates** (`Build.templates`) are what a search of a build finds on a disk that stays as it
is.  They come in the order of their paths (`Build.pairwise_templates`), each is the path of names
below the templates directory (`Build.exists_isBelow_of_mem_templates`), and they are the same on a
grown disk with nothing new below that directory (`Build.templates_eq_of_grown`).
-/

namespace IndentHtml

/-! ### Sizes -/

namespace Node

theorem length_le_sizeEntries (entries : List (Text × Node)) :
    entries.length ≤ sizeEntries entries := by
  induction entries with
  | nil => exact Nat.zero_le _
  | cons entry entries ih =>
      obtain ⟨name, child⟩ := entry
      have hchild : 1 ≤ child.size := by
        cases child with
        | file content => rw [size]
        | directory inner => rw [size]; omega
      rw [sizeEntries, List.length_cons]
      omega

theorem size_le_sizeEntries {entries : List (Text × Node)} {name : Text} {child : Node}
    (h : Table.find? entries name = some child) : child.size ≤ sizeEntries entries := by
  induction entries with
  | nil => cases h
  | cons entry entries ih =>
      rw [Table.find?] at h
      rw [sizeEntries]
      split at h
      · obtain rfl := Option.some.inj h
        exact Nat.le_add_right _ _
      · exact Nat.le_add_left_of_le (ih h)

theorem size_le_of_at? {node inner : Node} {l : List Text} (h : node.at? l = some inner) :
    inner.size ≤ node.size := by
  induction l generalizing node with
  | nil => rw [Option.some.inj h]
  | cons name l ih =>
      obtain ⟨child, hchild, hinner⟩ := Option.bind_eq_some_iff.mp h
      cases node with
      | file content => cases hchild
      | directory entries =>
          have hle : child.size ≤ sizeEntries entries := size_le_sizeEntries hchild
          rw [size]
          exact (ih hinner).trans (hle.trans (Nat.le_succ _))

end Node

namespace Disk

variable {disk : Disk}

/-- The names in a directory of a well-formed disk are in order, and there are not more of them
than nodes. -/
theorem names_of_wellFormed (h : disk.root.WellFormed) (p : Path) :
    (disk.names p).Pairwise (· < ·) ∧ (∀ n ∈ disk.names p, Path.IsName n) ∧
      (disk.names p).length ≤ disk.root.size := by
  rw [names]
  split
  · next entries hnode =>
      obtain ⟨l, -, hentries⟩ := Option.bind_eq_some_iff.mp hnode
      obtain ⟨hsorted, hnames⟩ := h l entries hentries
      refine ⟨hsorted, hnames, ?_⟩
      have hsize := Node.size_le_of_at? hentries
      have hlength := Node.length_le_sizeEntries entries
      rw [Node.size] at hsize
      rw [Table.keys, List.length_map]
      omega
  · exact ⟨.nil, fun _ h => absurd h List.not_mem_nil, Nat.zero_le _⟩

theorem mem_names {p : Path} {n : Text} :
    n ∈ disk.names p ↔
      ∃ l, disk.locate? p = some l ∧ disk.kind? l = some .directory ∧
        disk.kind? (l ++ [n]) ≠ none := by
  rw [names, node?]
  cases disk.locate? p with
  | none => simp
  | some l =>
      rw [Option.bind_some]
      constructor
      · intro h
        split at h
        · next entries hentries =>
            refine ⟨l, rfl, kind?_eq_directory.mpr ⟨entries, hentries⟩, ?_⟩
            rw [← Option.isSome_iff_ne_none, ← contains_eq hentries]
            exact Table.contains_iff_mem_keys.mpr h
        · cases h
      · rintro ⟨m, hm, hdir, hthere⟩
        obtain rfl := Option.some.inj hm
        obtain ⟨entries, hentries⟩ := kind?_eq_directory.mp hdir
        rw [← Option.isSome_iff_ne_none, ← contains_eq hentries] at hthere
        rw [hentries]
        exact Table.contains_iff_mem_keys.mp hthere

theorem Grown.mem_names {files directories : Set (List Text)} {new : Disk}
    (h : Grown files directories disk new) {p : Path} {n : Text} (hn : n ∈ disk.names p) :
    n ∈ new.names p := by
  obtain ⟨l, hl, hdir, hthere⟩ := Disk.mem_names.mp hn
  exact Disk.mem_names.mpr ⟨l, h.locate? hl, h.directory hdir, h.present hthere⟩

end Disk

/-! ### The way to the base -/

namespace Candidate

open IndentHtml.Path (IsName)

variable {last : GlobPattern} {disk : Disk}

/-- Holds when a search goes on from a path by a segment of its base. -/
def goes (disk : Disk) (p : Path) (t : Text) : Bool :=
  if t.any GlobPattern.isWild then (disk.names p).contains t
  else if t = ['.'] ∨ t = ['.', '.'] then disk.isDirectory p
  else disk.isPresent (below p t)

/-- The spots that a search starts with below its base. -/
def spotsBelow (disk : Disk) (b : Path) : List Spot :=
  match disk.node? b with
  | some node => inside (b, node)
  | none => []

/-- The spots below the base that segments lead to; there are none when they lead nowhere. -/
def spotsFrom (disk : Disk) (p : Path) : List Text → List Spot
  | [] => spotsBelow disk p
  | t :: ts => if goes disk p t then spotsFrom disk (below p t) ts else []

theorem goes_of_grown {files directories : Set (List Text)} {new : Disk}
    (h : Disk.Grown files directories disk new) {p : Path} {t : Text} (hgo : goes disk p t = true) :
    goes new p t = true := by
  rw [goes] at hgo ⊢
  split at hgo
  · next hwild =>
      rw [if_pos hwild, List.contains_iff_mem]
      exact h.mem_names (List.contains_iff_mem.mp hgo)
  · next hplain =>
      rw [if_neg hplain]
      split at hgo
      · next hspecial => rw [if_pos hspecial, h.isDirectory hgo]
      · next hname => rw [if_neg hname, h.isPresent hgo]

/-- Below the base all names are looked at. -/
theorem ofPath_base (last : GlobPattern) (b : Path) :
    ofPath disk b [[.anyDirectories], last] =
      (spotsBelow disk b).map fun spot => deep last spot.1 := by
  have hnames : ofPath disk b [[.anyDirectories], last] =
      (disk.names b).map fun name => deep last (below b name) :=
    ofPath_of_wild rfl fun h => nomatch h
  rw [hnames, spotsBelow]
  cases hnode : disk.node? b with
  | some node =>
      have hholds : Holds disk (b, node) := .inr hnode
      exact map_names hholds
  | none => rw [Disk.names, hnode]; rfl

theorem ofPath_of_plain (disk : Disk) (p : Path) {t : Text}
    (h : t.any GlobPattern.isWild = false) (patterns : List GlobPattern) :
    ofPath disk p (GlobPattern.exactly t :: patterns) =
      if goes disk p t then ofPath disk (below p t) patterns else [] := by
  have hliteral : (GlobPattern.exactly t).literal? = some t := by
    rw [GlobPattern.literal?_exactly, h]
    rfl
  rw [ofPath_of_literal hliteral, goes, h, if_neg Bool.false_ne_true]

/-- A segment with wildcards is looked for by its name. -/
theorem ofPath_of_isWild {p : Path} {t : Text} (h : t.any GlobPattern.isWild = true)
    (patterns : List GlobPattern) :
    ofPath disk p (GlobPattern.exactly t :: patterns) =
      (disk.names p).map fun name => ⟨below p name, GlobPattern.exactly t :: patterns⟩ := by
  refine ofPath_of_wild (by rw [GlobPattern.literal?_exactly, h]; rfl) fun _ => ?_
  have hplain : ∀ name : Text, name.any GlobPattern.isWild = false →
      (GlobPattern.exactly t).holds name = false := by
    intro name hname
    refine Bool.eq_false_iff.mpr fun hholds => ?_
    rw [← GlobPattern.holds_exactly.mp hholds, hname] at h
    cases h
  exact ⟨hplain _ (by decide), hplain _ (by decide)⟩

/-- The name that is searched for leads on. -/
theorem look_exactly {p : Path} {t : Text} (ht : IsName t) {patterns : List GlobPattern}
    (hne : patterns ≠ []) :
    look disk false ⟨below p t, GlobPattern.exactly t :: patterns⟩ =
      (none, ofPath disk (below p t) patterns) := by
  rw [look]
  dsimp only
  rw [GlobPattern.isRecursive_exactly, if_neg Bool.false_ne_true,
    matchName_of_holds (fileName?_below ht) (GlobPattern.holds_exactly.mpr rfl) hne]

/-- **The way to the base** is followed without a find, and nothing but dead candidates is left
beside what is below the base. -/
theorem exists_quiet (hdisk : disk.root.WellFormed) (last : GlobPattern) (ts : List Text)
    (p : Path) :
    ∃ n dead, n + List.length dead ≤ ts.length * disk.root.size ∧ (∀ c ∈ dead, Dead c) ∧
      Quiet disk n (ofPath disk p (ts.map GlobPattern.exactly ++ [[.anyDirectories], last]))
        ((spotsFrom disk p ts).map (fun spot => deep last spot.1) ++ dead) := by
  induction ts generalizing p with
  | nil =>
      refine ⟨0, [], Nat.zero_le _, nofun, ?_⟩
      rw [List.map_nil, List.nil_append, ofPath_base, List.append_nil]
      exact .refl _
  | cons t ts ih =>
      rw [List.map_cons, List.cons_append, List.length_cons, Nat.succ_mul, spotsFrom]
      obtain ⟨n, dead, hcount, hdead, hquiet⟩ := ih (below p t)
      cases hwild : t.any GlobPattern.isWild with
      | false =>
          rw [ofPath_of_plain disk p hwild]
          split
          · exact ⟨n, dead, Nat.le_add_right_of_le hcount, hdead, hquiet⟩
          · exact ⟨0, [], Nat.zero_le _, nofun, .refl _⟩
      | true =>
          obtain ⟨hsorted, hnames, hlength⟩ := Disk.names_of_wellFormed hdisk p
          rw [ofPath_of_isWild hwild, goes, hwild, if_pos rfl]
          split
          · next hgo =>
              -- one candidate among dead ones leads on
              obtain ⟨before, after, hsplit⟩ := List.append_of_mem (List.contains_iff_mem.mp hgo)
              rw [hsplit] at hsorted hnames hlength
              obtain ⟨-, hafter, hbefore⟩ := List.pairwise_append.mp hsorted
              obtain ⟨rest, hrest⟩ : ∃ rest,
                rest = ts.map GlobPattern.exactly ++ [[.anyDirectories], last] := ⟨_, rfl⟩
              have hbeforeDead := dead_map p rest fun n hn =>
                ⟨hnames n (List.mem_append_left _ hn), (hbefore n hn t List.mem_cons_self).ne⟩
              have hafterDead := dead_map p rest fun n hn =>
                ⟨hnames n (List.mem_append_right _ (List.mem_cons_of_mem _ hn)),
                  ((List.pairwise_cons.mp hafter).1 n hn).ne'⟩
              have ht := hnames t (List.mem_append_right _ List.mem_cons_self)
              have hlook : look disk false ⟨below p t, GlobPattern.exactly t :: rest⟩ =
                  (none, ofPath disk (below p t) rest) := look_exactly ht (by simp [hrest])
              rw [← hrest] at hquiet ⊢
              have hsteps := (quiet_of_dead hbeforeDead _).trans
                (.step hlook (hquiet.append (after.map fun name =>
                  ⟨below p name, GlobPattern.exactly t :: rest⟩)))
              rw [List.append_assoc] at hsteps
              rw [hsplit, List.map_append, List.map_cons]
              refine ⟨_, _, ?_, List.forall_mem_append.mpr ⟨hdead, hafterDead⟩, hsteps⟩
              rw [List.length_append, List.length_cons] at hlength
              rw [List.length_append, List.length_map, List.length_map]
              omega
          · next hgo =>
              have hother : ∀ n ∈ disk.names p, n ≠ t := by
                rintro n hn rfl
                exact hgo (List.contains_iff_mem.mpr hn)
              refine ⟨0, _, ?_, dead_map p _ fun n hn => ⟨hnames n hn, hother n hn⟩, .refl _⟩
              rw [List.length_map, Nat.zero_add]
              exact Nat.le_add_left_of_le hlength

/-! ### What is below the base -/

theorem isBase_below {p : Path} {t : Text} (hp : IsBase p) (ht : '/' ∉ t)
    (hgo : goes disk p t = true) : IsBase (below p t) := by
  rcases hp with rfl | ⟨htext, hbare⟩
  · have hbelow : below ⟨['.']⟩ t = ⟨t⟩ := rfl
    rw [hbelow]
    by_cases hhere : t = ['.']
    · exact .inl (congrArg Path.mk hhere)
    · refine .inr ⟨?_, ?_⟩
      · -- the empty path leads nowhere
        rintro rfl
        cases hgo
      · rw [Path.Bare, Path.segments_of_not_mem ht]
        exact fun h => hhere (Option.some.inj h)
  · obtain ⟨pre, hpre, hsegments, hjoin⟩ := Path.exists_segments_eq htext
    have hsegmentsBelow : (below p t).segments = pre ++ [t] := by
      rw [below, isHere_of_bare hbare, if_neg Bool.false_ne_true,
        hjoin ⟨t⟩ (Path.isAbsolute_eq_false_of_not_mem ht), Path.segments_of_not_mem ht]
    obtain ⟨first, rest, rfl⟩ := List.exists_cons_of_ne_nil hpre
    refine .inr ⟨fun hnil => ?_, ?_⟩
    · rw [Path.segments, hnil] at hsegmentsBelow
      simp at hsegmentsBelow
    · rw [Path.Bare] at hbare ⊢
      rcases hsegments with h | h <;> rw [h] at hbare <;> rwa [hsegmentsBelow]

/-- **Below its base** a search finds what is there, on the disk and on all that grow out of it. -/
theorem spotsFrom_eq {p : Path} {ts : List Text} (hp : IsBase p) (hts : ∀ t ∈ ts, '/' ∉ t) :
    spotsFrom disk p ts = [] ∨
      IsBase (under p ts) ∧
      (under p ts).inner = p.inner ++ ts.filterMap Path.innerComponent? ∧
      (under p ts).isAbsolute = p.isAbsolute ∧
      ∀ files directories new, Disk.Grown files directories disk new →
        spotsFrom new p ts = spotsBelow new (under p ts) := by
  induction ts generalizing p with
  | nil => exact .inr ⟨hp, (List.append_nil _).symm, rfl, fun _ _ _ _ => rfl⟩
  | cons t ts ih =>
      obtain ⟨ht, hmore⟩ := List.forall_mem_cons.mp hts
      cases hgo : goes disk p t with
      | false => exact .inl (by rw [spotsFrom, hgo, if_neg Bool.false_ne_true])
      | true =>
          have htext : p.text ≠ [] := by
            rcases hp with rfl | ⟨htext, -⟩
            · exact List.cons_ne_nil _ _
            · exact htext
          have hunder : under p (t :: ts) = under (below p t) ts := rfl
          rw [hunder, Disk.filterMap_cons, ← List.append_assoc, ← inner_below ht,
            ← isAbsolute_below htext ht]
          rcases ih (isBase_below hp ht hgo) hmore with hnone | ⟨hb, hinner, habs, hspots⟩
          · exact .inl (by rw [spotsFrom, hgo, if_pos rfl, hnone])
          · refine .inr ⟨hb, hinner, habs, fun files directories new hgrown => ?_⟩
            rw [spotsFrom, goes_of_grown hgrown hgo, if_pos rfl]
            exact hspots files directories new hgrown

theorem sizeAll_spotsFrom_le (disk : Disk) (p : Path) (ts : List Text) :
    sizeAll (spotsFrom disk p ts) ≤ disk.root.size := by
  induction ts generalizing p with
  | nil =>
      rw [spotsFrom, spotsBelow]
      split
      · next node hnode =>
          obtain ⟨l, -, hat⟩ := Option.bind_eq_some_iff.mp hnode
          have hsize := sizeAll_cons (p, node) []
          have hall : sizeAll [(p, node)] = node.size := rfl
          have hle := Node.size_le_of_at? hat
          rw [List.append_nil, hall] at hsize
          omega
      · exact Nat.zero_le _
  | cons t ts ih =>
      rw [spotsFrom]
      split
      · exact ih _
      · exact Nat.zero_le _

end Candidate

/-! ### Whole searches -/

namespace Search

open Candidate (Spot Holds Quiet Dead deep inside walkAll sizeAll)

variable {disk : Disk} {last : GlobPattern}

theorem paths_quiet {n : Nat} {cs ds : List Candidate} (h : Quiet disk n cs ds) (steps : Nat) :
    paths disk (n + steps) ⟨false, cs⟩ = paths disk steps ⟨false, ds⟩ := by
  induction h with
  | refl cs => rw [Nat.zero_add]
  | step hlook _ ih =>
      rw [Nat.add_right_comm, paths, next?]
      dsimp only
      rw [hlook]
      exact ih

theorem paths_nil (steps : Nat) : paths disk steps ⟨false, []⟩ = [] := by
  cases steps <;> rfl

/-- **A search below its base** finds what the walk finds. -/
theorem paths_walk (hlast : last.IsSuffix) {P : Spot → Prop}
    (hholds : ∀ spot, P spot → Holds disk spot)
    (hinside : ∀ spot, P spot → ∀ next ∈ inside spot, P next)
    {spots : List Spot} (hspots : ∀ spot ∈ spots, P spot)
    {dead : List Candidate} (hdead : ∀ c ∈ dead, Dead c) {steps : Nat}
    (hsteps : sizeAll spots + dead.length ≤ steps) :
    paths disk steps ⟨false, spots.map (fun spot => deep last spot.1) ++ dead⟩ =
      walkAll last spots := by
  induction spots using Candidate.spots_induction generalizing steps with
  | nil =>
      obtain ⟨more, rfl⟩ := Nat.exists_eq_add_of_le (Nat.le_of_add_left_le hsteps)
      have hquiet : Quiet disk dead.length (dead ++ []) [] := Candidate.quiet_of_dead hdead []
      rw [List.append_nil] at hquiet
      rw [List.map_nil, List.nil_append, paths_quiet hquiet, paths_nil]
      rfl
  | cons spot spots ih =>
      obtain ⟨hspot, hnext⟩ := Candidate.forall_mem_step hinside hspots
      have hless := Candidate.sizeAll_cons spot spots
      obtain ⟨more, rfl⟩ := Nat.exists_eq_add_of_lt (show 0 < steps by omega)
      rw [paths, Candidate.next?_deep hlast (hholds spot hspot)]
      dsimp only
      rw [ih hnext (by omega), Candidate.walkAll_cons]

end Search

/-! ### The search of a build -/

namespace BuildOptions

/-- The path that the search for the templates starts from. -/
def searchStart (options : BuildOptions) : Path :=
  ⟨if options.fromTop then ['/'] else ['.']⟩

/-- The templates directory as the search spells it. -/
def searchBase (options : BuildOptions) : Path :=
  Candidate.under options.searchStart options.dirParts

/-- The pattern for the templates whose names a pattern stands for. -/
def patternFor (options : BuildOptions) (last : GlobPattern) : PathPattern :=
  ⟨options.fromTop, options.dirParts.map GlobPattern.exactly ++ [[.anyDirectories], last], false⟩

variable {options : BuildOptions}

theorem isBase_searchStart (options : BuildOptions) : Candidate.IsBase options.searchStart := by
  rw [searchStart]
  cases options.fromTop with
  | true => exact .inr ⟨List.cons_ne_nil _ _, by rw [Path.Bare]; decide⟩
  | false => exact .inl rfl

theorem slash_not_mem_dirParts : ∀ t ∈ options.dirParts, '/' ∉ t := by
  intro t ht
  rw [dirParts] at ht
  split at ht
  · exact Path.slash_not_mem (List.mem_of_mem_tail ht)
  · exact Path.slash_not_mem ht

theorem filterMap_dirParts (options : BuildOptions) :
    options.dirParts.filterMap Path.innerComponent? = options.templatesDir.inner := by
  obtain ⟨t, htext⟩ : ∃ t, options.templatesDir = ⟨t⟩ := ⟨_, rfl⟩
  rw [dirParts, fromTop, htext, Path.inner]
  split
  · next htop =>
      -- the segment before the first slash is empty
      cases t with
      | nil => rfl
      | cons c t =>
          obtain rfl : c = '/' := by simpa [Path.isAbsolute_cons] using htop
          rw [Path.segments_cons_slash]
          rfl
  · rfl

theorem isAbsolute_searchStart (hdir : options.templatesDir.text ≠ []) :
    options.searchStart.isAbsolute = options.templatesDir.isAbsolute := by
  have hfrom : options.fromTop = options.templatesDir.isAbsolute := by simp [fromTop, hdir]
  rw [searchStart, ← hfrom]
  cases options.fromTop <;> rfl

end BuildOptions

namespace Build

open Candidate (Spot IsBase IsBelow IsUnder Holds Quiet Dead deep walkAll sizeAll)

variable {options : BuildOptions} {disk : Disk} {last : GlobPattern}

/-- The spots below the templates directory. -/
def spots (options : BuildOptions) (disk : Disk) : List Spot :=
  Candidate.spotsFrom disk options.searchStart options.dirParts

/-- Holds when a search gets to the templates directory, which is at a location. -/
structure Found (options : BuildOptions) (disk : Disk) (here : List Text) (node : Node) :
    Prop where
  base : IsBase options.searchBase
  inner : options.searchBase.inner = options.templatesDir.inner
  absolute : options.searchBase.isAbsolute = options.searchStart.isAbsolute
  located : disk.locate? options.searchBase = some here
  node : disk.root.at? here = some node
  spots : ∀ files directories new, Disk.Grown files directories disk new →
    Build.spots options new = Candidate.spotsBelow new options.searchBase

/-- Without the templates directory there are no spots. -/
theorem spots_eq_nil_or_found (options : BuildOptions) (disk : Disk) :
    spots options disk = [] ∨ ∃ here node, Found options disk here node := by
  obtain hnone | ⟨hb, hinner, habs, hspots⟩ : spots options disk = [] ∨ _ :=
    Candidate.spotsFrom_eq options.isBase_searchStart BuildOptions.slash_not_mem_dirParts
  · exact .inl hnone
  · have hbelow : spots options disk = Candidate.spotsBelow disk options.searchBase :=
      hspots ∅ ∅ disk (.refl _ _ _)
    cases hnode : disk.node? options.searchBase with
    | none => exact .inl (by rw [hbelow, Candidate.spotsBelow, hnode])
    | some node =>
        obtain ⟨here, hhere, hat⟩ := Option.bind_eq_some_iff.mp hnode
        have htop : options.searchStart.inner = [] := by
          rw [BuildOptions.searchStart]
          cases options.fromTop <;> rfl
        rw [htop, List.nil_append, options.filterMap_dirParts] at hinner
        exact .inr ⟨here, node, hb, hinner, habs, hhere, hat, hspots⟩

namespace Found

variable {here : List Text} {node : Node}

theorem spots_eq (h : Found options disk here node) :
    Build.spots options disk = Candidate.inside (options.searchBase, node) := by
  have hnode : disk.node? options.searchBase = some node := by
    rw [Disk.node?, h.located]
    exact h.node
  rw [h.spots ∅ ∅ disk (.refl _ _ _), Candidate.spotsBelow, hnode]

/-- The templates directory is as it was on a grown disk with nothing new in it. -/
theorem grown (h : Found options disk here node) {files directories : Set (List Text)}
    {new : Disk} (hgrown : Disk.Grown files directories disk new)
    (hapart : ∀ m ∈ files ∪ directories, ¬ here <+: m) : Found options new here node where
  base := h.base
  inner := h.inner
  absolute := h.absolute
  located := hgrown.locate? h.located
  node := (hgrown.tree here hapart).trans h.node
  spots files' directories' later hlater :=
    h.spots (files ∪ files') (directories ∪ directories') later
      ((hgrown.mono Set.subset_union_left Set.subset_union_left).trans
        (hlater.mono Set.subset_union_right Set.subset_union_right))

theorem isUnder (h : Found options disk here node) :
    IsUnder disk.root options.searchBase here [] (options.searchBase, node) :=
  ⟨nofun, rfl, (congrArg disk.root.at? (List.append_nil here)).trans h.node⟩

theorem isBelow_spots (h : Found options disk here node) (hdisk : disk.root.WellFormed) :
    ∀ spot ∈ Build.spots options disk, IsBelow disk.root options.searchBase here spot := by
  rw [h.spots_eq]
  exact h.isUnder.isBelow hdisk

theorem pairwise_spots (h : Found options disk here node) (hdisk : disk.root.WellFormed) :
    (Build.spots options disk).Pairwise fun s t =>
      Candidate.Precedes s.1.segments t.1.segments := by
  rw [h.spots_eq]
  exact (h.isUnder.segments_inside hdisk h.base).2

theorem holds (h : Found options disk here node) {spot : Spot}
    (hspot : IsBelow disk.root options.searchBase here spot) : Holds disk spot := by
  obtain ⟨ns, -, hunder⟩ := hspot
  exact hunder.holds h.base h.located

/-- What is below the templates directory is told by the directory alone. -/
theorem isBelow (h : Found options disk here node) {new : Disk} (hnew : Found options new here node)
    {spot : Spot} (hspot : IsBelow disk.root options.searchBase here spot) :
    IsBelow new.root options.searchBase here spot := by
  obtain ⟨ns, hne, hns, hpath, hnode⟩ := hspot
  refine ⟨ns, hne, hns, hpath, ?_⟩
  rwa [Node.at?_append, hnew.node, ← h.node, ← Node.at?_append]

end Found

/-- What is below the templates directory holds on all disks on which the directory is found as it
is. -/
theorem exists_spots_invariant (options : BuildOptions) (hdisk : disk.root.WellFormed)
    {P : Disk → Prop}
    (hP : ∀ here node, Found options disk here node → ∀ new, P new → Found options new here node) :
    ∃ S : Spot → Prop, (∀ new, P new → ∀ spot, S spot → Holds new spot) ∧
      (∀ spot, S spot → ∀ next ∈ Candidate.inside spot, S next) ∧
      ∀ spot ∈ spots options disk, S spot := by
  rcases spots_eq_nil_or_found options disk with hnone | ⟨here, node, hfound⟩
  · exact ⟨fun _ => False, nofun, nofun, by simp [hnone]⟩
  · refine ⟨IsBelow disk.root options.searchBase here, fun new hnew spot hspot => ?_,
      fun _ => IsBelow.inside hdisk, hfound.isBelow_spots hdisk⟩
    have hthere := hP here node hfound new hnew
    exact hthere.holds (hfound.isBelow hthere hspot)

/-- The search of a build gets to what is below the templates directory, with enough steps left for
the walk through it. -/
theorem exists_quiet_start (options : BuildOptions) (hdisk : disk.root.WellFormed)
    (last : GlobPattern) :
    ∃ cs n dead steps, Search.start disk (options.patternFor last) = ⟨false, cs⟩ ∧
      Search.bound disk (options.patternFor last) = n + steps ∧
      sizeAll (spots options disk) + List.length dead ≤ steps ∧ (∀ c ∈ dead, Dead c) ∧
      Quiet disk n cs ((spots options disk).map (fun spot => deep last spot.1) ++ dead) := by
  obtain ⟨n, dead, hcount, hdead, hquiet⟩ :=
    Candidate.exists_quiet hdisk last options.dirParts options.searchStart
  have hsize := Candidate.sizeAll_spotsFrom_le disk options.searchStart options.dirParts
  have hbound : (options.dirParts.length + 1) * disk.root.size ≤
      Search.bound disk (options.patternFor last) := by
    have hlength : (options.patternFor last).components.length = options.dirParts.length + 2 := by
      simp [BuildOptions.patternFor]
    have hpow : options.dirParts.length + 1 ≤
        (disk.root.size + 2) ^ (options.dirParts.length + 3) :=
      (Nat.lt_pow_self (Nat.lt_of_lt_of_le Nat.one_lt_two (Nat.le_add_left _ _))).le.trans
        (Nat.pow_le_pow_right (by omega) (by omega))
    rw [Search.bound, hlength]
    exact Nat.mul_le_mul hpow (Nat.le_add_right _ _)
  rw [Nat.succ_mul] at hbound
  have hsteps : sizeAll (spots options disk) ≤ disk.root.size := hsize
  obtain ⟨steps, heq⟩ := Nat.exists_eq_add_of_le
    (show n ≤ Search.bound disk (options.patternFor last) by omega)
  exact ⟨_, n, dead, steps, rfl, heq, by omega, hdead, hquiet⟩

/-! ### Templates -/

/-- The templates of a build: what its search finds on a disk that stays as it is. -/
def templates (options : BuildOptions) (disk : Disk) : List Path :=
  match PathPattern.ofText options.patternText with
  | .error _ => []
  | .ok pattern => Search.paths disk (Search.bound disk pattern) (Search.start disk pattern)

section Templates

variable (hdisk : disk.root.WellFormed) (hlast : last.IsSuffix)
  (hpattern : PathPattern.ofText options.patternText = .ok (options.patternFor last))

include hdisk hlast hpattern

/-- **The templates are all there are**: those that the walk below the templates directory
finds. -/
theorem templates_eq_walkAll : templates options disk = walkAll last (spots options disk) := by
  obtain ⟨cs, n, dead, steps, hstart, hbound, hsteps, hdead, hquiet⟩ :=
    exists_quiet_start options hdisk last
  rw [templates, hpattern]
  dsimp only
  rw [hstart, hbound, Search.paths_quiet hquiet]
  obtain ⟨S, hholds, hinside, hspots⟩ :=
    exists_spots_invariant options hdisk fun here node h new (heq : disk = new) => heq ▸ h
  exact Search.paths_walk hlast (hholds disk rfl) hinside hspots hdead hsteps

/-- **The order of the templates** is that of their paths. -/
theorem pairwise_templates :
    (templates options disk).Pairwise fun p q => p.segments < q.segments := by
  rw [templates_eq_walkAll hdisk hlast hpattern]
  rcases spots_eq_nil_or_found options disk with hnone | ⟨here, node, hfound⟩
  · rw [hnone]
    exact .nil
  · exact (Candidate.pairwise_walkAll hdisk hfound.base (hfound.isBelow_spots hdisk)
      (hfound.pairwise_spots hdisk)).1

/-- **A template** is below the templates directory. -/
theorem exists_isBelow_of_mem_templates {path : Path} (hpath : path ∈ templates options disk) :
    ∃ here node inner, Found options disk here node ∧
      IsBelow disk.root options.searchBase here (path, inner) := by
  rw [templates_eq_walkAll hdisk hlast hpattern] at hpath
  rcases spots_eq_nil_or_found options disk with hnone | ⟨here, node, hfound⟩
  · rw [hnone] at hpath
    cases hpath
  · obtain ⟨inner, hinner⟩ := Candidate.isBelow_of_mem_walkAll hdisk (hfound.isBelow_spots hdisk)
      hpath
    exact ⟨here, node, inner, hfound, hinner⟩

/-- The templates are the same on a grown disk with nothing new below the templates directory. -/
theorem templates_eq_of_grown {files directories : Set (List Text)} {new : Disk}
    (hgrown : Disk.Grown files directories disk new) (hnew : new.root.WellFormed)
    {here : List Text} {node : Node} (hfound : Found options disk here node)
    (hapart : ∀ m ∈ files ∪ directories, ¬ here <+: m) :
    templates options new = templates options disk := by
  rw [templates_eq_walkAll hdisk hlast hpattern, templates_eq_walkAll hnew hlast hpattern,
    hfound.spots_eq, (hfound.grown hgrown hapart).spots_eq]

end Templates

end Build

end IndentHtml
