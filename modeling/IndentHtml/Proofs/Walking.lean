import IndentHtml.Proofs.Joining
import IndentHtml.Proofs.Searching

/-!
# Walks

The search below its base looks at the names of one directory after the other.  It does what a
`walk` through the tree does: a spot is looked at, and then what is inside (`Candidate.next?_deep`).
A spot is a path and the node it is to lead to, and the search goes on like the walk as long as the
spots hold on the disk (`Candidate.Holds`).

What is found below the base is the path of names from there (`Candidate.IsBelow`), and the walk
comes to it in the order of the paths (`Candidate.pairwise_walkAll`).

Beside the spots a search may have *dead* candidates, which lead nowhere on any disk, and before it
comes to its base it takes *quiet* steps, in which nothing is found.
-/

namespace IndentHtml

namespace Candidate

open IndentHtml.Path (IsName)

/-! ### The walk through a tree -/

/-- A path and a node it is to lead to. -/
abbrev Spot := Path × Node

/-- A path, if its name is one that a pattern stands for. -/
def found (last : GlobPattern) (path : Path) : Option Path :=
  if path.fileName?.any last.holds then some path else none

/-- What there is below a spot.  Nothing is found below a path that no node can have. -/
def inside (spot : Spot) : List Spot :=
  match spot.2 with
  | .file _ => []
  | .directory entries =>
      if Disk.isUnusable spot.1 then []
      else entries.map fun entry => (below spot.1 entry.1, entry.2)

theorem inside_of_isUnusable {path : Path} (h : Disk.isUnusable path = true) (node : Node) :
    inside (path, node) = [] := by
  cases node with
  | file content => rfl
  | directory entries => exact if_pos h

theorem inside_directory {path : Path} (h : Disk.isUnusable path = false)
    (entries : List (Text × Node)) :
    inside (path, .directory entries) =
      entries.map fun entry => (below path entry.1, entry.2) :=
  if_neg (Bool.eq_false_iff.mp h)

mutual

/-- The paths at and below a node whose names a pattern stands for, a directory before what is in
it. -/
def walk (last : GlobPattern) (path : Path) : Node → List Path
  | .file _ => (found last path).toList
  | .directory entries =>
      (found last path).toList ++
        if Disk.isUnusable path then [] else walkEntries last path entries

/-- The paths of a list of entries. -/
def walkEntries (last : GlobPattern) (path : Path) : List (Text × Node) → List Path
  | [] => []
  | (name, child) :: entries => walk last (below path name) child ++ walkEntries last path entries

end

/-- The walk through one spot after the other. -/
def walkAll (last : GlobPattern) (spots : List Spot) : List Path :=
  spots.flatMap fun spot => walk last spot.1 spot.2

/-- The number of nodes at and below spots. -/
def sizeAll : List Spot → Nat
  | [] => 0
  | spot :: spots => spot.2.size + sizeAll spots

variable {last : GlobPattern}

/-- Spots are walked one after the other. -/
theorem walkAll_append (spots more : List Spot) :
    walkAll last (spots ++ more) = walkAll last spots ++ walkAll last more :=
  List.flatMap_append

theorem sizeAll_append (spots more : List Spot) :
    sizeAll (spots ++ more) = sizeAll spots + sizeAll more := by
  induction spots with
  | nil => exact (Nat.zero_add _).symm
  | cons spot spots ih => rw [List.cons_append, sizeAll, sizeAll, ih, Nat.add_assoc]

/-- The entries of a directory are walked as the spots below its path. -/
theorem walkEntries_eq (path : Path) (entries : List (Text × Node)) :
    walkEntries last path entries =
      walkAll last (entries.map fun entry => (below path entry.1, entry.2)) := by
  induction entries with
  | nil => rw [walkEntries]; rfl
  | cons entry entries ih => rw [walkEntries, ih]; rfl

theorem sizeEntries_eq (path : Path) (entries : List (Text × Node)) :
    Node.sizeEntries entries =
      sizeAll (entries.map fun entry => (below path entry.1, entry.2)) := by
  induction entries with
  | nil => rw [Node.sizeEntries]; rfl
  | cons entry entries ih => rw [Node.sizeEntries, ih]; rfl

/-- **One step of a walk**: the spot itself, then what is inside, then the others. -/
theorem walkAll_cons (spot : Spot) (spots : List Spot) :
    walkAll last (spot :: spots) =
      (found last spot.1).toList ++ walkAll last (inside spot ++ spots) := by
  have hspot : walk last spot.1 spot.2 =
      (found last spot.1).toList ++ walkAll last (inside spot) := by
    obtain ⟨path, node⟩ := spot
    cases node with
    | file content => rw [walk, inside]; simp [walkAll]
    | directory entries =>
        rw [walk, inside]
        split
        · rfl
        · rw [walkEntries_eq]
  rw [walkAll_append, ← List.append_assoc, ← hspot]
  rfl

/-- What is inside a spot is smaller than the spot, which the walk ends by. -/
theorem sizeAll_cons (spot : Spot) (spots : List Spot) :
    sizeAll (inside spot ++ spots) + 1 ≤ sizeAll (spot :: spots) := by
  have hspot : sizeAll (inside spot) + 1 ≤ spot.2.size := by
    obtain ⟨path, node⟩ := spot
    cases node with
    | file content => exact Nat.le_refl 1
    | directory entries =>
        rw [inside, Node.size, sizeEntries_eq path]
        dsimp only
        split
        · exact Nat.succ_le_succ (Nat.zero_le _)
        · exact Nat.le_refl _
  have hcons : sizeAll (spot :: spots) = spot.2.size + sizeAll spots := rfl
  rw [sizeAll_append, hcons]
  omega

/-- What holds of no spots, and of a spot and others when it holds after one step, holds of all
lists of spots. -/
theorem spots_induction {motive : List Spot → Prop} (nil : motive [])
    (cons : ∀ spot spots, motive (inside spot ++ spots) → motive (spot :: spots))
    (spots : List Spot) : motive spots := by
  induction hsize : sizeAll spots using Nat.strong_induction_on generalizing spots with
  | _ size ih =>
      cases spots with
      | nil => exact nil
      | cons spot spots =>
          have hless := sizeAll_cons spot spots
          exact cons _ _ (ih _ (by omega) _ rfl)

/-! ### Candidates for any depth -/

/-- A candidate for the paths at any depth. -/
def deep (last : GlobPattern) (path : Path) : Candidate :=
  ⟨path, [[.anyDirectories], last]⟩

/-- A candidate for any depth leads to all names in its directory. -/
theorem look_deep (hlast : last.IsSuffix) (disk : Disk) (path : Path) :
    (deep last path).look disk false =
      (found last path, (disk.names path).map fun name => deep last (below path name)) := by
  have hmatch : matchName disk false path [last] = (found last path, []) := by
    rw [found]
    cases hname : path.fileName? with
    | none => exact matchName_of_not_holds fun name h =>
        absurd (h.symm.trans hname) (Option.some_ne_none name)
    | some name =>
        cases hholds : last.holds name with
        | true =>
            rw [matchName_singleton hname hholds]
            simp [hholds]
        | false =>
            rw [matchName_of_not_holds fun other h => by
              obtain rfl := Option.some.inj (hname.symm.trans h)
              exact hholds]
            simp [hholds]
  have hsplit : splitRecursive [.anyDirectories] [last] = ([.anyDirectories], [last]) := by
    rw [splitRecursive, hlast.plain]
    rfl
  have hbelow : ofPath disk path [[.anyDirectories], last] =
      (disk.names path).map fun name => deep last (below path name) :=
    ofPath_of_wild rfl fun h => absurd h (by decide)
  have hrecursive : GlobPattern.isRecursive [.anyDirectories] = true := rfl
  rw [look, deep]
  dsimp only
  rw [hrecursive, hsplit, hmatch, hbelow]
  cases hdir : disk.isDirectory path with
  | true => simp
  | false => simp [Disk.names_of_not_isDirectory hdir]

/-! ### Spots of a disk -/

/-- Holds of a spot whose path leads to its node, or can lead to none. -/
def Holds (disk : Disk) (spot : Spot) : Prop :=
  Disk.isUnusable spot.1 = true ∨ disk.node? spot.1 = some spot.2

theorem node?_of_isUnusable {disk : Disk} {p : Path} (h : Disk.isUnusable p = true) :
    disk.node? p = none := by
  rw [Disk.node?, Disk.locate?, h, Bool.or_true, if_pos rfl]
  rfl

/-- What is looked at below a path is what is inside its node. -/
theorem map_names {disk : Disk} {spot : Spot} (h : Holds disk spot) :
    (disk.names spot.1).map (fun name => deep last (below spot.1 name)) =
      (inside spot).map fun spot => deep last spot.1 := by
  obtain ⟨path, node⟩ := spot
  cases husable : Disk.isUnusable path with
  | true =>
      have hnames : disk.names path = [] := by
        rw [Disk.names, node?_of_isUnusable husable]
      rw [hnames, inside_of_isUnusable husable]
      rfl
  | false =>
      have hnode : disk.node? path = some node := by
        rcases h with h | h
        · cases husable.symm.trans h
        · exact h
      rw [Disk.names, hnode]
      cases node with
      | file content => rfl
      | directory entries =>
          rw [inside_directory husable]
          simp [Table.keys]

/-- **One step of a search** goes on from a spot to what is inside. -/
theorem next?_deep (hlast : last.IsSuffix) {disk : Disk} {spot : Spot} (h : Holds disk spot)
    (spots : List Spot) (others : List Candidate) :
    Search.next? disk ⟨false, (spot :: spots).map (fun spot => deep last spot.1) ++ others⟩ =
      some (found last spot.1,
        ⟨false, (inside spot ++ spots).map (fun spot => deep last spot.1) ++ others⟩) := by
  rw [List.map_cons, List.cons_append, Search.next?]
  dsimp only
  rw [look_deep hlast, map_names h, List.map_append, List.append_assoc]

/-- Holds of a spot below a base: names lead to it from the base and from the location of the
base. -/
structure IsUnder (root : Node) (b : Path) (here ns : List Text) (spot : Spot) : Prop where
  names : ∀ n ∈ ns, IsName n
  path_eq : spot.1 = under b ns
  node_eq : root.at? (here ++ ns) = some spot.2

section Under

variable {root : Node} {b : Path} {here ns : List Text} {spot : Spot}

theorem IsUnder.inside (hroot : root.WellFormed) (h : IsUnder root b here ns spot) :
    ∀ next ∈ inside spot, ∃ n, IsUnder root b here (ns ++ [n]) next := by
  obtain ⟨path, node⟩ := spot
  obtain ⟨hns, rfl, hnode⟩ := h
  intro next hnext
  cases node with
  | file content => cases hnext
  | directory entries =>
      cases husable : Disk.isUnusable (under b ns) with
      | true =>
          rw [inside_of_isUnusable husable] at hnext
          cases hnext
      | false =>
          rw [inside_directory husable] at hnext
          obtain ⟨⟨name, child⟩, hentry, rfl⟩ := List.mem_map.mp hnext
          obtain ⟨hsorted, hnames⟩ := hroot _ _ hnode
          have hname : IsName name := hnames name (List.mem_map_of_mem hentry)
          refine ⟨name, List.forall_mem_append.mpr
            ⟨hns, List.forall_mem_singleton.mpr hname⟩, (under_concat b ns name).symm, ?_⟩
          rw [← List.append_assoc, Node.at?_append, hnode, Option.bind_some, Node.at?_cons,
            hsorted.find?_eq_some hentry]
          rfl

/-- Holds of a spot that is below a base and not the base itself. -/
def IsBelow (root : Node) (b : Path) (here : List Text) (spot : Spot) : Prop :=
  ∃ ns, ns ≠ [] ∧ IsUnder root b here ns spot

theorem IsUnder.isBelow (hroot : root.WellFormed) (h : IsUnder root b here ns spot) :
    ∀ next ∈ Candidate.inside spot, IsBelow root b here next := by
  intro next hnext
  obtain ⟨n, hn⟩ := h.inside hroot next hnext
  exact ⟨ns ++ [n], by simp, hn⟩

theorem IsBelow.inside (hroot : root.WellFormed) (h : IsBelow root b here spot) :
    ∀ next ∈ Candidate.inside spot, IsBelow root b here next := by
  obtain ⟨ns, -, hunder⟩ := h
  exact hunder.isBelow hroot

/-- What holds of spots and of what is inside still holds after one step. -/
theorem forall_mem_step {P : Spot → Prop} {spots : List Spot}
    (hinside : ∀ spot, P spot → ∀ next ∈ Candidate.inside spot, P next)
    (h : ∀ other ∈ spot :: spots, P other) :
    P spot ∧ ∀ other ∈ Candidate.inside spot ++ spots, P other := by
  obtain ⟨hspot, hspots⟩ := List.forall_mem_cons.mp h
  exact ⟨hspot, List.forall_mem_append.mpr ⟨hinside spot hspot, hspots⟩⟩

/-- **A found path** is below the base, and its name is one that is searched for. -/
theorem isBelow_of_mem_walkAll (hroot : root.WellFormed) {spots : List Spot}
    (h : ∀ spot ∈ spots, IsBelow root b here spot) {path : Path}
    (hpath : path ∈ walkAll last spots) : ∃ node, IsBelow root b here (path, node) := by
  induction spots using spots_induction with
  | nil => cases hpath
  | cons spot spots ih =>
      obtain ⟨hspot, hnext⟩ := forall_mem_step (fun _ => IsBelow.inside hroot) h
      rw [walkAll_cons] at hpath
      rcases List.mem_append.mp hpath with hpath | hpath
      · rw [Option.mem_toList, found] at hpath
        split at hpath
        · obtain rfl := Option.some.inj hpath
          exact ⟨spot.2, hspot⟩
        · cases hpath
      · exact ih hnext hpath

end Under

/-- Names are followed one after the other to what is there. -/
theorem followAll?_names {disk : Disk} {here ns : List Text} (hns : ∀ n ∈ ns, IsName n)
    (hthere : disk.kind? (here ++ ns) ≠ none) : disk.followAll? here ns = some (here ++ ns) := by
  induction ns generalizing here with
  | nil => rw [List.append_nil]; rfl
  | cons n ns ih =>
      obtain ⟨hn, hmore⟩ := List.forall_mem_cons.mp hns
      have hstep : Disk.placeFrom here (Path.innerComponent? n).toList = here ++ [n] := by
        rw [hn.2]
        rfl
      have hsplit : here ++ n :: ns = here ++ [n] ++ ns := by simp
      rw [hsplit] at hthere ⊢
      refine Disk.followAll?_cons_eq_some.mpr ⟨?_, ?_, ?_⟩
      · rw [List.append_assoc] at hthere
        exact Disk.kind?_of_append hthere (List.cons_ne_nil _ _)
      · rw [hstep]
        cases ns with
        | nil => rwa [List.append_nil] at hthere
        | cons next ns =>
            rw [Disk.kind?_of_append hthere (List.cons_ne_nil _ _)]
            nofun
      · rw [hstep]
        exact ih hmore hthere

/-- The segments before the names lead to the location of the base. -/
theorem Spells.followAll? {disk : Disk} {b : Path} {pre here : List Text} (h : Spells b pre)
    (hhere : disk.locate? b = some here) : disk.followAll? (disk.start b) pre = some here := by
  rcases h.segments with ⟨rfl, rfl⟩ | ⟨-, -, hsegments⟩
  · rw [(Disk.eq_place_of_locate? hhere).1]
    rfl
  · rw [Disk.locate?] at hhere
    split at hhere
    · cases hhere
    · rcases hsegments with hsegments | hsegments
      · rwa [hsegments] at hhere
      · rw [hsegments, Disk.followAll?_append] at hhere
        obtain ⟨next, hnext, hlast⟩ := Option.bind_eq_some_iff.mp hhere
        -- the empty segment at the end leads nowhere else
        obtain ⟨-, -, hstay⟩ := Disk.followAll?_cons_eq_some.mp hlast
        rw [hnext]
        exact hstay

/-- **The path of names below a base** leads to where the names lead from the location of the
base. -/
theorem locate?_under {disk : Disk} {b : Path} {here ns : List Text} (hb : IsBase b)
    (hhere : disk.locate? b = some here) (hns : ∀ n ∈ ns, IsName n)
    (hthere : disk.kind? (here ++ ns) ≠ none) (husable : Disk.isUnusable (under b ns) = false) :
    disk.locate? (under b ns) = some (here ++ ns) := by
  by_cases hne : ns = []
  · rw [hne, List.append_nil]
    exact hhere
  · obtain ⟨pre, hspells⟩ := exists_spells hb
    obtain ⟨hsegments, habs⟩ := hspells.under ns hne hns
    have htext : (under b ns).text.isEmpty = false := by
      rw [Bool.eq_false_iff, ne_eq, List.isEmpty_iff]
      intro hnil
      have hinner := inner_under hb hns hne
      rw [Path.inner, Path.segments, hnil] at hinner
      have hlength := congrArg List.length hinner
      rw [List.length_append, List.length_map] at hlength
      exact hne (List.length_eq_zero_iff.mp (Nat.eq_zero_of_add_eq_zero_left hlength.symm))
    have hstart : disk.start (under b ns) = disk.start b := by
      rw [Disk.start, Disk.start, habs]
    rw [Disk.locate?, htext, husable, hsegments, hstart, Disk.followAll?_append,
      hspells.followAll? hhere]
    exact followAll?_names hns hthere

/-- A spot under a base has the node that its path leads to, if the path can lead anywhere. -/
theorem IsUnder.holds {disk : Disk} {b : Path} {here ns : List Text} {spot : Spot}
    (h : IsUnder disk.root b here ns spot) (hb : IsBase b) (hhere : disk.locate? b = some here) :
    Holds disk spot := by
  obtain ⟨path, node⟩ := spot
  obtain ⟨hns, rfl, hnode⟩ := h
  cases husable : Disk.isUnusable (under b ns) with
  | true => exact .inl husable
  | false =>
      have hthere : disk.kind? (here ++ ns) ≠ none := by
        rw [Disk.kind?, hnode]
        exact Option.some_ne_none _
      refine .inr ?_
      rw [Disk.node?, locate?_under hb hhere hns hthere husable]
      exact hnode

/-! ### The order of a walk -/

/-- Holds of lists of names of which neither goes on from the other, and whose first different
names are in order. -/
def Precedes (s t : List Text) : Prop :=
  ∃ common x y u v, s = common ++ x :: u ∧ t = common ++ y :: v ∧ x < y

/-- What precedes is smaller, in the order of locations. -/
theorem Precedes.lt {s t : List Text} (h : Precedes s t) : s < t := by
  obtain ⟨common, x, y, u, v, rfl, rfl, hlt⟩ := h
  exact List.append_left_lt (List.cons_lt_cons_iff.mpr (.inl hlt))

theorem Precedes.extend {s t s' t' : List Text} (h : Precedes s t) (hs : s <+: s')
    (ht : t <+: t') : Precedes s' t' := by
  obtain ⟨common, x, y, u, v, rfl, rfl, hlt⟩ := h
  obtain ⟨more, rfl⟩ := hs
  obtain ⟨more', rfl⟩ := ht
  exact ⟨common, x, y, u ++ more, v ++ more', by simp, by simp, hlt⟩

theorem lt_of_concat_prefix {s t : List Text} {n : Text} (h : s ++ [n] <+: t) : s < t := by
  obtain ⟨more, rfl⟩ := h
  rw [List.append_assoc]
  have hlt : s ++ [] < s ++ n :: more := List.append_left_lt (List.nil_lt_cons n more)
  rwa [List.append_nil] at hlt

/-- What is inside a spot has a name more than the spot, and comes in the order of these names. -/
theorem IsUnder.segments_inside {root : Node} (hroot : root.WellFormed) {b : Path}
    {here ns : List Text} {spot : Spot} (h : IsUnder root b here ns spot) (hb : IsBase b) :
    (ns ≠ [] → ∀ next ∈ Candidate.inside spot, ∃ n, next.1.segments = spot.1.segments ++ [n]) ∧
      (Candidate.inside spot).Pairwise fun s t => Precedes s.1.segments t.1.segments := by
  obtain ⟨pre, hspells⟩ := exists_spells hb
  have hsegments : ∀ n, IsName n → (below spot.1 n).segments = pre ++ ns ++ [n] := by
    intro n hn
    have hmore : ∀ m ∈ ns ++ [n], IsName m :=
      List.forall_mem_append.mpr ⟨h.names, List.forall_mem_singleton.mpr hn⟩
    rw [h.path_eq, ← under_concat, (hspells.under _ (by simp) hmore).1, List.append_assoc]
  have hspot : ns ≠ [] → spot.1.segments = pre ++ ns := by
    intro hne
    rw [h.path_eq, (hspells.under ns hne h.names).1]
  obtain ⟨path, node⟩ := spot
  cases node with
  | file content => exact ⟨fun _ => nofun, .nil⟩
  | directory entries =>
      obtain ⟨hsorted, hnames⟩ := hroot _ _ h.node_eq
      cases husable : Disk.isUnusable path with
      | true =>
          rw [inside_of_isUnusable husable]
          exact ⟨fun _ => nofun, .nil⟩
      | false =>
          rw [inside_directory husable]
          have hname : ∀ entry ∈ entries, IsName entry.1 := fun entry hentry =>
            hnames entry.1 (List.mem_map_of_mem hentry)
          refine ⟨fun hne next hnext => ?_, List.pairwise_map.mpr ?_⟩
          · obtain ⟨entry, hentry, rfl⟩ := List.mem_map.mp hnext
            exact ⟨entry.1, by rw [hspot hne]; exact hsegments entry.1 (hname entry hentry)⟩
          · refine (List.pairwise_map.mp hsorted).imp_of_mem fun hs ht hlt => ?_
            exact ⟨pre ++ ns, _, _, [], [], hsegments _ (hname _ hs), hsegments _ (hname _ ht), hlt⟩

/-- **A walk goes in the order of the paths**: segment by segment, and a directory before what is
in it. -/
theorem pairwise_walkAll {root : Node} (hroot : root.WellFormed) {b : Path} {here : List Text}
    (hb : IsBase b) {spots : List Spot} (h : ∀ spot ∈ spots, IsBelow root b here spot)
    (horder : spots.Pairwise fun s t => Precedes s.1.segments t.1.segments) :
    (walkAll last spots).Pairwise (fun p q => p.segments < q.segments) ∧
      ∀ path ∈ walkAll last spots, ∃ spot ∈ spots, spot.1.segments <+: path.segments := by
  induction spots using spots_induction with
  | nil => exact ⟨.nil, nofun⟩
  | cons spot spots ih =>
      obtain ⟨⟨ns, hne, hunder⟩, hnext⟩ := forall_mem_step (fun _ => IsBelow.inside hroot) h
      obtain ⟨hspot, hspots⟩ := List.pairwise_cons.mp horder
      obtain ⟨hinside, hinsideOrder⟩ := hunder.segments_inside hroot hb
      replace hinside := hinside hne
      have hstarts : ∀ next ∈ inside spot, spot.1.segments <+: next.1.segments := by
        intro next hmem
        obtain ⟨n, hn⟩ := hinside next hmem
        exact hn ▸ List.prefix_append _ _
      obtain ⟨hpairwise, hmem⟩ := ih hnext (List.pairwise_append.mpr ⟨hinsideOrder, hspots,
        fun s hs t ht => (hspot t ht).extend (hstarts s hs) (List.prefix_refl _)⟩)
      have hfound : ∀ path ∈ (found last spot.1).toList, path = spot.1 := by
        intro path hpath
        rw [Option.mem_toList, found] at hpath
        split at hpath
        · exact (Option.some.inj hpath).symm
        · cases hpath
      have hsingle : ∀ path : Option Path,
          path.toList.Pairwise fun p q => p.segments < q.segments := by
        rintro (_ | path)
        · exact .nil
        · exact List.pairwise_singleton _ _
      rw [walkAll_cons]
      refine ⟨List.pairwise_append.mpr ⟨hsingle _, hpairwise, fun p hp q hq => ?_⟩,
        fun path hpath => ?_⟩
      · -- what comes later is inside the spot or at a later one
        rw [hfound p hp]
        obtain ⟨s, hs, hsq⟩ := hmem q hq
        rcases List.mem_append.mp hs with hs | hs
        · obtain ⟨n, hn⟩ := hinside s hs
          exact lt_of_concat_prefix (hn ▸ hsq)
        · exact ((hspot s hs).extend (List.prefix_refl _) hsq).lt
      · rcases List.mem_append.mp hpath with hpath | hpath
        · exact ⟨spot, List.mem_cons_self, hfound path hpath ▸ List.prefix_refl _⟩
        · obtain ⟨s, hs, hsq⟩ := hmem path hpath
          rcases List.mem_append.mp hs with hs | hs
          · exact ⟨spot, List.mem_cons_self, (hstarts s hs).trans hsq⟩
          · exact ⟨s, List.mem_cons_of_mem _ hs, hsq⟩

/-! ### Quiet steps -/

/-- A number of steps of a search on one disk in which nothing is found. -/
inductive Quiet (disk : Disk) : Nat → List Candidate → List Candidate → Prop where
  | refl (cs : List Candidate) : Quiet disk 0 cs cs
  | step {n : Nat} {c : Candidate} {more cs ds : List Candidate} :
      c.look disk false = (none, more) → Quiet disk n (more ++ cs) ds →
        Quiet disk (n + 1) (c :: cs) ds

namespace Quiet

variable {disk : Disk} {m n : Nat} {cs ds es : List Candidate}

/-- A search that goes on quietly twice goes on quietly. -/
theorem trans (h : Quiet disk m cs ds) (h' : Quiet disk n ds es) : Quiet disk (m + n) cs es := by
  induction h with
  | refl cs => rwa [Nat.zero_add]
  | step hlook _ ih =>
      rw [Nat.add_right_comm]
      exact .step hlook (ih h')

theorem append (h : Quiet disk n cs ds) (es : List Candidate) :
    Quiet disk n (cs ++ es) (ds ++ es) := by
  induction h with
  | refl cs => exact .refl _
  | step hlook _ ih =>
      rw [List.append_assoc] at ih
      exact .step hlook ih

end Quiet

/-- Holds of a candidate that leads nowhere on any disk. -/
def Dead (c : Candidate) : Prop :=
  ∀ disk directoriesOnly, c.look disk directoriesOnly = (none, [])

/-- Dead candidates are passed over quietly, one step for each. -/
theorem quiet_of_dead {disk : Disk} {dead : List Candidate} (h : ∀ c ∈ dead, Dead c)
    (cs : List Candidate) : Quiet disk dead.length (dead ++ cs) cs := by
  induction dead with
  | nil => exact .refl cs
  | cons c dead ih =>
      obtain ⟨hc, hdead⟩ := List.forall_mem_cons.mp h
      exact .step (hc disk false) (ih hdead)

/-- A candidate whose name is not the one searched for is dead. -/
theorem dead_of_ne {p : Path} {n t : Text} (hn : IsName n) (hne : n ≠ t)
    (patterns : List GlobPattern) : Dead ⟨below p n, GlobPattern.exactly t :: patterns⟩ := by
  intro disk directoriesOnly
  rw [look]
  dsimp only
  rw [GlobPattern.isRecursive_exactly, if_neg Bool.false_ne_true]
  refine matchName_of_not_holds fun name hname => ?_
  obtain rfl := Option.some.inj ((fileName?_below hn).symm.trans hname)
  exact Bool.eq_false_iff.mpr fun h => hne (GlobPattern.holds_exactly.mp h)

theorem dead_map (p : Path) {t : Text} {names : List Text} (patterns : List GlobPattern)
    (h : ∀ n ∈ names, IsName n ∧ n ≠ t) :
    ∀ c ∈ names.map fun name => (⟨below p name, GlobPattern.exactly t :: patterns⟩ : Candidate),
      Dead c := by
  intro c hc
  obtain ⟨n, hn, rfl⟩ := List.mem_map.mp hc
  exact dead_of_ne (h n hn).1 (h n hn).2 _

end Candidate

end IndentHtml
