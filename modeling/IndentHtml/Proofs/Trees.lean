import IndentHtml.Proofs.Places
import Mathlib.Data.Char
import Mathlib.Data.List.Lex

/-!
# Trees

A tree is `Node.WellFormed` when the entries of every directory stand in the order of their names
and every name is a single segment of a path that counts.  Then a directory has one entry for each
of its names, and a tree is told by what is at its locations: putting there what is there already
changes nothing (`Node.put_eq_self`).

Putting a file or an empty directory at a location whose directory exists changes the disk at this
location and nowhere else (`Disk.kind?_putAt`, `Disk.at?_putAt_of_not_prefix`): it makes the disk
grow (`Disk.grown_putAt_file`, `Disk.grown_putAt_directory`) and keeps it well-formed
(`Disk.wellFormed_putAt`).
-/

namespace IndentHtml

/-! ### Tables in order -/

/-- The order of texts is that of lists of characters. -/
theorem Text.lt_iff {t u : Text} : Text.lt t u = true ↔ t < u := by
  induction t generalizing u with
  | nil => cases u <;> simp [Text.lt]
  | cons c t ih =>
      cases u with
      | nil => simp [Text.lt]
      | cons d u => simp [Text.lt, ih, List.cons_lt_cons_iff]

namespace Table

variable {α : Type}

/-- The entries stand in the order of their keys, which are pairwise different. -/
def Sorted (table : Table α) : Prop :=
  (keys table).Pairwise (· < ·)

instance (table : Table α) : Decidable table.Sorted :=
  inferInstanceAs (Decidable (List.Pairwise _ _))

theorem mem_of_find? {table : Table α} {key : Text} {a : α} (h : table.find? key = some a) :
    (key, a) ∈ table := by
  induction table with
  | nil => cases h
  | cons e table ih =>
      rw [find?] at h
      split at h
      · next hkey =>
          obtain rfl := Option.some.inj h
          exact hkey ▸ List.mem_cons_self
      · exact List.mem_cons_of_mem _ (ih h)

theorem mem_keys_of_find? {table : Table α} {key : Text} {a : α}
    (h : table.find? key = some a) : key ∈ keys table :=
  List.mem_map_of_mem (mem_of_find? h)

/-- A table contains the keys that are found in it. -/
theorem contains_iff_mem_keys {table : Table α} {key : Text} :
    table.contains key = true ↔ key ∈ keys table := by
  rw [contains]
  constructor
  · intro h
    obtain ⟨a, ha⟩ := Option.isSome_iff_exists.mp h
    exact mem_keys_of_find? ha
  · intro h
    induction table with
    | nil => cases h
    | cons e table ih =>
        rw [find?]
        split
        · rfl
        · next hne => exact ih ((List.mem_cons.mp h).resolve_left fun heq => hne heq.symm)

/-- Putting an entry adds no key but its own. -/
theorem mem_keys_insert {table : Table α} {key other : Text} {a : α}
    (h : other ∈ keys (table.insert key a)) : other = key ∨ other ∈ keys table := by
  induction table with
  | nil => exact .inl (List.mem_singleton.mp h)
  | cons e table ih =>
      rw [insert] at h
      split at h
      · next hkey => exact (List.mem_cons.mp h).imp_right (List.mem_cons_of_mem _)
      · split at h
        · exact List.mem_cons.mp h
        · rcases List.mem_cons.mp h with h | h
          · exact .inr (h ▸ List.mem_cons_self)
          · exact (ih h).imp_right (List.mem_cons_of_mem _)

/-- Putting an entry keeps the order of the keys. -/
theorem Sorted.insert {table : Table α} (h : table.Sorted) (key : Text) (a : α) :
    (table.insert key a).Sorted := by
  induction table with
  | nil => exact List.pairwise_singleton _ _
  | cons e table ih =>
      obtain ⟨k, b⟩ := e
      obtain ⟨hfirst, hrest⟩ := List.pairwise_cons.mp h
      rw [Table.insert]
      split
      · next hkey => exact hkey ▸ h
      · next hne =>
          split
          · next hlt =>
              have hkey : key < k := Text.lt_iff.mp hlt
              refine List.pairwise_cons.mpr ⟨?_, h⟩
              exact List.forall_mem_cons.mpr ⟨hkey, fun l hl => hkey.trans (hfirst l hl)⟩
          · next hnot =>
              have hkey : k < key :=
                (lt_or_gt_of_ne hne).resolve_right fun hgt => hnot (Text.lt_iff.mpr hgt)
              refine List.pairwise_cons.mpr ⟨fun l hl => ?_, ih hrest⟩
              rcases mem_keys_insert hl with rfl | hl
              · exact hkey
              · exact hfirst l hl

/-- In order, no key stands twice, so every entry is the one that is found. -/
theorem Sorted.find?_eq_some {table : Table α} (h : table.Sorted) {key : Text} {a : α}
    (hmem : (key, a) ∈ table) : table.find? key = some a := by
  induction table with
  | nil => cases hmem
  | cons e table ih =>
      obtain ⟨hfirst, hrest⟩ := List.pairwise_cons.mp h
      rcases List.mem_cons.mp hmem with rfl | hmem
      · rw [find?, if_pos rfl]
      · have hlt : e.1 < key := hfirst key (List.mem_map_of_mem hmem)
        rw [find?, if_neg hlt.ne, ih hrest hmem]

/-- An entry that is there already is not put anywhere else. -/
theorem Sorted.insert_eq_self {table : Table α} (h : table.Sorted) {key : Text} {a : α}
    (hfind : table.find? key = some a) : table.insert key a = table := by
  induction table with
  | nil => cases hfind
  | cons e table ih =>
      obtain ⟨k, b⟩ := e
      obtain ⟨hfirst, hrest⟩ := List.pairwise_cons.mp h
      rw [find?] at hfind
      rw [Table.insert]
      split at hfind
      · next hkey => rw [if_pos hkey, hkey, Option.some.inj hfind]
      · next hne =>
          have hlt : k < key := hfirst key (mem_keys_of_find? hfind)
          rw [if_neg hne, if_neg fun hgt => hlt.asymm (Text.lt_iff.mp hgt), ih hrest hfind]

end Table

/-! ### Putting a node at a location -/

namespace Node

theorem at?_cons (entries : List (Text × Node)) (name : Text) (l : List Text) :
    (directory entries).at? (name :: l) =
      (Table.find? entries name).bind fun child => child.at? l :=
  rfl

/-- Above the location, the tree that is there is put into. -/
theorem at?_put_append {node inner : Node} {l : List Text} (h : node.at? l = some inner)
    (m : List Text) (new : Node) : (node.put (l ++ m) new).at? l = some (inner.put m new) := by
  induction l generalizing node with
  | nil => rw [Option.some.inj h]; rfl
  | cons name l ih =>
      obtain ⟨child, hchild, hinner⟩ := Option.bind_eq_some_iff.mp h
      cases node with
      | file content => cases hchild
      | directory entries =>
          have hfind : Table.find? entries name = some child := hchild
          rw [List.cons_append, put, hfind, at?_cons, Table.find?_insert_self]
          exact ih hinner

/-- Apart from the location nothing changes. -/
theorem at?_put_of_apart {node : Node} {l m : List Text} (new : Node) (h : ¬ l <+: m)
    (h' : ¬ m <+: l) : (node.put l new).at? m = node.at? m := by
  induction l generalizing node m with
  | nil => exact absurd List.nil_prefix h
  | cons name l ih =>
      cases m with
      | nil => exact absurd List.nil_prefix h'
      | cons other m =>
          cases node with
          | file content => rfl
          | directory entries =>
              rw [put, at?_cons, at?_cons]
              by_cases hname : name = other
              · subst hname
                rw [List.prefix_cons_inj] at h h'
                rw [Table.find?_insert_self, Option.bind_some, ih h h']
                cases hfind : Table.find? entries name with
                | some child => rfl
                | none =>
                    cases m with
                    | nil => exact absurd List.nil_prefix h'
                    | cons next m => rfl
              · rw [Table.find?_insert_of_ne _ _ hname]

/-- A node without entries. -/
def IsLeaf (node : Node) : Prop :=
  ∀ name, node.child? name = none

theorem isLeaf_file (content : Content) : (file content).IsLeaf := fun _ => rfl

theorem isLeaf_emptyDirectory : emptyDirectory.IsLeaf := fun _ => rfl

/-- There is nothing below a leaf. -/
theorem IsLeaf.at? {node : Node} (h : node.IsLeaf) {l : List Text} (hne : l ≠ []) :
    node.at? l = none := by
  cases l with
  | nil => exact absurd rfl hne
  | cons name l => rw [Node.at?, h name, Option.bind_none]

end Node

namespace Disk

variable {disk : Disk} {here : List Text} {name : Text} {new : Node}

/-- A disk with another node at a location. -/
def putAt (disk : Disk) (location : List Text) (new : Node) : Disk :=
  { disk with root := disk.root.put location new }

section Put

variable (hdir : disk.kind? here = some .directory)
  (hnot : disk.kind? (here ++ [name]) ≠ some .directory) (hleaf : new.IsLeaf)

include hdir

/-- What was put at a location is there, if there is a directory for it. -/
theorem at?_putAt_self (new : Node) :
    (disk.putAt (here ++ [name]) new).root.at? (here ++ [name]) = some new := by
  obtain ⟨entries, hentries⟩ := kind?_eq_directory.mp hdir
  rw [putAt, Node.at?_append, Node.at?_put_append hentries, Option.bind_some, Node.put,
    Node.at?_cons, Table.find?_insert_self]
  rfl

include hnot hleaf

/-- A tree that the location is not in stays as it is. -/
theorem at?_putAt_of_not_prefix {l : List Text} (h : ¬ l <+: here ++ [name]) :
    (disk.putAt (here ++ [name]) new).root.at? l = disk.root.at? l := by
  by_cases hbelow : here ++ [name] <+: l
  · -- there was nothing below the location, and there is nothing now
    obtain ⟨more, rfl⟩ := hbelow
    have hmore : more ≠ [] := by
      rintro rfl
      exact h ((List.append_nil _).symm ▸ List.prefix_refl _)
    have hold : disk.root.at? (here ++ [name] ++ more) = none := by
      rw [← kind?_eq_none]
      by_contra hthere
      exact hnot (kind?_of_append hthere hmore)
    rw [hold, Node.at?_append, at?_putAt_self hdir, Option.bind_some, hleaf.at? hmore]
  · exact Node.at?_put_of_apart new hbelow h

/-- **Putting a leaf** at a location changes the kind of nothing else. -/
theorem kind?_putAt (l : List Text) :
    (disk.putAt (here ++ [name]) new).kind? l =
      if l = here ++ [name] then some new.kind else disk.kind? l := by
  split
  · next heq => rw [heq, kind?, at?_putAt_self hdir, Option.map_some]
  · next hne =>
      by_cases habove : l <+: here ++ [name]
      · -- a directory above the location is still one
        obtain ⟨more, hmore⟩ := habove
        rcases List.eq_nil_or_concat more with rfl | ⟨init, last, rfl⟩
        · exact absurd (by rw [← hmore, List.append_nil]) hne
        · rw [List.concat_eq_append] at hmore
          have hl : disk.kind? l = some .directory := by
            cases init with
            | nil => rw [List.append_inj_left' hmore rfl, hdir]
            | cons next init =>
                refine kind?_of_append ?_ (List.cons_ne_nil next init)
                rw [List.append_inj_left' ((List.append_assoc _ _ _).trans hmore) rfl, hdir]
                exact Option.some_ne_none _
          obtain ⟨entries, hentries⟩ := kind?_eq_directory.mp hl
          rw [hl, kind?_eq_directory, ← hmore, putAt, Node.at?_put_append hentries]
          cases hinit : init ++ [last] with
          | nil => simp at hinit
          | cons next rest => exact ⟨_, rfl⟩
      · rw [kind?, kind?, at?_putAt_of_not_prefix hdir hnot hleaf habove]

end Put

/-- A file that is written makes a disk grow. -/
theorem grown_putAt_file (hdir : disk.kind? here = some .directory)
    (hnot : disk.kind? (here ++ [name]) ≠ some .directory) (content : Content) :
    Grown {here ++ [name]} ∅ disk (disk.putAt (here ++ [name]) (.file content)) := by
  refine ⟨rfl, fun l => ?_, fun l hl => ?_⟩
  · rw [kind?_putAt hdir hnot (Node.isLeaf_file content)]
    split
    · next heq => exact .inr (.inl ⟨heq, heq ▸ hnot, content, rfl⟩)
    · exact .inl rfl
  · exact at?_putAt_of_not_prefix hdir hnot (Node.isLeaf_file content)
      (hl _ (.inl rfl))

/-- A missing directory that is made makes a disk grow. -/
theorem grown_putAt_directory (hdir : disk.kind? here = some .directory)
    (hnone : disk.kind? (here ++ [name]) = none) :
    Grown ∅ {here ++ [name]} disk (disk.putAt (here ++ [name]) Node.emptyDirectory) := by
  have hnot : disk.kind? (here ++ [name]) ≠ some .directory := by
    rw [hnone]
    nofun
  refine ⟨rfl, fun l => ?_, fun l hl => ?_⟩
  · rw [kind?_putAt hdir hnot Node.isLeaf_emptyDirectory]
    split
    · next heq => exact .inr (.inr ⟨heq, heq ▸ hnone, rfl⟩)
    · exact .inl rfl
  · exact at?_putAt_of_not_prefix hdir hnot Node.isLeaf_emptyDirectory (hl _ (.inr rfl))

end Disk

/-! ### Well-formed trees -/

/-- A text that names an entry of a directory: one segment of a path, and one that counts. -/
def Path.IsName (name : Text) : Prop :=
  '/' ∉ name ∧ innerComponent? name = some (.name name)

instance (name : Text) : Decidable (Path.IsName name) :=
  inferInstanceAs (Decidable (_ ∧ _))

namespace Node

/-- In every directory the entries stand in the order of their names. -/
def WellFormed (node : Node) : Prop :=
  ∀ l entries, node.at? l = some (directory entries) →
    Table.Sorted entries ∧ ∀ name ∈ Table.keys entries, Path.IsName name

mutual

/-- Decides whether a tree is well-formed. -/
def isWellFormed : Node → Bool
  | file _ => true
  | directory entries => decide (Table.Sorted entries) && areWellFormed entries

/-- Decides whether the trees of a list of entries are well-formed. -/
def areWellFormed : List (Text × Node) → Bool
  | [] => true
  | (name, child) :: entries =>
      decide (Path.IsName name) && isWellFormed child && areWellFormed entries

end

theorem areWellFormed_eq_true {entries : List (Text × Node)} (h : areWellFormed entries = true) :
    ∀ entry ∈ entries, Path.IsName entry.1 ∧ entry.2.isWellFormed = true := by
  induction entries with
  | nil => exact nofun
  | cons entry entries ih =>
      obtain ⟨name, child⟩ := entry
      rw [areWellFormed, Bool.and_eq_true, Bool.and_eq_true, decide_eq_true_iff] at h
      exact List.forall_mem_cons.mpr ⟨h.1, ih h.2⟩

/-- The decision is sound. -/
theorem wellFormed_of_isWellFormed {node : Node} (h : node.isWellFormed = true) :
    node.WellFormed := by
  intro l entries hentries
  induction l generalizing node with
  | nil =>
      obtain rfl := Option.some.inj hentries
      rw [isWellFormed, Bool.and_eq_true, decide_eq_true_iff] at h
      refine ⟨h.1, fun name hname => ?_⟩
      obtain ⟨entry, hentry, rfl⟩ := List.mem_map.mp hname
      exact (areWellFormed_eq_true h.2 entry hentry).1
  | cons name l ih =>
      obtain ⟨child, hchild, hinner⟩ := Option.bind_eq_some_iff.mp hentries
      cases node with
      | file content => cases hchild
      | directory others =>
          rw [isWellFormed, Bool.and_eq_true] at h
          exact ih (areWellFormed_eq_true h.2 _ (Table.mem_of_find? hchild)).2 hinner

theorem wellFormed_file (content : Content) : (file content).WellFormed := by
  intro l entries h
  cases l with
  | nil => cases h
  | cons name l => cases h

/-- A tree in a well-formed tree is well-formed. -/
theorem WellFormed.at? {node inner : Node} (h : node.WellFormed) {l : List Text}
    (hinner : node.at? l = some inner) : inner.WellFormed := by
  intro m entries hentries
  refine h (l ++ m) entries ?_
  rw [at?_append, hinner, Option.bind_some, hentries]

/-- A directory is well-formed when its entries are in order and each of them is well-formed. -/
theorem wellFormed_directory_iff {entries : List (Text × Node)} :
    (directory entries).WellFormed ↔ Table.Sorted entries ∧
      (∀ name ∈ Table.keys entries, Path.IsName name) ∧
      ∀ name child, Table.find? entries name = some child → child.WellFormed := by
  constructor
  · intro h
    obtain ⟨hsorted, hnames⟩ := h [] entries rfl
    refine ⟨hsorted, hnames, fun name child hfind => h.at? (l := [name]) ?_⟩
    rw [at?_cons, hfind]
    rfl
  · rintro ⟨hsorted, hnames, hchildren⟩ l inner hinner
    cases l with
    | nil =>
        obtain rfl := directory.inj (Option.some.inj hinner)
        exact ⟨hsorted, hnames⟩
    | cons name l =>
        obtain ⟨child, hfind, hchild⟩ := Option.bind_eq_some_iff.mp hinner
        exact hchildren name child hfind l inner hchild

theorem wellFormed_emptyDirectory : emptyDirectory.WellFormed :=
  wellFormed_directory_iff.mpr ⟨.nil, nofun, nofun⟩

/-- A well-formed tree stays so when a well-formed one is put at a location of names. -/
theorem WellFormed.put {node new : Node} (h : node.WellFormed) (hnew : new.WellFormed)
    {l : List Text} (hl : ∀ name ∈ l, Path.IsName name) : (node.put l new).WellFormed := by
  induction l generalizing node with
  | nil => exact hnew
  | cons name l ih =>
      obtain ⟨hname, hmore⟩ := List.forall_mem_cons.mp hl
      cases node with
      | file content => exact wellFormed_file content
      | directory entries =>
          obtain ⟨hsorted, hnames, hchildren⟩ := wellFormed_directory_iff.mp h
          refine wellFormed_directory_iff.mpr ⟨hsorted.insert _ _, fun other hother => ?_,
            fun other child hfind => ?_⟩
          · rcases Table.mem_keys_insert hother with rfl | hother
            · exact hname
            · exact hnames other hother
          · rw [Table.find?_insert] at hfind
            split at hfind
            · obtain rfl := Option.some.inj hfind
              refine ih ?_ hmore
              cases hold : Table.find? entries name with
              | none => exact wellFormed_emptyDirectory
              | some child => exact hchildren name child hold
            · exact hchildren other child hfind

/-- Putting a node where it is already changes nothing. -/
theorem put_eq_self {node new : Node} (h : node.WellFormed) {l : List Text}
    (hl : node.at? l = some new) : node.put l new = node := by
  induction l generalizing node with
  | nil => exact (Option.some.inj hl).symm
  | cons name l ih =>
      cases node with
      | file content => rfl
      | directory entries =>
          obtain ⟨hsorted, -, hchildren⟩ := wellFormed_directory_iff.mp h
          obtain ⟨child, hfind, hchild⟩ := Option.bind_eq_some_iff.mp hl
          replace hfind : Table.find? entries name = some child := hfind
          rw [put, hfind, Option.getD_some, ih (hchildren name child hfind) hchild,
            hsorted.insert_eq_self hfind]

end Node

/-- The locations in a well-formed tree are made of names. -/
theorem Node.WellFormed.isName_of_at? {node inner : Node} (h : node.WellFormed) {l : List Text}
    (hl : node.at? l = some inner) : ∀ name ∈ l, Path.IsName name := by
  induction l generalizing node with
  | nil => exact nofun
  | cons name l ih =>
      cases node with
      | file content => cases hl
      | directory entries =>
          obtain ⟨-, hnames, hchildren⟩ := wellFormed_directory_iff.mp h
          obtain ⟨child, hfind, hchild⟩ := Option.bind_eq_some_iff.mp hl
          exact List.forall_mem_cons.mpr
            ⟨hnames name (Table.mem_keys_of_find? hfind), ih (hchildren name child hfind) hchild⟩

/-- **Writing keeps a disk well-formed**, when it is done in a directory and under a name. -/
theorem Disk.wellFormed_putAt {disk : Disk} {here : List Text} {name : Text} {new : Node}
    (h : disk.root.WellFormed) (hdir : disk.kind? here = some .directory)
    (hname : Path.IsName name) (hnew : new.WellFormed) :
    (disk.putAt (here ++ [name]) new).root.WellFormed := by
  obtain ⟨entries, hentries⟩ := kind?_eq_directory.mp hdir
  exact h.put hnew
    (List.forall_mem_append.mpr ⟨h.isName_of_at? hentries, List.forall_mem_singleton.mpr hname⟩)

end IndentHtml
