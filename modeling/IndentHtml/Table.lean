import IndentHtml.Text.Basic

/-!
# Tables

A table is a list of entries under pairwise different texts, in the order of their keys.
`insert` keeps the order and replaces the entry that is there, and `find?` reads it back.
-/

namespace IndentHtml

/-- A finite map from texts, as the list of its entries in the order of their keys. -/
abbrev Table (α : Type) := List (Text × α)

namespace Table

variable {α : Type}

/-- The entry under a key. -/
def find? : Table α → Text → Option α
  | [], _ => none
  | (k, a) :: entries, key => if k = key then some a else find? entries key

/-- Puts an entry under a key in place of the one that is there. -/
def insert : Table α → Text → α → Table α
  | [], key, a => [(key, a)]
  | (k, b) :: entries, key, a =>
      if k = key then (key, a) :: entries
      else if Text.lt key k then (key, a) :: (k, b) :: entries
      else (k, b) :: insert entries key a

/-- Takes away the entry under a key. -/
def erase (table : Table α) (key : Text) : Table α :=
  table.filter fun entry => entry.1 ≠ key

/-- The table of a list of entries; of two under one key the later one stays. -/
def ofList (entries : List (Text × α)) : Table α :=
  entries.foldl (fun table entry => table.insert entry.1 entry.2) []

/-- Holds when there is an entry under the key. -/
def contains (table : Table α) (key : Text) : Bool :=
  (table.find? key).isSome

/-- The keys, in order. -/
def keys (table : Table α) : List Text :=
  table.map (·.1)

/-! ### What the operations do to `find?` -/

@[simp] theorem find?_nil (key : Text) : find? ([] : Table α) key = none := rfl

@[simp] theorem find?_insert_self (table : Table α) (key : Text) (a : α) :
    (table.insert key a).find? key = some a := by
  induction table with
  | nil => simp [insert, find?]
  | cons e table ih =>
      obtain ⟨k, b⟩ := e
      by_cases h : k = key
      · simp [insert, find?, h]
      · by_cases hlt : Text.lt key k = true <;> simp [insert, find?, h, hlt, ih]

theorem find?_insert_of_ne (table : Table α) {key other : Text} (a : α) (h : key ≠ other) :
    (table.insert key a).find? other = table.find? other := by
  induction table with
  | nil => simp [insert, find?, h]
  | cons e table ih =>
      obtain ⟨k, b⟩ := e
      by_cases hk : k = key
      · subst hk
        simp [insert, find?, h]
      · by_cases hlt : Text.lt key k = true <;> simp [insert, find?, hk, hlt, h, ih]

theorem find?_insert (table : Table α) (key other : Text) (a : α) :
    (table.insert key a).find? other = if key = other then some a else table.find? other := by
  by_cases h : key = other
  · subst h; simp
  · simp [h, find?_insert_of_ne]

theorem find?_erase (table : Table α) (key other : Text) :
    (table.erase key).find? other = if key = other then none else table.find? other := by
  induction table with
  | nil => simp [erase]
  | cons e table ih =>
      obtain ⟨k, b⟩ := e
      simp only [erase] at ih ⊢
      by_cases hk : k = key
      · subst hk
        by_cases ho : k = other <;> simp_all [find?]
      · by_cases ho : key = other
        · subst ho
          simp_all [find?]
        · simp_all [find?]

end Table

end IndentHtml
