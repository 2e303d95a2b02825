import IndentHtml.Proofs.Likeness
import Mathlib.Algebra.Group.Nat.Defs
import Mathlib.Data.List.Induction

/-!
# Scopes as data

A scope keeps its variables in frames over the data, and looks through them from the innermost one
outwards.  Nothing is copied, but the scope is the same as data with the variables put into a copy
of it, one after the other (`Scope.find?_bindAll`).

**Lookup** (`Scope.lookup?_bindAll`).  A path has the same value in the scope and in that copy.  It
is what the parts of the path between its dots lead to (`Value.Leads`): the first one is a name, and
each further one is a key of a map or the decimal form of an index below the length of a list.

A decimal form has no sign and no needless zero (`Number.IsDecimal`), so a part names one index at
most (`Value.index?_eq_some_iff`).  It may be a number of any size.  Read into a machine word, it
may be too large for the word, and then it is too large for every list in the memory of the machine
as well (`Value.child?_list_within`).
-/

namespace IndentHtml

namespace Number

/-! ### Decimal forms -/

/-- Holds of a run of digits without a needless zero. -/
structure IsDecimal (ds : Text) : Prop where
  ne_nil : ds ≠ []
  digits : ∀ c ∈ ds, Text.isDigit c = true
  zero : ds.head? = some '0' → ds.length = 1

instance (ds : Text) : Decidable (IsDecimal ds) :=
  decidable_of_iff
    (ds.isEmpty = false ∧ ds.all Text.isDigit = true ∧ (ds.head? = some '0' → ds.length = 1))
    ⟨fun h => ⟨fun hnil => by simp [hnil] at h, List.all_eq_true.mp h.2.1, h.2.2⟩,
      fun h => ⟨by simpa using h.ne_nil, List.all_eq_true.mpr h.digits, h.zero⟩⟩

theorem isDigit_eq (c : Char) : Text.isDigit c = c.isDigit := by
  simp [Text.isDigit, Char.isDigit, Char.le_def]

theorem digitChar_of_isDigit {c : Char} (h : Text.isDigit c = true) :
    c.toNat - '0'.toNat < 10 ∧ Nat.digitChar (c.toNat - '0'.toNat) = c := by
  rw [isDigit_eq, Char.isDigit_iff_toNat] at h
  have hlow : '0'.toNat = 48 := rfl
  have hhigh : '9'.toNat = 57 := rfl
  have hlt : c.toNat - '0'.toNat < 10 := by omega
  refine ⟨hlt, Char.toNat_inj.mp ?_⟩
  rw [Nat.toNat_digitChar_of_lt_ten hlt]
  omega

/-- One digit more makes ten times as much and the digit. -/
theorem ofDigits_concat (ds : Text) (c : Char) :
    ofDigits (ds ++ [c]) = 10 * ofDigits ds + (c.toNat - '0'.toNat) := by
  simp [ofDigits]

/-- A number is read back from its digits. -/
theorem ofDigits_toDigits (n : Nat) : ofDigits (Nat.toDigits 10 n) = n :=
  Nat.ofDigitChars_toDigits (by decide) (by decide)

/-- Digits without a needless zero are the decimal form of their number. -/
theorem IsDecimal.toDigits_ofDigits {ds : Text} (h : IsDecimal ds) :
    Nat.toDigits 10 (ofDigits ds) = ds := by
  induction ds using List.reverseRecOn with
  | nil => exact absurd rfl h.ne_nil
  | append_singleton ds c ih =>
      obtain ⟨hlt, hdigit⟩ := digitChar_of_isDigit (h.digits c (by simp))
      by_cases hds : ds = []
      · subst hds
        have hvalue : ofDigits ([] ++ [c]) = c.toNat - '0'.toNat := by
          rw [ofDigits_concat, show ofDigits [] = 0 from rfl, Nat.mul_zero, Nat.zero_add]
        rw [hvalue, Nat.toDigits_of_lt_base hlt, hdigit]
        rfl
      · have hhead : ds.head? ≠ some '0' := by
          intro hzero
          have hlength := h.zero (by rw [List.head?_append_of_ne_nil _ hds, hzero])
          rw [List.length_append, List.length_singleton] at hlength
          exact hds (List.length_eq_zero_iff.mp (by omega))
        have hinit := ih ⟨hds, fun d hd => h.digits d (List.mem_append_left _ hd),
          fun hzero => absurd hzero hhead⟩
        have hpos : 0 < ofDigits ds := by
          refine Nat.pos_of_ne_zero fun hzero => hhead ?_
          rw [hzero] at hinit
          rw [← hinit]
          rfl
        rw [ofDigits_concat, ← Nat.toDigits_append_toDigits (by decide) hpos hlt, hinit,
          Nat.toDigits_of_lt_base hlt, hdigit]

theorem head?_toDigits_ne {n : Nat} (h : 0 < n) : (Nat.toDigits 10 n).head? ≠ some '0' := by
  induction n using Nat.strongRecOn with
  | ind n ih =>
      by_cases hlt : n < 10
      · rw [Nat.toDigits_of_lt_base hlt]
        intro hhead
        have hzero := Nat.digitChar_eq_zero.mp (Option.some.inj hhead)
        omega
      · rw [Nat.toDigits_of_base_le (by decide) (by omega),
          List.head?_append_of_ne_nil _ Nat.toDigits_ne_nil]
        exact ih (n / 10) (by omega) (by omega)

/-- The digits of a number are a decimal in canonical form. -/
theorem isDecimal_toDigits (n : Nat) : IsDecimal (Nat.toDigits 10 n) where
  ne_nil := Nat.toDigits_ne_nil
  digits c hc := by
    rw [isDigit_eq]
    exact Nat.isDigit_of_mem_toDigits (by decide) (by decide) hc
  zero hhead := by
    rcases Nat.eq_zero_or_pos n with rfl | hpos
    · rfl
    · exact absurd hhead (head?_toDigits_ne hpos)

/-! ### Machine words -/

/-- A number, if it fits into a machine word. -/
def within? (width n : Nat) : Option Nat :=
  if n < 2 ^ width then some n else none

/-- The number of a run of digits, where each product and each sum has to fit into a machine
word. -/
def ofDigitsWithin? (width : Nat) (ds : Text) : Option Nat :=
  ds.foldlM (fun n c => (within? width (10 * n)).bind fun tens =>
    within? width (tens + (c.toNat - '0'.toNat))) 0

/-- One more digit fits when the number with it fits, since the number only grows. -/
theorem within?_digit (width n d : Nat) :
    ((within? width n).bind fun n => (within? width (10 * n)).bind fun tens =>
      within? width (tens + d)) = within? width (10 * n + d) := by
  by_cases h : 10 * n + d < 2 ^ width
  · have hn : n < 2 ^ width := by omega
    have htens : 10 * n < 2 ^ width := by omega
    simp [within?, h, hn, htens]
  · have hsum : within? width (10 * n + d) = none := if_neg h
    rw [hsum]
    simp [within?]
    omega

/-- Reading with a bound at each digit is reading with a check at the end. -/
theorem ofDigitsWithin?_eq (width : Nat) (ds : Text) :
    ofDigitsWithin? width ds = within? width (ofDigits ds) := by
  induction ds using List.reverseRecOn with
  | nil => exact (if_pos (Nat.two_pow_pos width)).symm
  | append_singleton ds c ih =>
      rw [ofDigitsWithin?] at ih
      rw [ofDigitsWithin?, List.foldlM_append, ih, ofDigits_concat, ← within?_digit]
      simp

end Number

/-! ### Indices -/

namespace Value

open Number (IsDecimal)

/-- A canonical decimal is read as an index. -/
theorem index?_of_isDecimal {segment : Text} (h : IsDecimal segment) :
    index? segment = some (Number.ofDigits segment) := by
  unfold index?
  split
  · exact absurd rfl h.ne_nil
  · rfl
  · next t hmore =>
      have ht : t = [] := by simpa using h.zero rfl
      exact absurd ht hmore
  · rw [if_pos (List.all_eq_true.mpr h.digits)]

/-- Nothing else is read as an index. -/
theorem isDecimal_of_index? {segment : Text} {i : Nat} (h : index? segment = some i) :
    IsDecimal segment := by
  unfold index? at h
  split at h
  · cases h
  · decide
  · cases h
  · next hne _ hzero =>
      split at h
      · next hdigits =>
          refine ⟨hne, List.all_eq_true.mp hdigits, fun hhead => ?_⟩
          obtain ⟨t, ht⟩ := List.head?_eq_some_iff.mp hhead
          exact absurd ht (hzero t)
      · cases h

/-- **A segment names an index** when it is the decimal form of the index. -/
theorem index?_eq_some_iff {segment : Text} {i : Nat} :
    index? segment = some i ↔ segment = Nat.toDigits 10 i := by
  constructor
  · intro h
    have hdecimal := isDecimal_of_index? h
    rw [index?_of_isDecimal hdecimal] at h
    rw [← Option.some.inj h, hdecimal.toDigits_ofDigits]
  · rintro rfl
    rw [index?_of_isDecimal (Number.isDecimal_toDigits i), Number.ofDigits_toDigits]

/-- The index of a segment, where the digits are read into a machine word. -/
def indexWithin? (width : Nat) (segment : Text) : Option Nat :=
  if IsDecimal segment then Number.ofDigitsWithin? width segment else none

theorem indexWithin?_eq (width : Nat) (segment : Text) :
    indexWithin? width segment = (index? segment).bind (Number.within? width) := by
  rw [indexWithin?]
  split
  · next h => rw [index?_of_isDecimal h, Number.ofDigitsWithin?_eq, Option.bind_some]
  · next h =>
      cases hindex : index? segment with
      | none => rfl
      | some i => exact absurd (isDecimal_of_index? hindex) h

/-- A number that does not fit into a word selects nothing, in a list with no more items than the
word has values. -/
theorem child?_list_within {width : Nat} {items : List Value} (h : items.length ≤ 2 ^ width)
    (segment : Text) :
    (list items).child? segment = (indexWithin? width segment).bind fun i => items[i]? := by
  show (index? segment).bind _ = _
  rw [indexWithin?_eq]
  cases index? segment with
  | none => rfl
  | some i =>
      rw [Option.bind_some, Option.bind_some, Number.within?]
      split
      · rfl
      · next hlarge => exact List.getElem?_eq_none (by omega)

/-! ### Descending -/

/-- What some segments lead to from a value. -/
inductive Leads : Value → List Text → Value → Prop
  | nil (v : Value) : Leads v [] v
  | entry {entries : Table Value} {key : Text} {segments : List Text} {w v : Value}
      (hentry : entries.find? key = some w) (h : Leads w segments v) :
    Leads (map entries) (key :: segments) v
  | item {items : List Value} {i : Nat} {segments : List Text} {w v : Value}
      (hitem : items[i]? = some w) (h : Leads w segments v) :
    Leads (list items) (Nat.toDigits 10 i :: segments) v

/-- **The index rule.**  A segment leads into a list when it is the decimal of an index of it. -/
theorem child?_list_eq_some_iff {items : List Value} {segment : Text} {v : Value} :
    (list items).child? segment = some v ↔
      ∃ i, segment = Nat.toDigits 10 i ∧ items[i]? = some v := by
  show (index? segment).bind _ = _ ↔ _
  rw [Option.bind_eq_some_iff]
  exact exists_congr fun i => and_congr_left fun _ => index?_eq_some_iff

theorem descend?_eq_some_iff {v w : Value} {segments : List Text} :
    v.descend? segments = some w ↔ Leads v segments w := by
  constructor
  · intro h
    induction segments generalizing v with
    | nil =>
        obtain rfl := Option.some.inj h
        exact .nil v
    | cons segment segments ih =>
        obtain ⟨u, hchild, hrest⟩ := Option.bind_eq_some_iff.mp h
        cases v with
        | map entries => exact .entry hchild (ih hrest)
        | list items =>
            obtain ⟨i, rfl, hitem⟩ := child?_list_eq_some_iff.mp hchild
            exact .item hitem (ih hrest)
        | text _ => cases hchild
        | number _ => cases hchild
        | bool _ => cases hchild
  · intro h
    induction h with
    | nil v => rfl
    | entry hentry _ ih =>
        rw [descend?, child?, hentry]
        exact ih
    | item hitem _ ih =>
        rw [descend?, child?_list_eq_some_iff.mpr ⟨_, rfl, hitem⟩]
        exact ih

end Value

/-! ### Scopes and copies -/

/-- Data with some entries put in, one after the other. -/
def Data.insertAll (data : Data) (entries : List (Text × Value)) : Data :=
  entries.foldl (fun data entry => Table.insert data entry.1 entry.2) data

namespace Scope

/-- A scope with some variables bound in it, the last one innermost. -/
def bindAll (scope : Scope) (entries : List (Text × Value)) : Scope :=
  entries.foldl (fun scope entry => scope.bind entry.1 entry.2) scope

/-- **Binding is putting into a copy**: a name has the same value in a scope and in data after some
variables are bound in the one and put into the other. -/
theorem find?_bindAll {scope : Scope} {data : Data}
    (h : ∀ name, scope.find? name = data.find? name) (entries : List (Text × Value))
    (name : Text) : (scope.bindAll entries).find? name = (data.insertAll entries).find? name := by
  induction entries generalizing scope data with
  | nil => exact h name
  | cons entry entries ih =>
      refine ih fun other => ?_
      rw [find?_bind, Table.find?_insert, h]

/-- A lookup asks a scope for one name only. -/
theorem lookup?_congr {scope scope' : Scope} (h : ∀ name, scope.find? name = scope'.find? name)
    (path : Text) : scope.lookup? path = scope'.lookup? path := by
  unfold lookup?
  cases List.splitOn '.' path with
  | nil => rfl
  | cons name segments => exact congrArg (Option.bind · _) (h name)

/-- A path leads from a name through the segments behind it. -/
theorem lookup?_eq_some_iff {scope : Scope} {path : Text} {v : Value} :
    scope.lookup? path = some v ↔
      ∃ name segments w, path = List.intercalate ['.'] (name :: segments) ∧
        (∀ segment ∈ name :: segments, '.' ∉ segment) ∧ scope.find? name = some w ∧
          Value.Leads w segments v := by
  constructor
  · intro h
    unfold lookup? at h
    have hpath : List.intercalate ['.'] (List.splitOn '.' path) = path :=
      List.intercalate_splitOn '.'
    have hdots : ∀ segment ∈ List.splitOn '.' path, '.' ∉ segment :=
      fun segment hsegment hdot => (Text.mem_of_mem_splitOn hsegment hdot).2 rfl
    cases hsplit : List.splitOn '.' path with
    | nil => exact absurd hsplit (List.splitOn_ne_nil '.' path)
    | cons name segments =>
        rw [hsplit] at h hpath hdots
        obtain ⟨w, hw, hrest⟩ := Option.bind_eq_some_iff.mp h
        exact ⟨name, segments, w, hpath.symm, hdots, hw, Value.descend?_eq_some_iff.mp hrest⟩
  · rintro ⟨name, segments, w, rfl, hdots, hw, hrest⟩
    rw [lookup?, List.splitOn_intercalate '.' hdots (List.cons_ne_nil _ _)]
    show (scope.find? name).bind _ = _
    rw [hw]
    exact Value.descend?_eq_some_iff.mpr hrest

theorem find?_ofData (data : Data) (name : Text) :
    (ofData data).find? name = data.find? name := rfl

/-- **Lookup.**  Bind some variables over data, one in the other, and put them into a copy of the
data, one after the other: every path has the same value in both.  It has a value when its first
part is a name of the copy and its further parts lead on from there, and what they lead to is the
value.  The index of an item may be read into a machine word, for a list with no more items than
the word has values. -/
theorem lookup?_bindAll (data : Data) (entries : List (Text × Value)) (path : Text) :
    ((ofData data).bindAll entries).lookup? path =
        (ofData (data.insertAll entries)).lookup? path ∧
      (∀ v, ((ofData data).bindAll entries).lookup? path = some v ↔
        ∃ name segments w, path = List.intercalate ['.'] (name :: segments) ∧
          (∀ segment ∈ name :: segments, '.' ∉ segment) ∧
          (data.insertAll entries).find? name = some w ∧ Value.Leads w segments v) ∧
      ∀ width (items : List Value) segment, items.length ≤ 2 ^ width →
        (Value.list items).child? segment =
          (Value.indexWithin? width segment).bind fun i => items[i]? := by
  have hcopy : ((ofData data).bindAll entries).lookup? path =
      (ofData (data.insertAll entries)).lookup? path :=
    lookup?_congr (fun name => find?_bindAll (find?_ofData data) entries name) path
  refine ⟨hcopy, fun v => ?_, fun width items segment h => Value.child?_list_within h segment⟩
  rw [hcopy, lookup?_eq_some_iff]
  rfl

/-- A variable over another one of its name and over one with a dot in its name, and a segment that
is too large for a word of 64 bits. -/
theorem lookup?_bindAll_of_shadowed :
    ((ofData [("x".toList, .text "outer".toList)]).bindAll
        [("x".toList, .text "first".toList), ("x.1".toList, .text "dotted".toList),
          ("x".toList, .list [.bool true, .text "last".toList])]).lookup? "x.1".toList =
      some (.text "last".toList) ∧
    [Value.bool true, .text "last".toList].length ≤ 2 ^ 64 ∧
    Number.ofDigits "18446744073709551617".toList = 2 ^ 64 + 1 ∧
    (Value.list [.bool true, .text "last".toList]).child? "18446744073709551617".toList = none := by
  have hlength : [Value.bool true, .text "last".toList].length ≤ 2 ^ 64 := by decide
  obtain ⟨-, hleads, hword⟩ := lookup?_bindAll [("x".toList, .text "outer".toList)]
    [("x".toList, .text "first".toList), ("x.1".toList, .text "dotted".toList),
      ("x".toList, .list [.bool true, .text "last".toList])] "x.1".toList
  refine ⟨(hleads _).mpr ⟨"x".toList, [Nat.toDigits 10 1], _, by decide, by decide, rfl,
    .item rfl (.nil _)⟩, hlength, by decide, ?_⟩
  rw [hword 64 _ _ hlength]
  have hlarge : Value.indexWithin? 64 "18446744073709551617".toList = none := by decide
  rw [hlarge]
  rfl

end Scope

end IndentHtml
