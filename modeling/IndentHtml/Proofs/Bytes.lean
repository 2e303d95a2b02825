import Mathlib.Data.List.Basic
import IndentHtml.Text.Bytes

/-!
# Offsets at the ends of characters

What the operations on bytes give at the offset where a part of a text ends.  Such an offset is a
boundary, and a slice succeeds exactly between two of them (`slice_eq_ok_iff`).

A class of ASCII characters may be looked for among single bytes: it holds of each byte of a
character in it and of no byte of another one (`Ascii.onByte_eq`).  So a run of such bytes is a run
of characters and ends at a boundary (`Ascii.takeWhile_bytes`), and a loop that goes on by one byte
at every other byte comes to the end of each character (`loop_character`).
-/

namespace IndentHtml

namespace Text

variable {p : Char → Bool} {b : UInt8} {c : Char} {t u v w : Text} {n start stop : Nat}

/-! ### Sizes -/

theorem bytes_cons (c : Char) (t : Text) :
    bytes (c :: t) = String.utf8EncodeChar c ++ bytes t := rfl

theorem bytes_append (t u : Text) : bytes (t ++ u) = bytes t ++ bytes u :=
  List.flatMap_append

/-- The size of a text is the number of its bytes. -/
theorem length_bytes (t : Text) : t.bytes.length = t.size := rfl

@[simp] theorem size_nil : size [] = 0 := rfl

@[simp] theorem size_cons (c : Char) (t : Text) : size (c :: t) = c.utf8Size + size t := by
  rw [size, bytes_cons, List.length_append, String.length_utf8EncodeChar, size]

@[simp] theorem size_append (t u : Text) : size (t ++ u) = size t + size u := by
  rw [size, bytes_append, List.length_append, size, size]

/-- A character of one byte ends one byte after the text before it. -/
theorem size_concat (hc : c.utf8Size = 1) (u : Text) : size (u ++ [c]) = u.size + 1 := by
  rw [size_append, size_cons, hc, size_nil]

theorem size_dropWhile_le (p : Char → Bool) (t : Text) : size (t.dropWhile p) ≤ t.size := by
  have h := congrArg size (List.takeWhile_append_dropWhile (p := p) (l := t))
  rw [size_append] at h
  exact h ▸ Nat.le_add_left _ _

theorem size_eq_zero_iff : size t = 0 ↔ t = [] := by
  cases t with
  | nil => simp
  | cons c t => simp [Nat.pos_iff_ne_zero.1 c.utf8Size_pos]

/-- A position before a character is before the end. -/
theorem size_lt_size_append_cons (u : Text) (c : Char) (v : Text) :
    u.size < size (u ++ c :: v) := by
  have hpos := c.utf8Size_pos
  rw [size_append, size_cons]
  omega

/-- Behind a longer part of a text there is less left. -/
theorem size_sub_lt_size_sub (ht : t = v ++ w) (h : u.size < v.size) :
    t.size - v.size < t.size - u.size := by
  rw [ht, size_append]
  omega

theorem size_pos (h : t ≠ []) : 0 < t.size :=
  Nat.pos_of_ne_zero fun hsize => h (size_eq_zero_iff.1 hsize)

/-! ### Classes of ASCII characters -/

/-- Holds of a class of ASCII characters. -/
def Ascii (p : Char → Bool) : Prop :=
  ∀ c, p c = true → c.utf8Size = 1

theorem utf8Size_eq_one (h : c.toNat ≤ 127) : c.utf8Size = 1 :=
  Char.utf8Size_eq_one_iff.2 h

/-- An ASCII character is a class of its own. -/
theorem ascii_eq {x : Char} (h : x.toNat ≤ 127) : Ascii (· = x) := by
  intro c hc
  rw [of_decide_eq_true hc]
  exact utf8Size_eq_one h

/-- A class made up of two ASCII classes is one. -/
theorem Ascii.or {q : Char → Bool} (hp : Ascii p) (hq : Ascii q) : Ascii fun c => p c || q c := by
  intro c hc
  obtain hc | hc := Bool.or_eq_true _ _ ▸ hc
  · exact hp c hc
  · exact hq c hc

/-- A range of ASCII characters is an ASCII class. -/
theorem ascii_between {x y : Char} (h : y.toNat ≤ 127) : Ascii fun c => x ≤ c && c ≤ y := by
  intro c hc
  have hle : c ≤ y := of_decide_eq_true (Bool.and_eq_true _ _ ▸ hc).2
  exact utf8Size_eq_one (Nat.le_trans hle h)

theorem ascii_isLetter : Ascii isLetter :=
  (ascii_between (by decide)).or (ascii_between (by decide))

theorem ascii_isWordChar : Ascii isWordChar :=
  (ascii_isLetter.or (ascii_between (by decide))).or (ascii_eq (by decide))

theorem ascii_isPathChar : Ascii isPathChar :=
  ascii_isWordChar.or (ascii_eq (by decide))

theorem ascii_isNameChar : Ascii isNameChar :=
  ascii_isWordChar.or (ascii_eq (by decide))

theorem ascii_isWordStart : Ascii isWordStart :=
  ascii_isLetter.or (ascii_eq (by decide))

theorem ascii_isSpace : Ascii isSpace :=
  (((((ascii_eq (by decide)).or (ascii_eq (by decide))).or (ascii_eq (by decide))).or
    (ascii_eq (by decide))).or (ascii_eq (by decide))).or (ascii_eq (by decide))

/-- Every byte of a longer character is above the codes of ASCII. -/
theorem le_of_mem_utf8EncodeChar (h : c.utf8Size ≠ 1) (hb : b ∈ String.utf8EncodeChar c) :
    128 ≤ b.toNat := by
  have hlong : ¬ c.val.toNat ≤ 127 := fun hle => h (utf8Size_eq_one hle)
  simp only [String.utf8EncodeChar, hlong, if_false] at hb
  split at hb
  · simp only [List.mem_cons, List.not_mem_nil, or_false] at hb
    rcases hb with rfl | rfl <;> simp only [UInt8.toNat_ofNat'] <;> omega
  · split at hb
    · simp only [List.mem_cons, List.not_mem_nil, or_false] at hb
      rcases hb with rfl | rfl | rfl <;> simp only [UInt8.toNat_ofNat'] <;> omega
    · simp only [List.mem_cons, List.not_mem_nil, or_false] at hb
      rcases hb with rfl | rfl | rfl | rfl <;> simp only [UInt8.toNat_ofNat'] <;> omega

theorem toNat_ofUInt8 (b : UInt8) : (Char.ofUInt8 b).val.toNat = b.toNat :=
  UInt8.toNat_toUInt32 b

/-- A character of one byte is the character that its byte is read as. -/
theorem ofUInt8_toUInt8 (h : c.utf8Size = 1) : Char.ofUInt8 c.val.toUInt8 = c := by
  have hle : c.val.toNat ≤ 127 := Char.utf8Size_eq_one_iff.1 h
  refine Char.ext (UInt32.toNat_inj.1 ?_)
  rw [toNat_ofUInt8, UInt32.toNat_toUInt8]
  omega

/-- A class of ASCII characters holds of each byte of a character in it, and of no byte of another
one. -/
theorem Ascii.onByte_eq (hp : Ascii p) (hb : b ∈ String.utf8EncodeChar c) : onByte p b = p c := by
  by_cases h : c.utf8Size = 1
  · rw [String.utf8EncodeChar_eq_singleton h, List.mem_singleton] at hb
    rw [hb, onByte, ofUInt8_toUInt8 h]
  · have hlong := le_of_mem_utf8EncodeChar h hb
    have hbyte : onByte p b ≠ true := by
      intro hbyte
      have hle : (Char.ofUInt8 b).val.toNat ≤ 127 := Char.utf8Size_eq_one_iff.1 (hp _ hbyte)
      rw [toNat_ofUInt8] at hle
      omega
    rw [Bool.eq_false_iff.2 hbyte, Bool.eq_false_iff.2 fun hc => h (hp c hc)]

/-- No byte of another character is taken for an ASCII character. -/
theorem onByte_of_ne {x : Char} (hx : x.toNat ≤ 127) (h : c ≠ x)
    (hb : b ∈ String.utf8EncodeChar c) : onByte (· = x) b = false :=
  ((ascii_eq hx).onByte_eq hb).trans (decide_eq_false h)

theorem exists_utf8EncodeChar (c : Char) : ∃ b more, String.utf8EncodeChar c = b :: more := by
  refine List.exists_cons_of_length_pos ?_
  rw [String.length_utf8EncodeChar]
  exact c.utf8Size_pos

/-- The first byte of a text is in a class when the first character is. -/
theorem Ascii.any_head?_bytes (hp : Ascii p) (t : Text) :
    t.bytes.head?.any (onByte p) = t.head?.any p := by
  cases t with
  | nil => rfl
  | cons c t =>
      obtain ⟨b, more, hbytes⟩ := exists_utf8EncodeChar c
      have hb : b ∈ String.utf8EncodeChar c := hbytes ▸ List.mem_cons_self
      rw [bytes_cons, hbytes]
      exact hp.onByte_eq hb

/-- A run of bytes of a class is the run of characters. -/
theorem Ascii.takeWhile_bytes (hp : Ascii p) (t : Text) :
    t.bytes.takeWhile (onByte p) = bytes (t.takeWhile p) := by
  induction t with
  | nil => rfl
  | cons c t ih =>
      rw [bytes_cons]
      cases hc : p c with
      | true =>
          rw [List.takeWhile_append_of_pos fun b hb => (hp.onByte_eq hb).trans hc, ih,
            List.takeWhile_cons_of_pos hc, bytes_cons]
      | false =>
          obtain ⟨b, more, hbytes⟩ := exists_utf8EncodeChar c
          have hb : onByte p b ≠ true := by
            rw [hp.onByte_eq (hbytes ▸ List.mem_cons_self), hc]
            exact Bool.false_ne_true
          rw [hbytes, List.cons_append, List.takeWhile_cons_of_neg hb,
            List.takeWhile_cons_of_neg (hc ▸ Bool.false_ne_true)]
          rfl

/-! ### Offsets behind a part of a text -/

/-- Dropping the bytes of the first part leaves those of the second one. -/
theorem drop_bytes_append (u v : Text) : (bytes (u ++ v)).drop u.size = v.bytes := by
  rw [bytes_append]
  exact List.drop_left

/-- The bytes from a cut on are those of the second part. -/
theorem bytesFrom_append (u v : Text) : bytesFrom (bytes (u ++ v)) u.size = .ok v.bytes := by
  rw [bytesFrom, drop_bytes_append, if_pos]
  rw [bytes_append, List.length_append]
  exact Nat.le_add_right _ _

theorem bytesFrom_append_cons (hc : c.utf8Size = 1) (u v : Text) :
    bytesFrom (bytes (u ++ c :: v)) (u.size + 1) = .ok v.bytes := by
  have h := bytesFrom_append (u ++ [c]) v
  rwa [size_concat hc, List.append_assoc] at h

/-- The byte at a cut is the first one of the second part, if there is one. -/
theorem getElem?_bytes_append (u v : Text) : (bytes (u ++ v))[u.size]? = v.bytes.head? := by
  rw [← drop_bytes_append u v, List.head?_drop]

/-- The bytes after a run of characters are those of what follows the run. -/
theorem bytesFrom_takeWhile (p : Char → Bool) (t : Text) :
    bytesFrom t.bytes (size (t.takeWhile p)) = .ok (bytes (t.dropWhile p)) := by
  have h := bytesFrom_append (t.takeWhile p) (t.dropWhile p)
  rwa [List.takeWhile_append_dropWhile] at h

theorem getElem?_bytes_takeWhile (p : Char → Bool) (t : Text) :
    t.bytes[size (t.takeWhile p)]? = (bytes (t.dropWhile p)).head? := by
  have h := getElem?_bytes_append (t.takeWhile p) (t.dropWhile p)
  rwa [List.takeWhile_append_dropWhile] at h

/-- At the offsets of a character stand its bytes. -/
theorem byteAt_append {i : Nat} (u : Text) (c : Char) (v : Text) (hstart : u.size ≤ i)
    (hstop : i < u.size + c.utf8Size) :
    ∃ b ∈ String.utf8EncodeChar c, byteAt (bytes (u ++ c :: v)) i = .ok b := by
  have hlt : i - u.bytes.length < (String.utf8EncodeChar c).length := by
    rw [String.length_utf8EncodeChar]
    exact Nat.sub_lt_left_of_lt_add hstart hstop
  refine ⟨_, List.getElem_mem hlt, ?_⟩
  rw [byteAt, bytes_append, List.getElem?_append_right hstart, bytes_cons,
    List.getElem?_append_left hlt, List.getElem?_eq_getElem hlt]

/-- At the end of a part of a text stands a byte of the character that follows. -/
theorem exists_byteAt (u : Text) (c : Char) (v : Text) :
    ∃ b ∈ String.utf8EncodeChar c, byteAt (bytes (u ++ c :: v)) u.size = .ok b :=
  byteAt_append u c v (Nat.le_refl _) (Nat.lt_add_of_pos_right c.utf8Size_pos)

/-- A text is cut at the ends of its characters and nowhere else. -/
theorem cutAt?_eq_some_iff : cutAt? t n = some (u, v) ↔ t = u ++ v ∧ n = u.size := by
  fun_induction cutAt? t n generalizing u v with
  | case1 t =>
      rw [Option.some.injEq, Prod.mk.injEq, eq_comm (b := u.size), size_eq_zero_iff]
      constructor
      · rintro ⟨rfl, rfl⟩
        exact ⟨rfl, rfl⟩
      · rintro ⟨rfl, rfl⟩
        exact ⟨rfl, rfl⟩
  | case2 n =>
      refine iff_of_false (Option.some_ne_none _).symm ?_
      rintro ⟨hnil, hn⟩
      rw [(List.append_eq_nil_iff.1 hnil.symm).1] at hn
      exact Nat.succ_ne_zero n hn
  | case3 c t n hle ih =>
      constructor
      · intro h
        obtain ⟨⟨u', v'⟩, hcut, heq⟩ := Option.map_eq_some_iff.1 h
        obtain ⟨rfl, rfl⟩ := Prod.mk.inj heq
        obtain ⟨rfl, hn⟩ := ih.1 hcut
        refine ⟨rfl, ?_⟩
        rw [size_cons, ← hn, Nat.add_sub_cancel' hle]
      · rintro ⟨ht, hn⟩
        cases u with
        | nil => exact absurd hn (Nat.succ_ne_zero n)
        | cons d u =>
            obtain ⟨rfl, rfl⟩ := List.cons.inj ht
            rw [size_cons] at hn
            rw [ih.2 ⟨rfl, Nat.sub_eq_of_eq_add' hn⟩]
            rfl
  | case4 c t n hle =>
      refine iff_of_false (Option.some_ne_none _).symm ?_
      rintro ⟨ht, hn⟩
      cases u with
      | nil => exact Nat.succ_ne_zero n hn
      | cons d u =>
          obtain ⟨rfl, rfl⟩ := List.cons.inj ht
          rw [size_cons] at hn
          exact hle (by omega)

/-- A text is cut where its first part ends. -/
theorem cutAt?_append (u v : Text) : cutAt? (u ++ v) u.size = some (u, v) :=
  cutAt?_eq_some_iff.2 ⟨rfl, rfl⟩

/-- A slice succeeds when both offsets are ends of characters, the first one not after the second
one, and gives what is between them. -/
theorem slice_eq_ok_iff :
    slice t start stop = .ok v ↔
      ∃ u w, t = u ++ v ++ w ∧ start = u.size ∧ stop = size (u ++ v) := by
  rw [slice]
  constructor
  · intro h
    split at h
    · next hrange =>
        split at h
        · next middle rest hcut =>
            obtain rfl := Except.ok.inj h
            obtain ⟨⟨u, tail⟩, hu, hmiddle⟩ := Option.bind_eq_some_iff.1 hcut
            obtain ⟨rfl, rfl⟩ := cutAt?_eq_some_iff.1 hu
            obtain ⟨rfl, hsize⟩ := cutAt?_eq_some_iff.1 hmiddle
            refine ⟨u, rest, (List.append_assoc _ _ _).symm, rfl, ?_⟩
            rw [size_append, ← hsize, Nat.add_sub_cancel' hrange.1]
        · cases h
    · cases h
  · rintro ⟨u, w, rfl, rfl, rfl⟩
    have hle : u.size ≤ size (u ++ v) := by
      rw [size_append]
      exact Nat.le_add_right _ _
    have hend : size (u ++ v) ≤ size (u ++ v ++ w) := by
      rw [size_append (u ++ v)]
      exact Nat.le_add_right _ _
    have hmiddle : size (u ++ v) - u.size = v.size := by
      rw [size_append, Nat.add_sub_cancel_left]
    rw [if_pos ⟨hle, hend⟩, List.append_assoc, cutAt?_append, Option.bind_some, hmiddle,
      cutAt?_append]

/-- No slice ends inside a character. -/
example : slice ['é'] 0 1 = .error .boundary := by decide

/-- **A slice between two cuts** is the part between them, and no fault. -/
theorem slice_append (u v w : Text) : slice (u ++ v ++ w) u.size (size (u ++ v)) = .ok v :=
  slice_eq_ok_iff.2 ⟨u, w, rfl, rfl, rfl⟩

theorem slice_zero_append (u v : Text) : slice (u ++ v) 0 u.size = .ok u :=
  slice_eq_ok_iff.2 ⟨[], v, rfl, rfl, rfl⟩

theorem slice_takeWhile (p : Char → Bool) (t : Text) :
    slice t 0 (size (t.takeWhile p)) = .ok (t.takeWhile p) := by
  have h := slice_zero_append (t.takeWhile p) (t.dropWhile p)
  rwa [List.takeWhile_append_dropWhile] at h

/-- A slice from a cut to the end is the second part, and no fault. -/
theorem sliceFrom_append (u v : Text) : sliceFrom (u ++ v) u.size = .ok v :=
  slice_eq_ok_iff.2 ⟨u, [], (List.append_nil _).symm, rfl, rfl⟩

theorem sliceFrom_append_cons (hc : c.utf8Size = 1) (u v : Text) :
    sliceFrom (u ++ c :: v) (u.size + 1) = .ok v := by
  have h := sliceFrom_append (u ++ [c]) v
  rwa [size_concat hc, List.append_assoc] at h

/-! ### The first character of a class -/

/-- A text has no character of a class, or it is cut in two at the first one. -/
theorem offset?_cases (p : Char → Bool) (t : Text) :
    (∀ c ∈ t, p c = false) ∧ offset? p t = none ∨
      ∃ (u : Text) (c : Char) (v : Text), t = u ++ c :: v ∧ (∀ d ∈ u, p d = false) ∧
        p c = true ∧ offset? p t = some u.size := by
  induction t with
  | nil => exact .inl ⟨fun _ h => absurd h List.not_mem_nil, rfl⟩
  | cons c t ih =>
      cases hc : p c with
      | true =>
          refine .inr ⟨[], c, t, rfl, fun _ h => absurd h List.not_mem_nil, hc, ?_⟩
          rw [offset?, if_pos hc]
          rfl
      | false =>
          rw [offset?, if_neg (Bool.eq_false_iff.1 hc)]
          obtain ⟨hnone, hoffset⟩ | ⟨u, d, v, rfl, hu, hd, hoffset⟩ := ih
          · exact .inl ⟨List.forall_mem_cons.2 ⟨hc, hnone⟩, by rw [hoffset, Option.map_none]⟩
          · refine .inr ⟨c :: u, d, v, rfl, List.forall_mem_cons.2 ⟨hc, hu⟩, hd, ?_⟩
            rw [hoffset, Option.map_some, size_cons]

/-- The first occurrence of a character is where a text is cut at the character. -/
theorem offset?_eq_map_cut? (sep : Char) (t : Text) :
    offset? (· = sep) t = (cut? sep t).map fun found => size found.1 := by
  induction t with
  | nil => rfl
  | cons c t ih =>
      rw [offset?, cut?, ih]
      by_cases hc : c = sep
      · simp [hc]
      · simp [hc, Function.comp_def]

/-! ### Sequences and loops -/

theorem ok_bind {α β : Type} (a : α) (f : α → Except Fault β) : (Except.ok a >>= f) = f a := rfl

theorem pure_eq_ok {α : Type} (a : α) : (pure a : Except Fault α) = .ok a := rfl

section Loop

variable {σ : Type} {left : σ → Nat} {round : σ → Except Fault (Round σ)} {state later : σ}

/-- A loop ends with the state that it is left in. -/
theorem loop_of_leave (h : round state = .ok (.leave later)) :
    loop left round state = .ok later := by
  rw [loop, h]

/-- A loop goes on with the next state, when less is left of it. -/
theorem loop_of_next (h : round state = .ok (.next later)) (hleft : left later < left state) :
    loop left round state = loop left round later := by
  rw [loop, h]
  exact if_pos hleft

/-- Rounds that go on by one byte each, up to an offset. -/
theorem loop_advance (state : Nat → σ) (hle : start ≤ stop)
    (h : ∀ i, start ≤ i → i < stop →
      round (state i) = .ok (.next (state (i + 1))) ∧ left (state (i + 1)) < left (state i)) :
    loop left round (state start) = loop left round (state stop) := by
  induction hle with
  | refl => rfl
  | @step stop hle ih =>
      obtain ⟨hround, hleft⟩ := h stop hle (Nat.lt_succ_self stop)
      rw [ih fun i hi hlt => h i hi (Nat.lt_succ_of_lt hlt), loop_of_next hround hleft]

/-- Rounds that go on by one byte at each byte of a character come to the end of the character. -/
theorem loop_character (state : Nat → σ) (u : Text) (c : Char) (v : Text)
    (hleft : ∀ i, left (state i) = size (u ++ c :: v) - i)
    (hround : ∀ i < size (u ++ c :: v), ∀ b ∈ String.utf8EncodeChar c,
      byteAt (bytes (u ++ c :: v)) i = .ok b → round (state i) = .ok (.next (state (i + 1)))) :
    loop left round (state u.size) = loop left round (state (size (u ++ [c]))) := by
  have hend : size (u ++ [c]) = u.size + c.utf8Size := by
    rw [size_append, size_cons, size_nil, Nat.add_zero]
  rw [hend]
  refine loop_advance state (Nat.le_add_right _ _) fun i hstart hstop => ?_
  obtain ⟨b, hb, hbyte⟩ := byteAt_append u c v hstart hstop
  have hlt : i < size (u ++ c :: v) := by
    rw [size_append, size_cons]
    omega
  refine ⟨hround i hlt b hb hbyte, ?_⟩
  rw [hleft, hleft]
  omega

end Loop

end Text

end IndentHtml
