import IndentHtml.Text.Basic

/-!
# Texts as bytes

A text is stored as its bytes in UTF-8, and a scanner may work on offsets into them.  Nothing then
keeps it at the characters: an offset can lie beyond the end or inside a character, where no slice
may start or end, though a byte can be looked at.  A count can fall below zero, and a loop can stay
where it is.

Each of these is a `Fault`.  The operations here check for them, and a scanner that is made of these
operations gives a result exactly when none of them occurs.
-/

namespace IndentHtml

namespace Text

/-! ### Bytes and offsets -/

/-- The bytes of a text in UTF-8. -/
def bytes (t : Text) : List UInt8 :=
  t.flatMap String.utf8EncodeChar

/-- The number of bytes of a text. -/
def size (t : Text) : Nat :=
  t.bytes.length

/-- A class of characters as a class of bytes, where a byte counts as the character of its code. -/
def onByte (p : Char → Bool) (b : UInt8) : Bool :=
  p (Char.ofUInt8 b)

/-- Cuts a text in two at an offset, unless the offset is beyond the end or inside a character. -/
def cutAt? : Text → Nat → Option (Text × Text)
  | t, 0 => some ([], t)
  | [], _ + 1 => none
  | c :: t, n + 1 =>
      if c.utf8Size ≤ n + 1 then (cutAt? t (n + 1 - c.utf8Size)).map fun p => (c :: p.1, p.2)
      else none

/-- The offset of the first character of a class. -/
def offset? (p : Char → Bool) : Text → Option Nat
  | [] => none
  | c :: t => if p c then some 0 else (offset? p t).map (c.utf8Size + ·)

/-! ### Checked operations -/

/-- What stops a scanner. -/
inductive Fault where
  /-- An offset beyond the end. -/
  | range
  /-- A slice that starts or ends inside a character. -/
  | boundary
  /-- A count below zero. -/
  | underflow
  /-- A round of a loop that does not move the cursor forward. -/
  | stuck
  deriving DecidableEq, Repr

/-- The byte at an offset. -/
def byteAt (bytes : List UInt8) (offset : Nat) : Except Fault UInt8 :=
  match bytes[offset]? with
  | some b => .ok b
  | none => .error .range

/-- The bytes from an offset on. -/
def bytesFrom (bytes : List UInt8) (offset : Nat) : Except Fault (List UInt8) :=
  if offset ≤ bytes.length then .ok (bytes.drop offset) else .error .range

/-- The slice between two offsets. -/
def slice (t : Text) (start stop : Nat) : Except Fault Text :=
  if start ≤ stop ∧ stop ≤ t.size then
    match (t.cutAt? start).bind fun p => p.2.cutAt? (stop - start) with
    | some (middle, _) => .ok middle
    | none => .error .boundary
  else .error .range

/-- The slice from an offset on. -/
def sliceFrom (t : Text) (start : Nat) : Except Fault Text :=
  t.slice start t.size

/-- One less. -/
def decrement : Nat → Except Fault Nat
  | 0 => .error .underflow
  | n + 1 => .ok n

/-! ### Loops -/

/-- How a round of a loop ends. -/
inductive Round (σ : Type) where
  | next (state : σ)
  | leave (state : σ)

/-- A loop that goes on until a round leaves it.  `left` counts the bytes behind the cursor, which
have to become fewer with each round that stays. -/
def loop {σ : Type} (left : σ → Nat) (round : σ → Except Fault (Round σ)) (state : σ) :
    Except Fault σ :=
  match round state with
  | .error fault => .error fault
  | .ok (.leave state) => .ok state
  | .ok (.next next) => if left next < left state then loop left round next else .error .stuck
termination_by left state

end Text

end IndentHtml
