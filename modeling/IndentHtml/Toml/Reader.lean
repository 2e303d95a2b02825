import IndentHtml.Toml.Basic
import IndentHtml.Json

/-!
# Reading configuration documents

A document is read line by line into assignments and sections, which are then put together.  Every
reader takes something off the front of the text and leaves the rest; a text that is no document
has no reading.
-/

namespace IndentHtml

namespace Toml

/-- How deep values may nest, and how many parts a dotted key may have. -/
def maxNesting : Nat := 79

/-! ### Blanks and line ends -/

/-- Holds of the blanks within a line. -/
def isBlank (c : Char) : Bool :=
  c = ' ' || c = '\t'

/-- Drops the blanks at the front. -/
def skipBlanks (t : Text) : Text :=
  t.dropWhile isBlank

/-- Holds of the characters that may stand in a comment and, apart from delimiters, in a text. -/
def isPlain (c : Char) : Bool :=
  c = '\t' || (' ' ≤ c && c ≠ '\x7f')

/-- What follows a line end. -/
def afterNewline? : Text → Option Text
  | '\n' :: t => some t
  | '\r' :: '\n' :: t => some t
  | _ => none

/-- Drops a comment at the front. -/
def skipComment (t : Text) : Text :=
  match t with
  | '#' :: rest => rest.dropWhile isPlain
  | _ => t

/-- What follows the end of a line that holds nothing more but blanks and a comment. -/
def endOfLine? (t : Text) : Option Text :=
  match skipComment (skipBlanks t) with
  | [] => some []
  | rest => afterNewline? rest

/-- Drops blanks, comments and line ends. -/
def skipLines : (fuel : Nat) → Text → Text
  | 0, t => t
  | fuel + 1, t =>
      let t := skipComment (skipBlanks t)
      match afterNewline? t with
      | some rest => skipLines fuel rest
      | none => t

/-! ### Texts -/

/-- Reads hexadecimal digits into a character. -/
def hexChar? (digits : Text) : Option Char := do
  let n ← digits.foldlM (fun n c => (Json.hexDigit? c).map fun d => n * 16 + d) 0
  if n < 0xd800 || (0xdfff < n && n < 0x110000) then some (Char.ofNat n) else none

/-- Reads what follows a backslash. -/
def escape? : Text → Option (Char × Text)
  | 'b' :: t => some ('\x08', t)
  | 't' :: t => some ('\t', t)
  | 'n' :: t => some ('\n', t)
  | 'f' :: t => some ('\x0c', t)
  | 'r' :: t => some ('\r', t)
  | '"' :: t => some ('"', t)
  | '\\' :: t => some ('\\', t)
  | 'u' :: t => if t.length < 4 then none else (hexChar? (t.take 4)).map fun c => (c, t.drop 4)
  | 'U' :: t => if t.length < 8 then none else (hexChar? (t.take 8)).map fun c => (c, t.drop 8)
  | _ => none

/-- Reads the rest of a line between quotes, where `escapes` says whether backslashes count. -/
def line? (quote : Char) (escapes : Bool) : (fuel : Nat) → Text → Option (Text × Text)
  | 0, _ => none
  | _ + 1, [] => none
  | fuel + 1, c :: t =>
      if c = quote then some ([], t)
      else if escapes && c = '\\' then do
        let (d, t) ← escape? t
        let (s, t) ← line? quote escapes fuel t
        pure (d :: s, t)
      else if isPlain c then do
        let (s, t) ← line? quote escapes fuel t
        pure (c :: s, t)
      else none

/-- What follows a backslash that ends a line: all blanks and line ends are dropped. -/
def afterContinuation? (t : Text) : Option Text :=
  (afterNewline? (skipBlanks t)).map fun rest =>
    rest.dropWhile fun c => isBlank c || c = '\n' || c = '\r'

/-- Reads the rest of a text between triple quotes.  Up to two quotes may stand directly before
the closing ones. -/
def paragraph? (quote : Char) (escapes : Bool) : (fuel : Nat) → Text → Option (Text × Text)
  | 0, _ => none
  | _ + 1, [] => none
  | fuel + 1, c :: t =>
      if c = quote then
        match t with
        | a :: b :: rest =>
            if a = quote && b = quote then
              match rest with
              | d :: rest' =>
                  if d = quote then
                    match rest' with
                    | e :: rest'' => if e = quote then some ([c, c], rest'') else some ([c], rest')
                    | [] => some ([c], [])
                  else some ([], rest)
              | [] => some ([], [])
            else (paragraph? quote escapes fuel t).map fun p => (c :: p.1, p.2)
        | _ => none
      else if escapes && c = '\\' then
        match afterContinuation? t with
        | some rest => paragraph? quote escapes fuel rest
        | none => do
            let (d, t) ← escape? t
            let (s, t) ← paragraph? quote escapes fuel t
            pure (d :: s, t)
      else
        match afterNewline? (c :: t) with
        | some rest => (paragraph? quote escapes fuel rest).map fun p => ('\n' :: p.1, p.2)
        | none =>
            if isPlain c then (paragraph? quote escapes fuel t).map fun p => (c :: p.1, p.2)
            else none

/-- Reads a text at its opening quote. -/
def text? (t : Text) : Option (Text × Text) :=
  match t with
  | q :: a :: b :: rest =>
      if (q = '"' || q = '\'') && a = q && b = q then
        paragraph? q (q = '"') (rest.length + 1) ((afterNewline? rest).getD rest)
      else if q = '"' || q = '\'' then line? q (q = '"') (t.length + 1) (a :: b :: rest)
      else none
  | q :: rest =>
      if q = '"' || q = '\'' then line? q (q = '"') (t.length + 1) rest else none
  | [] => none

/-! ### Keys -/

/-- Reads one part of a key. -/
def keyPart? (t : Text) : Option (Text × Text) :=
  match t with
  | q :: rest =>
      if q = '"' || q = '\'' then line? q (q = '"') (t.length + 1) rest
      else
        let part := t.takeWhile Text.isNameChar
        if part.isEmpty then none else some (part, t.dropWhile Text.isNameChar)
  | [] => none

/-- Reads a key: its parts before the last one, and the last one. -/
def keyParts? : (fuel : Nat) → Text → Option ((List Text × Text) × Text)
  | 0, _ => none
  | fuel + 1, t => do
      let (part, t) ← keyPart? (skipBlanks t)
      match skipBlanks t with
      | '.' :: t =>
          let ((path, key), t) ← keyParts? fuel t
          pure ((part :: path, key), t)
      | t => pure (([], part), t)

/-- Reads a key and the blanks around it. -/
def key? (t : Text) : Option ((List Text × Text) × Text) :=
  keyParts? maxNesting t

/-! ### Scalars -/

/-- Drops a run of digits of a class, with single underscores between digits. -/
def afterDigits? (isDigit : Char → Bool) : Text → Option Text
  | [] => none
  | c :: t =>
      if isDigit c then
        match t with
        | [] => some []
        | d :: rest =>
            if d = '_' then afterDigits? isDigit rest
            else if isDigit d then afterDigits? isDigit (d :: rest)
            else some (d :: rest)
      else none

/-- Drops a sign at the front. -/
def skipSign (t : Text) : Text :=
  match t with
  | '+' :: rest => rest
  | '-' :: rest => rest
  | _ => t

/-- Drops a decimal integer: an optional sign and digits without a needless leading zero. -/
def afterInteger? (t : Text) : Option Text :=
  match skipSign t with
  | '0' :: rest => some rest
  | rest => afterDigits? Text.isDigit rest

/-- The characters of a text up to the rest of it, without underscores. -/
def taken (t rest : Text) : Text :=
  (t.take (t.length - rest.length)).filter (· ≠ '_')

/-- The number of digits of a base, most significant first. -/
def ofBase (base : Nat) (digits : Text) : Nat :=
  digits.foldl (fun n c => n * base + (Json.hexDigit? c).getD 0) 0

/-- The largest integer. -/
def maxInteger : Nat := Nat.pow 2 63 - 1

/-- Drops an integer of base sixteen, eight or two after its two marks. -/
def afterBased? (base : Nat) (t : Text) : Option Text := do
  let rest ← afterDigits? (fun c => (Json.hexDigit? c).any fun d => d < base) t
  if ofBase base (taken t rest) ≤ maxInteger then some rest else none

/-- Drops an integer. -/
def integer? (t : Text) : Option Text :=
  match t with
  | '0' :: 'x' :: digits => afterBased? 16 digits
  | '0' :: 'o' :: digits => afterBased? 8 digits
  | '0' :: 'b' :: digits => afterBased? 2 digits
  | _ => do
      let rest ← afterInteger? t
      let n ← Number.readInteger? (taken t rest)
      if -(maxInteger + 1 : Int) ≤ n && n ≤ maxInteger then some rest else none

/-- Drops an exponent. -/
def afterExponent? (t : Text) : Option Text :=
  match t with
  | e :: rest => if e = 'e' || e = 'E' then afterDigits? Text.isDigit (skipSign rest) else none
  | [] => none

/-- Drops a number with a point or an exponent. -/
def float? (t : Text) : Option Text := do
  let afterWhole ← afterInteger? t
  let rest ← match afterWhole with
    | '.' :: places => (afterDigits? Text.isDigit places).map fun r => (afterExponent? r).getD r
    | r => afterExponent? r
  let x ← Number.read? (taken t rest)
  if Number.isInfinite x && t.head? ≠ some '-' then none else some rest

/-- Drops one of the words for numbers that are not finite. -/
def special? (t : Text) : Option Text :=
  let body := skipSign t
  (Text.after? "inf".toList body).or (Text.after? "nan".toList body)

/-- Reads a number of a fixed count of digits within bounds. -/
def field? (count low high : Nat) (t : Text) : Option (Nat × Text) :=
  let digits := t.take count
  if digits.length = count && digits.all Text.isDigit then
    let n := Number.ofDigits digits
    if low ≤ n && n ≤ high then some (n, t.drop count) else none
  else none

/-- The number of days of a month. -/
def daysInMonth (year month : Nat) : Nat :=
  if month = 2 then
    if year % 4 = 0 && (year % 100 ≠ 0 || year % 400 = 0) then 29 else 28
  else if month = 4 || month = 6 || month = 9 || month = 11 then 30
  else 31

/-- Drops a date. -/
def date? (t : Text) : Option Text := do
  let (year, t) ← field? 4 0 9999 t
  let t ← Text.after? ['-'] t
  let (month, t) ← field? 2 1 12 t
  let t ← Text.after? ['-'] t
  let (_, t) ← field? 2 1 (daysInMonth year month) t
  pure t

/-- Drops a time of day. -/
def time? (t : Text) : Option Text := do
  let (_, t) ← field? 2 0 23 t
  let t ← Text.after? [':'] t
  let (_, t) ← field? 2 0 59 t
  let t ← Text.after? [':'] t
  let (_, t) ← field? 2 0 60 t
  match t with
  | '.' :: d :: rest => if Text.isDigit d then some (rest.dropWhile Text.isDigit) else none
  | '.' :: [] => none
  | _ => some t

/-- Drops the distance to universal time. -/
def offset? (t : Text) : Option Text :=
  match t with
  | 'Z' :: rest => some rest
  | 'z' :: rest => some rest
  | c :: rest =>
      if c = '+' || c = '-' then do
        let (_, t) ← field? 2 0 23 rest
        let t ← Text.after? [':'] t
        let (_, t) ← field? 2 0 59 t
        pure t
      else none
  | [] => none

/-- Drops a date with or without a time, or a time. -/
def dateTime? (t : Text) : Option Text :=
  match date? t with
  | none => time? t
  | some rest =>
      match rest with
      | c :: body =>
          if c = 'T' || c = 't' || c = ' ' then
            match time? body with
            | some afterTime => some ((offset? afterTime).getD afterTime)
            | none => some rest
          else some rest
      | [] => some []

/-- Reads a number, a boolean or a date. -/
def scalar? (t : Text) : Option (Toml × Text) :=
  match t with
  | 't' :: _ => (Text.after? "true".toList t).map fun rest => (scalar, rest)
  | 'f' :: _ => (Text.after? "false".toList t).map fun rest => (scalar, rest)
  | _ =>
      match dateTime? t with
      | some rest => some (date, rest)
      | none =>
          ((float? t).or ((special? t).or (integer? t))).map fun rest => (scalar, rest)

/-! ### Values -/

mutual

/-- Reads a value that may nest `depth` deep. -/
def value? : (fuel depth : Nat) → Text → Option (Toml × Text)
  | 0, _, _ => none
  | fuel + 1, depth, t =>
      match t with
      | '"' :: _ => (text? t).map fun p => (text p.1, p.2)
      | '\'' :: _ => (text? t).map fun p => (text p.1, p.2)
      | '[' :: rest =>
          match depth with
          | 0 => none
          | depth + 1 => (items? fuel depth rest).map fun p => (array p.1, p.2)
      | '\x7b' :: rest =>
          match depth with
          | 0 => none
          | depth + 1 =>
              match skipBlanks rest with
              | '\x7d' :: rest => some (table .inline [], rest)
              | rest => do
                  let (as, rest) ← pairs? fuel depth rest
                  let entries ← assign noEntries as
                  pure (table .inline entries, rest)
      | _ => scalar? t

/-- Reads the items of an array up to its closing bracket. -/
def items? : (fuel depth : Nat) → Text → Option (List Toml × Text)
  | 0, _, _ => none
  | fuel + 1, depth, t =>
      match skipLines (t.length + 1) t with
      | ']' :: rest => some ([], rest)
      | t => do
          let (v, t) ← value? fuel depth t
          match skipLines (t.length + 1) t with
          | ',' :: t =>
              let (vs, t) ← items? fuel depth t
              pure (v :: vs, t)
          | ']' :: t => pure ([v], t)
          | _ => none

/-- Reads the pairs of an inline table up to its closing brace; there is at least one. -/
def pairs? : (fuel depth : Nat) → Text → Option (List Assignment × Text)
  | 0, _, _ => none
  | fuel + 1, depth, t => do
      let ((path, key), t) ← key? t
      let t ← Text.after? ['='] t
      let (v, t) ← value? fuel depth (skipBlanks t)
      match skipBlanks t with
      | ',' :: t =>
          let (as, t) ← pairs? fuel depth t
          pure (⟨path, key, v⟩ :: as, t)
      | '\x7d' :: t => pure ([⟨path, key, v⟩], t)
      | _ => none

end

/-! ### Documents -/

/-- What a line of a document brings. -/
inductive Entry where
  | nothing
  | assignment (a : Assignment)
  | header (h : Header)

/-- Reads a line. -/
def entry? (t : Text) : Option (Entry × Text) :=
  match skipBlanks t with
  | '[' :: '[' :: rest => do
      let ((path, key), rest) ← key? rest
      let rest ← Text.after? [']', ']'] rest
      let rest ← endOfLine? rest
      pure (.header (.repeated path key), rest)
  | '[' :: rest => do
      let ((path, key), rest) ← key? rest
      let rest ← Text.after? [']'] rest
      let rest ← endOfLine? rest
      pure (.header (.single path key), rest)
  | rest =>
      match endOfLine? rest with
      | some rest => some (.nothing, rest)
      | none => do
          let ((path, key), rest) ← key? rest
          let rest ← Text.after? ['='] rest
          let (v, rest) ← value? (rest.length + 1) maxNesting (skipBlanks rest)
          let rest ← endOfLine? rest
          pure (.assignment ⟨path, key, v⟩, rest)

/-- Reads all lines: the assignments before the first header, and the sections. -/
def entries? : (fuel : Nat) → Text → Option (List Assignment × List Section)
  | 0, _ => none
  | _ + 1, [] => some ([], [])
  | fuel + 1, t => do
      let (e, rest) ← entry? t
      let (first, sections) ← entries? fuel rest
      match e with
      | .nothing => pure (first, sections)
      | .assignment a => pure (a :: first, sections)
      | .header h => pure ([], ⟨h, first⟩ :: sections)

/-- Reads a document.  A byte order mark may stand at its front. -/
def read? (t : Text) : Option (Table Toml) := do
  let t :=
    match t with
    | '\ufeff' :: rest => rest
    | rest => rest
  let (first, sections) ← entries? (t.length + 1) t
  ofSections first sections

end Toml

end IndentHtml
