import IndentHtml.Proofs.Nesting

/-!
# Markup

A page as its reader sees it is a sequence of pieces: the document type, start tags, end tags and
text between them.  A piece is `Clean` when it cannot be taken for anything else: names are made of
name characters, attribute values hold neither angle brackets nor quotes, and text holds no angle
brackets.

**One reading** (`Piece.marks_eq_of_printAll_eq`).  Two sequences of clean pieces with the same
written form have the same marks, which are the pieces that are not text.  Both are cut at the same
places: text ends before the first `<`, a mark ends with the first `>`, a name before the first
character that is no name character, a value before the first `"`.

The tokens of a page fall into pieces with the same written form (`Piece.printAll_ofTokens`), and
balanced tokens into pieces that nest properly (`Piece.nested_ofTokens`).
-/

namespace IndentHtml

open Html (Tag Token)

/-! ### Pieces -/

/-- A piece of a page, in its written form. -/
inductive Piece where
  | doctype
  /-- A start tag with the names of its attributes and the values they have, if any. -/
  | opening (name : Text) (attributes : List (Text × Option Text))
  | closing (name : Text)
  | text (content : Text)
  deriving DecidableEq

namespace Piece

/-- What follows the name of an attribute in a start tag. -/
def printValue : Option Text → Text
  | none => []
  | some value => '=' :: '"' :: (value ++ ['"'])

/-- An attribute as it stands in a start tag. -/
def printAttribute (a : Text × Option Text) : Text :=
  ' ' :: (a.1 ++ printValue a.2)

/-- The written form of a piece. -/
def print : Piece → Text
  | doctype => "<!doctype html>".toList
  | opening name attributes => '<' :: (name ++ attributes.flatMap printAttribute ++ ['>'])
  | closing name => '<' :: '/' :: (name ++ ['>'])
  | text content => content

/-- The written form of a sequence of pieces. -/
def printAll (pieces : List Piece) : Text :=
  pieces.flatMap print

/-- Holds of the pieces that are not text. -/
def isMark : Piece → Bool
  | text _ => false
  | _ => true

/-- The pieces that are not text, in order. -/
def marks (pieces : List Piece) : List Piece :=
  pieces.filter isMark

/-- A name: name characters, and at least one. -/
def IsName (t : Text) : Prop :=
  t ≠ [] ∧ ∀ c ∈ t, Text.isNameChar c = true

/-- Text without angle brackets. -/
def IsText (t : Text) : Prop :=
  ∀ c ∈ t, c ≠ '<' ∧ c ≠ '>'

/-- A value without angle brackets and quotes. -/
def IsValue (t : Text) : Prop :=
  ∀ c ∈ t, c ≠ '<' ∧ c ≠ '>' ∧ c ≠ '"' ∧ c ≠ '\''

instance (t : Text) : Decidable (IsName t) :=
  @instDecidableAnd _ _ _ (List.decidableBAll _ t)

instance (t : Text) : Decidable (IsText t) :=
  List.decidableBAll _ t

instance (t : Text) : Decidable (IsValue t) :=
  List.decidableBAll _ t

/-- An attribute with a clean name and, if it has a value, a clean value. -/
def IsAttribute (a : Text × Option Text) : Prop :=
  IsName a.1 ∧ ∀ value ∈ a.2, IsValue value

/-- A piece that cannot be taken for another one. -/
def Clean : Piece → Prop
  | doctype => True
  | opening name attributes => IsName name ∧ ∀ a ∈ attributes, IsAttribute a
  | closing name => IsName name
  | text content => IsText content

/-- Pieces whose start and end tags nest properly and agree in their names. -/
inductive Nested : List Piece → Prop where
  | nil : Nested []
  | doctype {rest : List Piece} : Nested rest → Nested (.doctype :: rest)
  | text (content : Text) {rest : List Piece} : Nested rest → Nested (.text content :: rest)
  | element (name : Text) (attributes : List (Text × Option Text)) {inner rest : List Piece} :
      Nested inner → Nested rest →
        Nested (.opening name attributes :: (inner ++ .closing name :: rest))

/-! ### One reading -/

/-- A text that does not go on with a character of a class. -/
def Stops (p : Char → Bool) (t : Text) : Prop :=
  ∀ c ∈ t.head?, p c = false

/-- A run of characters of a class ends at the same place in equal texts. -/
theorem run_unique {p : Char → Bool} {run run' rest rest' : Text} (h : run ++ rest = run' ++ rest')
    (hrun : ∀ c ∈ run, p c = true) (hrun' : ∀ c ∈ run', p c = true) (hrest : Stops p rest)
    (hrest' : Stops p rest') : run = run' ∧ rest = rest' := by
  induction run generalizing run' with
  | nil =>
      cases run' with
      | nil => exact ⟨rfl, h⟩
      | cons c run' =>
          obtain rfl : rest = c :: (run' ++ rest') := h
          exact absurd (hrun' c List.mem_cons_self) (Bool.eq_false_iff.mp (hrest c rfl))
  | cons c run ih =>
      cases run' with
      | nil =>
          obtain rfl : c :: (run ++ rest) = rest' := h
          exact absurd (hrun c List.mem_cons_self) (Bool.eq_false_iff.mp (hrest' c rfl))
      | cons c' run' =>
          obtain ⟨rfl, htail⟩ := List.cons.inj h
          obtain ⟨rfl, hr⟩ := ih htail (fun d hd => hrun d (List.mem_cons_of_mem _ hd))
            (fun d hd => hrun' d (List.mem_cons_of_mem _ hd))
          exact ⟨rfl, hr⟩

theorem stops_dropWhile (p : Char → Bool) (t : Text) : Stops p (t.dropWhile p) := by
  intro c hc
  have hstop := List.head?_dropWhile_not p t
  rw [Option.mem_def.mp hc] at hstop
  simpa using hstop

/-- A run of characters of a class is cut off where it ends. -/
theorem takeWhile_run {p : Char → Bool} {run rest : Text} (h : ∀ c ∈ run, p c = true)
    (hrest : Stops p rest) :
    (run ++ rest).takeWhile p = run ∧ (run ++ rest).dropWhile p = rest :=
  run_unique List.takeWhile_append_dropWhile (List.all_eq_true.mp List.all_takeWhile) h
    (stops_dropWhile p _) hrest

/-- What comes before the first occurrence of a character is the same in equal texts. -/
theorem run_unique_of_not_mem {stop : Char} {run run' rest rest' : Text}
    (h : run ++ stop :: rest = run' ++ stop :: rest') (hrun : stop ∉ run) (hrun' : stop ∉ run') :
    run = run' ∧ rest = rest' := by
  have hne : ∀ {t : Text}, stop ∉ t → ∀ c ∈ t, decide (c ≠ stop) = true := fun ht c hc =>
    decide_eq_true fun hcs => ht (hcs ▸ hc)
  have hstops : ∀ t, Stops (fun c => decide (c ≠ stop)) (stop :: t) := by
    intro t c hc
    obtain rfl := Option.some.inj hc
    exact decide_eq_false fun hcs => hcs rfl
  obtain ⟨hr, ht⟩ := run_unique h (hne hrun) (hne hrun') (hstops rest) (hstops rest')
  exact ⟨hr, (List.cons.inj ht).2⟩

/-- Attributes are empty or start with a space, which ends a name. -/
theorem stops_attributes (as : List (Text × Option Text)) :
    Stops Text.isNameChar (as.flatMap printAttribute) := by
  intro c hc
  cases as with
  | nil => cases hc
  | cons a as =>
      obtain rfl := Option.some.inj hc
      rfl

theorem stops_value (value : Option Text) (as : List (Text × Option Text)) :
    Stops Text.isNameChar (printValue value ++ as.flatMap printAttribute) := by
  cases value with
  | none => exact stops_attributes as
  | some value =>
      intro c hc
      obtain rfl := Option.some.inj hc
      rfl

/-- A list of attributes is not read as the value of an attribute. -/
theorem attributes_ne_value (as : List (Text × Option Text)) (t : Text) :
    as.flatMap printAttribute ≠ '=' :: t := by
  cases as with
  | nil =>
      intro h
      cases h
  | cons a as =>
      intro h
      exact absurd (List.cons.inj h).1 (by decide)

/-- Clean attributes with one written form are the same. -/
theorem attributes_unique {as bs : List (Text × Option Text)} (ha : ∀ a ∈ as, IsAttribute a)
    (hb : ∀ b ∈ bs, IsAttribute b) (h : as.flatMap printAttribute = bs.flatMap printAttribute) :
    as = bs := by
  induction as generalizing bs with
  | nil =>
      cases bs with
      | nil => rfl
      | cons b bs => cases h
  | cons a as ih =>
      cases bs with
      | nil => cases h
      | cons b bs =>
          obtain ⟨name, value⟩ := a
          obtain ⟨name', value'⟩ := b
          obtain ⟨⟨-, hname⟩, hvalue⟩ := ha _ List.mem_cons_self
          obtain ⟨⟨-, hname'⟩, hvalue'⟩ := hb _ List.mem_cons_self
          have htail := ih (fun a h => ha a (List.mem_cons_of_mem _ h))
            (fun b h => hb b (List.mem_cons_of_mem _ h))
          rw [List.flatMap_cons, List.flatMap_cons, printAttribute, printAttribute,
            List.cons_append, List.cons_append, List.append_assoc, List.append_assoc] at h
          -- the name ends with its last name character
          obtain ⟨rfl, h⟩ := run_unique (List.cons.inj h).2 hname hname' (stops_value value as)
            (stops_value value' bs)
          cases value with
          | none =>
              cases value' with
              | none => rw [htail h]
              | some v' => exact absurd h (attributes_ne_value as _)
          | some v =>
              cases value' with
              | none => exact absurd h.symm (attributes_ne_value bs _)
              | some v' =>
                  -- the value ends before the closing quote
                  have hclose : v ++ '"' :: as.flatMap printAttribute =
                      v' ++ '"' :: bs.flatMap printAttribute := by simpa [printValue] using h
                  obtain ⟨rfl, hmore⟩ := run_unique_of_not_mem hclose
                    (fun hq => (hvalue v rfl _ hq).2.2.1 rfl)
                    (fun hq => (hvalue' v' rfl _ hq).2.2.1 rfl)
                  rw [htail hmore]

/-- What stands between the angle brackets of a mark. -/
def body : Piece → Text
  | doctype => "!doctype html".toList
  | opening name attributes => name ++ attributes.flatMap printAttribute
  | closing name => '/' :: name
  | text _ => []

theorem print_mark {p : Piece} (h : p.isMark = true) : p.print = '<' :: (p.body ++ ['>']) := by
  cases p with
  | doctype => rfl
  | opening name attributes => rfl
  | closing name => rfl
  | text content => cases h

theorem IsName.not_mem {t : Text} (h : IsName t) {c : Char} (hc : Text.isNameChar c = false) :
    c ∉ t :=
  fun hmem => Bool.eq_false_iff.mp hc (h.2 c hmem)

theorem not_mem_printAttribute {a : Text × Option Text} (h : IsAttribute a) :
    '>' ∉ printAttribute a := by
  obtain ⟨name, value⟩ := a
  obtain ⟨hname, hvalue⟩ := h
  have hn : '>' ∉ name := hname.not_mem (by decide)
  cases value with
  | none => simp [printAttribute, printValue, hn]
  | some v =>
      have hv : '>' ∉ v := fun hmem => (hvalue v rfl _ hmem).2.1 rfl
      simp [printAttribute, printValue, hn, hv]

/-- A clean mark ends with its first `>`. -/
theorem not_mem_body {p : Piece} (h : p.Clean) : '>' ∉ p.body := by
  cases p with
  | doctype => decide
  | opening name attributes =>
      intro hmem
      rcases List.mem_append.mp hmem with hmem | hmem
      · exact h.1.not_mem (by decide) hmem
      · obtain ⟨a, ha, hmem⟩ := List.mem_flatMap.mp hmem
        exact not_mem_printAttribute (h.2 a ha) hmem
  | closing name =>
      intro hmem
      rcases List.mem_cons.mp hmem with hslash | hmem
      · exact absurd hslash (by decide)
      · exact h.not_mem (by decide) hmem
  | text content => exact List.not_mem_nil

/-- The first character of a start tag is a name character, that of another mark is not. -/
theorem body_opening {name : Text} (h : IsName name) (attributes : List (Text × Option Text)) :
    ∃ c t, body (opening name attributes) = c :: t ∧ Text.isNameChar c = true := by
  obtain ⟨hne, hname⟩ := h
  cases name with
  | nil => exact absurd rfl hne
  | cons c name => exact ⟨c, _, rfl, hname c List.mem_cons_self⟩

theorem opening_ne {name : Text} (h : IsName name) (attributes : List (Text × Option Text))
    {c : Char} (hc : Text.isNameChar c = false) (t : Text) :
    body (opening name attributes) ≠ c :: t := by
  obtain ⟨d, u, heq, hd⟩ := body_opening h attributes
  rw [heq]
  intro hcons
  rw [(List.cons.inj hcons).1, hc] at hd
  cases hd

/-- Clean marks with one body are the same. -/
theorem body_unique {p q : Piece} (hp : p.isMark = true) (hq : q.isMark = true) (cp : p.Clean)
    (cq : q.Clean) (h : p.body = q.body) : p = q := by
  cases p with
  | doctype =>
      cases q with
      | doctype => rfl
      | opening name attributes => exact absurd h.symm (opening_ne cq.1 attributes rfl _)
      | closing name => exact absurd (List.cons.inj h).1 (by decide)
      | text content => cases hq
  | opening name attributes =>
      cases q with
      | doctype => exact absurd h (opening_ne cp.1 attributes rfl _)
      | opening name' attributes' =>
          obtain ⟨rfl, has⟩ := run_unique h cp.1.2 cq.1.2 (stops_attributes attributes)
            (stops_attributes attributes')
          rw [attributes_unique cp.2 cq.2 has]
      | closing name' => exact absurd h (opening_ne cp.1 attributes rfl _)
      | text content => cases hq
  | closing name =>
      cases q with
      | doctype => exact absurd (List.cons.inj h).1 (by decide)
      | opening name' attributes => exact absurd h.symm (opening_ne cq.1 attributes rfl _)
      | closing name' => rw [(List.cons.inj h).2]
      | text content => cases hq
  | text content => cases hp

/-- A text that reads as some marks, with text free of `<` before, between and after them. -/
def Reads : List Piece → Text → Prop
  | [], t => '<' ∉ t
  | m :: ms, t => ∃ before rest, t = before ++ m.print ++ rest ∧ '<' ∉ before ∧ Reads ms rest

theorem Reads.prepend {ms : List Piece} {t : Text} (h : Reads ms t) {before : Text}
    (hb : '<' ∉ before) : Reads ms (before ++ t) := by
  cases ms with
  | nil =>
      intro hmem
      exact (List.mem_append.mp hmem).elim hb h
  | cons m ms =>
      obtain ⟨first, rest, rfl, hf, hrest⟩ := h
      refine ⟨before ++ first, rest, by simp only [List.append_assoc], fun hmem => ?_, hrest⟩
      exact (List.mem_append.mp hmem).elim hb hf

/-- Clean pieces are read as their marks. -/
theorem reads_printAll {ps : List Piece} (h : ∀ p ∈ ps, p.Clean) :
    Reads (marks ps) (printAll ps) := by
  induction ps with
  | nil => exact List.not_mem_nil
  | cons p ps ih =>
      have hrest := ih fun q hq => h q (List.mem_cons_of_mem _ hq)
      have hp := h p List.mem_cons_self
      cases hm : p.isMark with
      | true =>
          rw [marks, List.filter_cons_of_pos hm]
          exact ⟨[], printAll ps, rfl, List.not_mem_nil, hrest⟩
      | false =>
          rw [marks, List.filter_cons_of_neg (by simp [hm])]
          cases p with
          | text content => exact hrest.prepend fun hmem => (hp _ hmem).1 rfl
          | doctype => cases hm
          | opening name attributes => cases hm
          | closing name => cases hm

theorem reads_unique {ms ns : List Piece} (hm : ∀ m ∈ ms, m.isMark = true ∧ m.Clean)
    (hn : ∀ n ∈ ns, n.isMark = true ∧ n.Clean) {t : Text} (h : Reads ms t) (h' : Reads ns t) :
    ms = ns := by
  induction ms generalizing ns t with
  | nil =>
      cases ns with
      | nil => rfl
      | cons n ns =>
          obtain ⟨before, rest, rfl, -, -⟩ := h'
          rw [print_mark (hn n List.mem_cons_self).1] at h
          exact absurd h (by simp [Reads])
  | cons m ms ih =>
      obtain ⟨hmark, hclean⟩ := hm m List.mem_cons_self
      obtain ⟨before, rest, rfl, hb, hrest⟩ := h
      cases ns with
      | nil =>
          rw [print_mark hmark] at h'
          exact absurd h' (by simp [Reads])
      | cons n ns =>
          obtain ⟨hmark', hclean'⟩ := hn n List.mem_cons_self
          obtain ⟨before', rest', heq, hb', hrest'⟩ := h'
          rw [print_mark hmark, print_mark hmark'] at heq
          simp only [List.append_assoc, List.cons_append, List.nil_append] at heq
          -- the text ends before the first `<`, and the mark with the first `>` after it
          obtain ⟨rfl, htail⟩ := run_unique_of_not_mem heq hb hb'
          obtain ⟨hbody, rfl⟩ := run_unique_of_not_mem htail (not_mem_body hclean)
            (not_mem_body hclean')
          rw [body_unique hmark hmark' hclean hclean' hbody,
            ih (fun m h => hm m (List.mem_cons_of_mem _ h))
              (fun n h => hn n (List.mem_cons_of_mem _ h)) hrest hrest']

/-- **One reading.**  Clean pieces with one written form have the same marks. -/
theorem marks_eq_of_printAll_eq {ps qs : List Piece} (hp : ∀ p ∈ ps, p.Clean)
    (hq : ∀ q ∈ qs, q.Clean) (h : printAll ps = printAll qs) : marks ps = marks qs := by
  have hmarks : ∀ {rs : List Piece}, (∀ r ∈ rs, r.Clean) →
      ∀ m ∈ marks rs, m.isMark = true ∧ m.Clean := by
    intro rs hr m hm
    obtain ⟨hmem, hmark⟩ := List.mem_filter.mp hm
    exact ⟨hmark, hr m hmem⟩
  exact reads_unique (hmarks hp) (hmarks hq) (reads_printAll hp) (h ▸ reads_printAll hq)

/-! ### Pieces of tokens -/

/-- The pieces of a token.  The line feed of a document type and of an end tag is text. -/
def ofToken : Token → List Piece
  | .doctype => [doctype, text ['\n']]
  | .text content => [text content]
  | .opening tag attributes =>
      [opening tag.name (attributes.map fun a => (a.name, a.value.map Html.escape))]
  | .closing tag => [closing tag.name, text ['\n']]

/-- The pieces of a sequence of tokens. -/
def ofTokens (tokens : List Token) : List Piece :=
  tokens.flatMap ofToken

theorem printAttribute_escape (a : Html.Attribute) :
    printAttribute (a.name, a.value.map Html.escape) = a.print := by
  obtain ⟨name, value⟩ := a
  cases value with
  | none => simp [printAttribute, printValue, Html.Attribute.print]
  | some v => simp [printAttribute, printValue, Html.Attribute.print]

theorem printAll_ofToken (token : Token) : printAll (ofToken token) = token.print := by
  cases token with
  | doctype =>
      show "<!doctype html>".toList ++ ['\n'] = "<!doctype html>\n".toList
      decide
  | text content => exact List.append_nil content
  | opening tag attributes =>
      show '<' :: (tag.name ++ (attributes.map _).flatMap printAttribute ++ ['>']) ++ [] =
        '<' :: (tag.name ++ attributes.flatMap Html.Attribute.print ++ ['>'])
      rw [List.append_nil, List.flatMap_map]
      simp only [printAttribute_escape]
  | closing tag =>
      show '<' :: '/' :: (tag.name ++ ['>']) ++ ['\n'] = '<' :: '/' :: (tag.name ++ ['>', '\n'])
      simp

/-- The pieces of tokens have the written form of the tokens. -/
theorem printAll_ofTokens (tokens : List Token) :
    printAll (ofTokens tokens) = Token.printAll tokens := by
  rw [printAll, ofTokens, List.flatMap_assoc, Token.printAll]
  exact congrArg (tokens.flatMap ·) (funext printAll_ofToken)

/-- The pieces of balanced tokens nest. -/
theorem nested_ofTokens {tokens : List Token} (h : Html.Balanced tokens) :
    Nested (ofTokens tokens) := by
  induction h with
  | nil => exact .nil
  | doctype _ ih => exact .doctype (.text _ ih)
  | text content _ ih => exact .text content ih
  | element tag attributes _ _ hinner hrest =>
      have hpieces := Nested.element tag.name
        (attributes.map fun a => (a.name, a.value.map Html.escape)) hinner (.text ['\n'] hrest)
      simpa [ofTokens, ofToken] using hpieces

end Piece

end IndentHtml
