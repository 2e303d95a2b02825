import IndentHtml.Text.Basic

/-!
# HTML

A page is a sequence of tokens: the document type, start tags, end tags and text.  The HTML of a
page is its tokens printed one after the other.  A tag remembers the level of the line that
opened it, which is not printed.

Five characters have a meaning of their own in HTML and are written as entities, in text and in
attribute values alike.  An attribute is a name with or without a value.  The value is kept as it
is meant and escaped when it is written.
-/

namespace IndentHtml

namespace Html

/-! ### Escaping -/

/-- The written form of a character. -/
def entity : Char → Text
  | '&' => "&amp;".toList
  | '<' => "&lt;".toList
  | '>' => "&gt;".toList
  | '"' => "&quot;".toList
  | '\'' => "&#039;".toList
  | c => [c]

/-- The written form of a text. -/
def escape (t : Text) : Text :=
  t.flatMap entity

@[simp] theorem escape_nil : escape [] = [] := rfl

@[simp] theorem escape_cons (c : Char) (t : Text) : escape (c :: t) = entity c ++ escape t := rfl

@[simp] theorem escape_append (t u : Text) : escape (t ++ u) = escape t ++ escape u := by
  simp [escape]

/-! ### Attributes -/

/-- An attribute: a name, and a value unless it is a bare flag. -/
structure Attribute where
  name : Text
  value : Option Text
  deriving DecidableEq, Repr

namespace Attribute

/-- The written form, with the space that precedes it. -/
def print (a : Attribute) : Text :=
  match a.value with
  | none => ' ' :: a.name
  | some v => ' ' :: (a.name ++ '=' :: '"' :: (escape v ++ ['"']))

/-- The written form of a list of attributes. -/
def printAll (as : List Attribute) : Text :=
  as.flatMap print

end Attribute

/-! ### Tokens -/

/-- A tag that has been opened, with the level of the line that opened it. -/
structure Tag where
  name : Text
  level : Nat
  deriving DecidableEq, Repr

/-- A token of a page. -/
inductive Token where
  | doctype
  /-- Text in its written form. -/
  | text (content : Text)
  | opening (tag : Tag) (attributes : List Attribute)
  | closing (tag : Tag)
  deriving DecidableEq, Repr

namespace Token

/-- The written form of a token.  The document type and an end tag fill a line each. -/
def print : Token → Text
  | doctype => "<!doctype html>\n".toList
  | text content => content
  | opening tag attributes => '<' :: (tag.name ++ Attribute.printAll attributes ++ ['>'])
  | closing tag => '<' :: '/' :: (tag.name ++ ['>', '\n'])

/-- The HTML of a sequence of tokens. -/
def printAll (tokens : List Token) : Text :=
  tokens.flatMap print

@[simp] theorem printAll_nil : printAll [] = [] := rfl

@[simp] theorem printAll_append (ts us : List Token) :
    printAll (ts ++ us) = printAll ts ++ printAll us := by
  simp [printAll]

end Token

end Html

end IndentHtml
