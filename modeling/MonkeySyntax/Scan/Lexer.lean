import MonkeySyntax.Text
import MonkeySyntax.Token.Replay

/-! Scanning a text for tokens, from one character boundary to the next, and lexers, whose byte
position can be put anywhere, also inside a character or past the end of the text. -/
namespace MonkeySyntax.Scan

def isWordStart (c : Char) : Bool := c.isAlpha || c = '_'

def isWordChar (c : Char) : Bool := c.isAlphanum || c = '_'

/-- The kind of the token at the head of `c :: cs`, and how many characters of `cs` belong to it. -/
def headToken (c : Char) (cs : List Char) : TokenKind × Nat :=
  if isWordStart c then
    let tail := cs.takeWhile isWordChar
    (.ofWord (String.ofList (c :: tail)), tail.length)
  else if c.isDigit then (.integer, (cs.takeWhile Char.isDigit).length)
  else if c = '=' ∧ cs.head? = some '=' then (.equal, 1)
  else if c = '!' ∧ cs.head? = some '=' then (.notEqual, 1)
  else (.ofSymbol c, 0)

theorem headToken_kind_ne_eof (c : Char) (cs : List Char) : (headToken c cs).1 ≠ .eof := by
  unfold headToken
  split
  · exact TokenKind.ofWord_ne_eof _
  split
  · simp
  split
  · simp
  split
  · simp
  · exact TokenKind.ofSymbol_ne_eof c

theorem headToken_length_le (c : Char) (cs : List Char) : (headToken c cs).2 ≤ cs.length := by
  unfold headToken
  split
  · exact (List.takeWhile_sublist isWordChar).length_le
  split
  · exact (List.takeWhile_sublist Char.isDigit).length_le
  split
  · grind
  split
  · grind
  · exact Nat.zero_le _

end MonkeySyntax.Scan

namespace MonkeySyntax

open Scan Text

def defaultFile : String := "repl"

/-- A scanner stands at the byte `offset` of its source, before the characters `rest`. -/
structure Scanner where
  file : String
  offset : Nat
  rest : List Char

namespace Scanner

def ofText (text : String) (file : String) : Scanner := ⟨file, 0, text.toList⟩

def drop (n : Nat) (s : Scanner) : Scanner :=
  ⟨s.file, s.offset + utf8Length (s.rest.take n), s.rest.drop n⟩

def skipBlanks (s : Scanner) : Scanner :=
  s.drop (s.rest.takeWhile isBlank).length

/-- The next `n` characters as a token. -/
def token (kind : TokenKind) (n : Nat) (s : Scanner) : Token :=
  ⟨kind, String.ofList (s.rest.take n), .ofBytes s.file s.offset (utf8Length (s.rest.take n))⟩

/-- Reads the token that starts here; at the end of the text that is the end token. -/
def read (s : Scanner) : Token × Scanner :=
  match s.rest with
  | [] => (s.token .eof 0, s)
  | c :: cs =>
    let (kind, n) := headToken c cs
    (s.token kind (n + 1), s.drop (n + 1))

def next (s : Scanner) : Token × Scanner := s.skipBlanks.read

@[simp] theorem rest_drop (n : Nat) (s : Scanner) : (s.drop n).rest = s.rest.drop n := rfl

theorem rest_skipBlanks (s : Scanner) : s.skipBlanks.rest = s.rest.dropWhile isBlank := by
  have h : s.rest.takeWhile isBlank ++ s.rest.dropWhile isBlank = s.rest :=
    List.takeWhile_append_dropWhile
  calc s.rest.drop (s.rest.takeWhile isBlank).length
      = (s.rest.takeWhile isBlank ++ s.rest.dropWhile isBlank).drop
          (s.rest.takeWhile isBlank).length := by rw [h]
    _ = s.rest.dropWhile isBlank := List.drop_left

theorem drop_drop (m n : Nat) (s : Scanner) : (s.drop m).drop n = s.drop (m + n) := by
  simp [drop, List.take_add, Nat.add_assoc]

theorem length_rest_read (s : Scanner) : s.read.2.rest.length ≤ s.rest.length - 1 := by
  unfold read
  split
  · simp [*]
  · simp only [rest_drop, List.length_drop]
    omega

theorem length_rest_next (s : Scanner) : s.next.2.rest.length ≤ s.rest.length - 1 := by
  have h := s.skipBlanks.length_rest_read
  have : s.skipBlanks.rest.length ≤ s.rest.length := by
    simp only [skipBlanks, rest_drop, List.length_drop]
    omega
  unfold next
  omega

/-- Reading finds the end exactly where no text is left. -/
theorem kind_read_eq_eof_iff (s : Scanner) : s.read.1.kind = .eof ↔ s.rest = [] := by
  unfold read
  split
  · simp [token, *]
  · next c cs hr => simp [token, hr, headToken_kind_ne_eof]

instance : TokenSource Scanner where
  next := next
  horizon s := s.rest.length
  horizon_next := length_rest_next
  kind_next s hs := by
    rw [next, kind_read_eq_eof_iff, rest_skipBlanks, List.eq_nil_of_length_eq_zero hs]
    rfl

end Scanner

def tokenize (text : String) (file : String) : List Token :=
  TokenSource.toList (Scanner.ofText text file)

/-- A text, and a byte of it or behind it. -/
structure Lexer where
  file : String
  text : List Char
  position : Nat

namespace Lexer

def ofText (text : String) (file : String) : Lexer := ⟨file, text.toList, 0⟩

def atEnd (l : Lexer) : Bool := utf8Length l.text ≤ l.position

/-- The lexer `n` bytes further on. -/
def advance (n : Nat) (l : Lexer) : Lexer := { l with position := l.position + n }

def spanOf (n : Nat) (l : Lexer) : Span := .ofBytes l.file l.position n

/-- The text from the position on. There is none inside a character or past the end. -/
def remainder? (l : Lexer) : Option String := (dropBytes l.position l.text).map String.ofList

/-- The scanner at the position. There is none inside a character; past the end it has no text. -/
def scanner? (l : Lexer) : Option Scanner :=
  if l.atEnd then some ⟨l.file, l.position, []⟩
  else (dropBytes l.position l.text).map fun rest => ⟨l.file, l.position, rest⟩

def next? (l : Lexer) : Option (Token × Lexer) :=
  l.scanner?.map fun s => (s.next.1, { l with position := s.next.2.offset })

theorem scanner?_ofText (text file : String) :
    (ofText text file).scanner? = some (Scanner.ofText text file) := by
  unfold scanner?
  split
  · next h =>
    have hb : utf8Length text.toList ≤ 0 := by simpa [atEnd, ofText] using h
    have hl := length_le_utf8Length text.toList
    have : text.toList = [] := List.eq_nil_of_length_eq_zero (by omega)
    simp [ofText, Scanner.ofText, this]
  · simp [ofText, Scanner.ofText, dropBytes]

end Lexer
end MonkeySyntax
