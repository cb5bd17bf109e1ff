/-! Tokens: a kind, the text it was read from, and where in a source that text stands. Places in a
source are byte offsets, kept in 32 bits, with the name of the source. -/
namespace MonkeySyntax

/-- The largest offset that a position holds. Larger ones stay there. -/
def maxOffset : Nat := 4294967295

def clampOffset (n : Nat) : Nat :=
  min n maxOffset

theorem clampOffset_of_le {n : Nat} (h : n ≤ maxOffset) : clampOffset n = n :=
  Nat.min_eq_left h

structure Position where
  offset : Nat
  file : String
deriving DecidableEq

namespace Position

/-- The place of something that comes from no source. -/
def unknown : Position := ⟨0, "<null>"⟩

def ofByte (file : String) (n : Nat) : Position := ⟨clampOffset n, file⟩

end Position

/-- A stretch of a source, up to but not including the byte where it stops. -/
structure Span where
  start : Position
  stop : Position
deriving DecidableEq

namespace Span

def empty (p : Position) : Span := ⟨p, p⟩

/-- The span of `length` bytes from the byte `n` of the source `file`. -/
def ofBytes (file : String) (n length : Nat) : Span :=
  ⟨Position.ofByte file n, Position.ofByte file (n + length)⟩

end Span

/-- What a token is, apart from its spelling. -/
inductive TokenKind
  | illegal
  | eof
  | identifier
  | integer
  | assign
  | plus
  | minus
  | bang
  | asterisk
  | slash
  | less
  | greater
  | equal
  | notEqual
  | comma
  | semicolon
  | openParen
  | closeParen
  | openBrace
  | closeBrace
  | kwFunction
  | kwLet
  | kwTrue
  | kwFalse
  | kwIf
  | kwElse
  | kwReturn
deriving DecidableEq

namespace TokenKind

def name : TokenKind → String
  | illegal => "ILLEGAL"
  | eof => "EOF"
  | identifier => "IDENT"
  | integer => "INT"
  | assign => "="
  | plus => "+"
  | minus => "-"
  | bang => "!"
  | asterisk => "*"
  | slash => "/"
  | less => "<"
  | greater => ">"
  | equal => "=="
  | notEqual => "!="
  | comma => ","
  | semicolon => ";"
  | openParen => "("
  | closeParen => ")"
  | openBrace => "\x7b"
  | closeBrace => "\x7d"
  | kwFunction => "FUNCTION"
  | kwLet => "LET"
  | kwTrue => "TRUE"
  | kwFalse => "FALSE"
  | kwIf => "IF"
  | kwElse => "ELSE"
  | kwReturn => "RETURN"

/-- Every kind, in the order of their names. -/
def all : List TokenKind :=
  [bang, notEqual, openParen, closeParen, asterisk, plus, comma, minus, slash, semicolon, less,
    assign, equal, greater, kwElse, eof, kwFalse, kwFunction, identifier, kwIf, illegal, integer,
    kwLet, kwReturn, kwTrue, openBrace, closeBrace]

def ofName? (s : String) : Option TokenKind :=
  all.find? fun k => k.name = s

def reserved : List (String × TokenKind) :=
  [("fn", kwFunction), ("let", kwLet), ("true", kwTrue), ("false", kwFalse), ("if", kwIf),
    ("else", kwElse), ("return", kwReturn)]

def ofReserved? (word : String) : Option TokenKind :=
  reserved.lookup word

/-- The kind of a word: its own if the word is reserved, an identifier otherwise. -/
def ofWord (word : String) : TokenKind :=
  (ofReserved? word).getD identifier

/-- The kind of a character that is a token by itself; a character with no other use is illegal. -/
def ofSymbol : Char → TokenKind
  | '!' => bang
  | '=' => assign
  | '<' => less
  | '>' => greater
  | '+' => plus
  | '-' => minus
  | '*' => asterisk
  | '/' => slash
  | ',' => comma
  | ';' => semicolon
  | '(' => openParen
  | ')' => closeParen
  | '\x7b' => openBrace
  | '\x7d' => closeBrace
  | _ => illegal

theorem ofWord_ne_eof (word : String) : ofWord word ≠ eof := by
  have h : ∀ ps : List (String × TokenKind), (∀ p ∈ ps, p.2 ≠ eof) →
      (ps.lookup word).getD identifier ≠ eof := by
    intro ps
    induction ps with
    | nil => simp
    | cons p ps ih =>
      intro hp
      rw [List.lookup_cons]
      split
      · simpa using hp p (by simp)
      · exact ih fun q hq => hp q (by simp [hq])
  exact h reserved (by decide)

theorem ofSymbol_ne_eof (c : Char) : ofSymbol c ≠ eof := by
  unfold ofSymbol
  split <;> decide

end TokenKind

structure Token where
  kind : TokenKind
  literal : String
  span : Span
deriving DecidableEq

namespace Token

/-- The written form of a token in token listings. -/
def render (t : Token) : String :=
  "\x7bType:" ++ t.kind.name ++ " Literal:" ++ t.literal ++ "\x7d"

def isOneOf (t : Token) (kinds : List TokenKind) : Bool :=
  kinds.contains t.kind

/-- The end of a source, at `p`. -/
def endAt (p : Position) : Token := ⟨.eof, "", .empty p⟩

end Token
end MonkeySyntax
