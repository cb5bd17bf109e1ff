import MonkeySyntax.Token.Basic

/-! Syntax trees: operators, expressions, statements and programs, and their written form, which has
every operation in parentheses. -/
namespace MonkeySyntax

inductive UnaryOp
  | not
  | neg
deriving DecidableEq

inductive BinaryOp
  | add
  | sub
  | mul
  | div
  | lt
  | gt
  | eq
  | ne
deriving DecidableEq

namespace UnaryOp

def kind : UnaryOp → TokenKind
  | not => .bang
  | neg => .minus

/-- The operator that a kind of token stands for before an operand. -/
def ofKind? : TokenKind → Option UnaryOp
  | .bang => some not
  | .minus => some neg
  | _ => none

def symbol (o : UnaryOp) : String := o.kind.name

theorem ofKind?_eq_some_iff {k : TokenKind} {o : UnaryOp} : ofKind? k = some o ↔ k = o.kind := by
  cases k <;> cases o <;> decide

end UnaryOp

namespace BinaryOp

def kind : BinaryOp → TokenKind
  | add => .plus
  | sub => .minus
  | mul => .asterisk
  | div => .slash
  | lt => .less
  | gt => .greater
  | eq => .equal
  | ne => .notEqual

def ofKind? : TokenKind → Option BinaryOp
  | .plus => some add
  | .minus => some sub
  | .asterisk => some mul
  | .slash => some div
  | .less => some lt
  | .greater => some gt
  | .equal => some eq
  | .notEqual => some ne
  | _ => none

def symbol (o : BinaryOp) : String := o.kind.name

theorem ofKind?_eq_some_iff {k : TokenKind} {o : BinaryOp} : ofKind? k = some o ↔ k = o.kind := by
  cases k <;> cases o <;> decide

theorem kind_ne_eof (o : BinaryOp) : o.kind ≠ .eof := by
  cases o <;> decide

end BinaryOp

/-- A name, and the token that spells it. -/
structure Identifier where
  token : Token
  value : String
deriving DecidableEq

/-- An expression. Each node keeps its token, which is the operator's for an operation. -/
inductive Expr
  | ident (name : Identifier)
  | int (token : Token) (value : Int)
  | bool (token : Token) (value : Bool)
  | unary (token : Token) (op : UnaryOp) (operand : Expr)
  | binary (token : Token) (op : BinaryOp) (left right : Expr)
deriving DecidableEq

namespace Expr

def token : Expr → Token
  | ident name => name.token
  | int t _ => t
  | bool t _ => t
  | unary t _ _ => t
  | binary t _ _ _ => t

def literal (e : Expr) : String := e.token.literal

/-- The written form. An integer keeps the digits it was read from. -/
def render : Expr → String
  | ident name => name.value
  | int t _ => t.literal
  | bool t _ => t.literal
  | unary _ op operand => "(" ++ op.symbol ++ operand.render ++ ")"
  | binary _ op left right => "(" ++ left.render ++ " " ++ op.symbol ++ " " ++ right.render ++ ")"

end Expr

/-- A statement. The token is its first one: the keyword, or the first token of the expression. -/
inductive Stmt
  | binding (token : Token) (name : Identifier) (value : Expr)
  | ret (token : Token) (value : Expr)
  | expr (token : Token) (value : Expr)
deriving DecidableEq

namespace Stmt

def token : Stmt → Token
  | binding t _ _ => t
  | ret t _ => t
  | expr t _ => t

def value : Stmt → Expr
  | binding _ _ e => e
  | ret _ e => e
  | expr _ e => e

def literal (s : Stmt) : String := s.token.literal

/-- The written form. A keyword is spelled as its token is. -/
def render : Stmt → String
  | binding t name e => t.literal ++ " " ++ name.value ++ " = " ++ e.render ++ ";"
  | ret t e => t.literal ++ " " ++ e.render ++ ";"
  | expr _ e => e.render

end Stmt

structure Program where
  statements : List Stmt
deriving DecidableEq

namespace Program

/-- The text of the first statement's token; empty for the empty program. -/
def literal (p : Program) : String :=
  match p.statements with
  | [] => ""
  | s :: _ => s.literal

def render (p : Program) : String :=
  String.join (p.statements.map Stmt.render)

/-- The statements one a line. -/
def listing (p : Program) : String :=
  String.join (p.statements.map fun s => s.render ++ "\n")

end Program
end MonkeySyntax
