import MonkeySyntax.Token.Basic

/-! Grammars: which rule reads a statement or an operand that starts with a token of a given kind,
and how tightly a token of a given kind binds as a binary operator. -/
namespace MonkeySyntax

/-- Binding powers, lowest first. -/
inductive Power
  | lowest
  | equality
  | relational
  | additive
  | multiplicative
  | unary
  | call
deriving DecidableEq

namespace Power

def rank : Power → Nat
  | lowest => 0
  | equality => 1
  | relational => 2
  | additive => 3
  | multiplicative => 4
  | unary => 5
  | call => 6

instance : LT Power := ⟨fun p q => p.rank < q.rank⟩

instance : LE Power := ⟨fun p q => p.rank ≤ q.rank⟩

instance (p q : Power) : Decidable (p < q) := inferInstanceAs (Decidable (p.rank < q.rank))

instance (p q : Power) : Decidable (p ≤ q) := inferInstanceAs (Decidable (p.rank ≤ q.rank))

instance : Ord Power := ⟨fun p q => compare p.rank q.rank⟩

theorem lt_iff_rank_lt {p q : Power} : p < q ↔ p.rank < q.rank := Iff.rfl

theorem le_iff_rank_le {p q : Power} : p ≤ q ↔ p.rank ≤ q.rank := Iff.rfl

theorem lowest_le (p : Power) : lowest ≤ p := Nat.zero_le p.rank

end Power

inductive OperandRule
  | identifier
  | integer
  | boolean
  | unary
  | group
deriving DecidableEq

inductive StmtRule
  | binding
  | ret
  | expr
deriving DecidableEq

/-- A statement that no rule of its own claims is an expression. -/
structure Grammar where
  statement : TokenKind → Option StmtRule
  operand : TokenKind → Option OperandRule
  operator : TokenKind → Option Power

namespace Grammar

/-- The grammar of the language. -/
def standard : Grammar where
  statement
    | .kwLet => some .binding
    | .kwReturn => some .ret
    | _ => none
  operand
    | .identifier => some .identifier
    | .integer => some .integer
    | .kwTrue | .kwFalse => some .boolean
    | .bang | .minus => some .unary
    | .openParen => some .group
    | _ => none
  operator
    | .equal | .notEqual => some .equality
    | .less | .greater => some .relational
    | .plus | .minus => some .additive
    | .asterisk | .slash => some .multiplicative
    | _ => none

def setStatement (k : TokenKind) (r : StmtRule) (g : Grammar) : Grammar :=
  { g with statement := fun j => if j = k then some r else g.statement j }

def setOperand (k : TokenKind) (r : OperandRule) (g : Grammar) : Grammar :=
  { g with operand := fun j => if j = k then some r else g.operand j }

def setOperator (k : TokenKind) (p : Power) (g : Grammar) : Grammar :=
  { g with operator := fun j => if j = k then some p else g.operator j }

/-- The power of a kind; kinds that are no operator have the lowest. -/
def power (g : Grammar) (k : TokenKind) : Power := (g.operator k).getD .lowest

/-- The power of an operator that continues an expression read at power `p`: it binds tighter than
`p`. A semicolon never continues an expression. -/
def continuation? (g : Grammar) (p : Power) (k : TokenKind) : Option Power :=
  if k = .semicolon then none else (g.operator k).filter fun q => p < q

def statementKinds (g : Grammar) : List TokenKind :=
  TokenKind.all.filter fun k => (g.statement k).isSome

def operandKinds (g : Grammar) : List TokenKind :=
  TokenKind.all.filter fun k => (g.operand k).isSome

def operatorKinds (g : Grammar) : List TokenKind :=
  TokenKind.all.filter fun k => (g.operator k).isSome

theorem continuation?_eq_some_iff {g : Grammar} {p q : Power} {k : TokenKind} :
    g.continuation? p k = some q ↔ k ≠ .semicolon ∧ g.operator k = some q ∧ p < q := by
  unfold continuation?
  split <;> simp [*, Option.filter_eq_some_iff]

/-- An expression goes on at the next token exactly if that token has a higher power. -/
theorem continuation?_eq_none_iff {g : Grammar} {p : Power} {k : TokenKind} :
    g.continuation? p k = none ↔ k = .semicolon ∨ g.power k ≤ p := by
  unfold continuation? power
  split
  · simp [*]
  · cases h : g.operator k with
    | none => simp [*, Power.lowest_le]
    | some q => simp [*, Option.filter, Power.lt_iff_rank_lt, Power.le_iff_rank_le]

end Grammar
end MonkeySyntax
