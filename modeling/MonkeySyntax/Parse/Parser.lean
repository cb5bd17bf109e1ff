import MonkeySyntax.Parse.Program
import MonkeySyntax.Scan.Lexer

/-! Parsers: a window on a source, a grammar that can be changed, and the number of levels that are
open. Every rule can be run by itself on whatever is current. -/
namespace MonkeySyntax

/-- A parser. `depth` counts the open levels. -/
structure Parser (σ : Type) where
  window : Window σ
  grammar : Grammar
  depth : Nat

namespace Parser

variable {σ : Type} [TokenSource σ] {α : Type}

def ofSource (s : σ) : Parser σ := ⟨.ofSource s, .standard, 0⟩

def current (p : Parser σ) : Token := p.window.current

def peek (p : Parser σ) : Token := p.window.peek

def position (p : Parser σ) : Position := p.current.span.start

def currentPower (p : Parser σ) : Power := p.grammar.power p.current.kind

def peekPower (p : Parser σ) : Power := p.grammar.power p.peek.kind

def advance (p : Parser σ) : Parser σ := { p with window := p.window.advance }

/-- Runs a step. Its grammar and its open levels stay the parser's. -/
def run (step : Step σ α) (p : Parser σ) : Except Diagnostic α × Parser σ :=
  ((step.run p.window).1, { p with window := (step.run p.window).2 })

def expect (k : TokenKind) (p : Parser σ) : Except Diagnostic Token × Parser σ :=
  p.run (.expect k)

/-- Opens a level, if one is left. -/
def enter (p : Parser σ) : Except Diagnostic (Parser σ) :=
  if p.depth < nestingLimit then .ok { p with depth := p.depth + 1 }
  else .error ⟨.tooDeep nestingLimit, p.position⟩

def exit (p : Parser σ) : Parser σ := { p with depth := p.depth - 1 }

/-- The step that reads an expression in the levels that are left. -/
def exprStep (p : Parser σ) (q : Power) : Step σ Expr :=
  p.grammar.readExpr (nestingLimit - p.depth) q

/-- Reads an expression whose operators bind tighter than `q`. -/
def expr (q : Power) (p : Parser σ) : Except Diagnostic Expr × Parser σ :=
  p.run (p.exprStep q)

def operand (rule : OperandRule) (p : Parser σ) : Except Diagnostic Expr × Parser σ :=
  p.run (rule.read p.exprStep)

/-- Reads the current token as an operator behind `left`. -/
def binary (left : Expr) (q : Power) (p : Parser σ) : Except Diagnostic Expr × Parser σ :=
  p.run (readBinary p.exprStep left q)

/-- Reads the statement at the current token by the rule that the grammar has for it. -/
def stmt (p : Parser σ) : Except Diagnostic Stmt × Parser σ :=
  p.run (p.grammar.readStmt p.exprStep)

def stmtBy (rule : StmtRule) (p : Parser σ) : Except Diagnostic Stmt × Parser σ :=
  p.run (rule.read p.exprStep)

def setStatement (k : TokenKind) (rule : StmtRule) (p : Parser σ) : Parser σ :=
  { p with grammar := p.grammar.setStatement k rule }

def setOperand (k : TokenKind) (rule : OperandRule) (p : Parser σ) : Parser σ :=
  { p with grammar := p.grammar.setOperand k rule }

def setOperator (k : TokenKind) (q : Power) (p : Parser σ) : Parser σ :=
  { p with grammar := p.grammar.setOperator k q }

def program (p : Parser σ) : Parsed :=
  let result := readAll (p.grammar.readStmt p.exprStep) p.window
  ⟨result.1, result.2.pulled⟩

end Parser

def parse {σ : Type} [TokenSource σ] (source : σ) : Parsed := (Parser.ofSource source).program

def parseText (text : String) (file : String) : Parsed := parse (Scanner.ofText text file)

end MonkeySyntax
