import MonkeySyntax.Grammar
import MonkeySyntax.Parse.Step
import MonkeySyntax.Tree

/-! Reading expressions: an operand, then operators for as long as they bind tightly enough. Each
expression inside another opens a level, and the number of levels is limited. Integers are decimal
numerals of 64 bits. -/
namespace MonkeySyntax

namespace Numeral

def digitsValue (ds : List Char) : Nat :=
  ds.foldl (fun n d => 10 * n + (d.toNat - '0'.toNat)) 0

def natural? (ds : List Char) : Option Nat :=
  if ds ≠ [] ∧ ds.all Char.isDigit then some (digitsValue ds) else none

/-- The value of a numeral with at most one sign. -/
def signed? : List Char → Option Int
  | '+' :: ds => (natural? ds).map Int.ofNat
  | '-' :: ds => (natural? ds).map fun n => -Int.ofNat n
  | ds => (natural? ds).map Int.ofNat

/-- The integers that 64 bits hold. -/
def InRange (v : Int) : Prop := -9223372036854775808 ≤ v ∧ v ≤ 9223372036854775807

instance (v : Int) : Decidable (InRange v) := inferInstanceAs (Decidable (_ ∧ _))

/-- The value of a numeral, if it is in range. -/
def value? (s : String) : Option Int :=
  (signed? s.toList).filter fun v => InRange v

theorem value?_eq_some_iff {s : String} {v : Int} :
    value? s = some v ↔ signed? s.toList = some v ∧ InRange v := by
  simp [value?, Option.filter_eq_some_iff]

end Numeral

open Step

variable {σ : Type} [TokenSource σ]

/-- How many levels of expressions may be open at once. -/
def nestingLimit : Nat := 128

namespace OperandRule

def readIdentifier : Step σ Expr := do
  let t ← current
  return .ident ⟨t, t.literal⟩

def readInteger : Step σ Expr := do
  let t ← current
  match Numeral.value? t.literal with
  | some v => return .int t v
  | none => fail (.badInteger t.literal)

def readBoolean : Step σ Expr := do
  let t ← current
  return .bool t (t.kind = .kwTrue)

/-- Reads an operator and its operand, which binds as tightly as unary operators do. -/
def readUnary (nested : Power → Step σ Expr) : Step σ Expr := do
  let t ← current
  match UnaryOp.ofKind? t.kind with
  | none => fail (.noOperand t.kind)
  | some op =>
    advance
    let e ← nested .unary
    return .unary t op e

/-- Reads an expression in parentheses. The parentheses leave no trace in the tree. -/
def readGroup (nested : Power → Step σ Expr) : Step σ Expr := do
  advance
  let e ← nested .lowest
  let _ ← expect .closeParen
  return e

def read (nested : Power → Step σ Expr) : OperandRule → Step σ Expr
  | identifier => readIdentifier
  | integer => readInteger
  | boolean => readBoolean
  | unary => readUnary nested
  | group => readGroup nested

end OperandRule

def Grammar.readOperand (g : Grammar) (nested : Power → Step σ Expr) : Step σ Expr := do
  let t ← current
  match g.operand t.kind with
  | some rule => rule.read nested
  | none => fail (.noOperand t.kind)

/-- Reads the operator at the current token and its right operand. The right operand binds tighter
than `p`, so operators of one power group to the left. -/
def readBinary (nested : Power → Step σ Expr) (left : Expr) (p : Power) : Step σ Expr := do
  let t ← current
  match BinaryOp.ofKind? t.kind with
  | none => fail (.noOperator t.kind)
  | some op =>
    advance
    let right ← nested p
    return .binary t op left right

/-- Only an operator can be read as one. -/
theorem current_ne_eof_of_readBinary {nested : Power → Step σ Expr} {left e : Expr} {p : Power}
    {w v : Window σ} (h : (readBinary nested left p).run w = (.ok e, v)) :
    w.current.kind ≠ .eof := by
  intro hw
  simp [readBinary, run_bind, current, hw, BinaryOp.ofKind?, fail] at h

/-- Takes `left` for the left operand of the operators that follow, for as long as they bind
tighter than `p`. -/
def Grammar.foldOperators (g : Grammar) (nested : Power → Step σ Expr) (p : Power) (left : Expr)
    (w : Window σ) : Except Diagnostic Expr × Window σ :=
  match g.continuation? p w.peek.kind with
  | none => (.ok left, w)
  | some q =>
    match _h : (readBinary nested left q).run w.advance with
    | (.error d, v) => (.error d, v)
    | (.ok e, v) => g.foldOperators nested p e v
termination_by w.pending
decreasing_by
  have hpos := Window.pending_pos_of_peek (current_ne_eof_of_readBinary _h)
  have hlt := Window.pending_advance_lt hpos
  have hle := ((readBinary nested left q).forward w.advance).pending_le
  rw [_h] at hle
  exact Nat.lt_of_le_of_lt hle hlt

namespace Grammar

theorem foldOperators_of_none {g : Grammar} {nested : Power → Step σ Expr} {p : Power}
    {w : Window σ} (h : g.continuation? p w.peek.kind = none) (left : Expr) :
    g.foldOperators nested p left w = (.ok left, w) := by
  rw [foldOperators, h]

theorem foldOperators_of_ok {g : Grammar} {nested : Power → Step σ Expr} {p q : Power}
    {left e : Expr} {w v : Window σ} (hq : g.continuation? p w.peek.kind = some q)
    (h : (readBinary nested left q).run w.advance = (.ok e, v)) :
    g.foldOperators nested p left w = g.foldOperators nested p e v := by
  rw [foldOperators, hq]
  grind

theorem foldOperators_of_error {g : Grammar} {nested : Power → Step σ Expr} {p q : Power}
    {left : Expr} {d : Diagnostic} {w v : Window σ}
    (hq : g.continuation? p w.peek.kind = some q)
    (h : (readBinary nested left q).run w.advance = (.error d, v)) :
    g.foldOperators nested p left w = (.error d, v) := by
  rw [foldOperators, hq]
  grind

theorem foldOperators_forward (g : Grammar) (nested : Power → Step σ Expr) (p : Power)
    (left : Expr) (w : Window σ) : w.Reaches (g.foldOperators nested p left w).2 := by
  fun_induction foldOperators g nested p left w with
  | case1 => exact .refl _
  | case2 left w q _ d v h =>
    have := (readBinary nested left q).forward w.advance
    rw [h] at this
    exact (Window.Reaches.advance w).trans this
  | case3 left w q _ e v h ih =>
    have := (readBinary nested left q).forward w.advance
    rw [h] at this
    exact ((Window.Reaches.advance w).trans this).trans ih

def readOperators (g : Grammar) (nested : Power → Step σ Expr) (p : Power) (left : Expr) :
    Step σ Expr where
  run := g.foldOperators nested p left
  forward := g.foldOperators_forward nested p left

/-- Reads an expression whose operators bind tighter than the given power, with `levels` levels
left for it and what is inside it. -/
def readExpr (g : Grammar) : (levels : Nat) → Power → Step σ Expr
  | 0, _ => fail (.tooDeep nestingLimit)
  | levels + 1, p => do
    let left ← g.readOperand (g.readExpr levels)
    g.readOperators (g.readExpr levels) p left

end Grammar
end MonkeySyntax
