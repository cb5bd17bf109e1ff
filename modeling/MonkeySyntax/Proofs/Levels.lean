import MonkeySyntax.Proofs.Inversion
import MonkeySyntax.Proofs.Stretch

/-! Parsing as a relation between the parser before, the outcome and the parser after. The parser
counts its open levels itself: every expression opens one and closes it again on each way out. All
that is asked of a source is that tokens can be pulled from it. It may be endless, and then a rule
may have no outcome. Where its tokens come to an end every rule has one, and on a source that is
known to have an end the relation is what the rules compute. -/
namespace MonkeySyntax

namespace Parser

variable {σ : Type} (pull : Pull σ)

def start (s : σ) : Parser σ :=
  let first := pull s
  let second := pull first.2
  ⟨⟨second.2, first.1, second.1, 2⟩, .standard, 0⟩

def shift (p : Parser σ) : Parser σ :=
  let next := pull p.window.source
  { p with window := ⟨next.2, p.peek, next.1, p.window.pulled + 1⟩ }

/-- Moves on to a token of kind `k`, if that is the kind of the next one. -/
def require (k : TokenKind) (p : Parser σ) : Except Diagnostic Token × Parser σ :=
  if p.peek.kind = k then (.ok p.peek, p.shift pull)
  else (.error ⟨.unexpected k p.peek.kind, p.peek.span.start⟩, p)

/-- One parser comes from another by moving on. -/
def MovesTo (p v : Parser σ) : Prop := ∃ n, (shift pull)^[n] p = v

section Moving

variable {pull} {p u v : Parser σ}

namespace MovesTo

theorem refl (p : Parser σ) : p.MovesTo pull p := ⟨0, rfl⟩

theorem shift (p : Parser σ) : p.MovesTo pull (p.shift pull) := ⟨1, rfl⟩

theorem trans (h : p.MovesTo pull u) (h' : u.MovesTo pull v) : p.MovesTo pull v := by
  obtain ⟨m, rfl⟩ := h
  obtain ⟨n, rfl⟩ := h'
  exact ⟨n + m, Function.iterate_add_apply _ n m p⟩

theorem require (k : TokenKind) (p : Parser σ) : p.MovesTo pull (p.require pull k).2 := by
  unfold Parser.require
  split
  · exact .shift p
  · exact .refl p

theorem of_require {k : TokenKind} {r : Except Diagnostic Token}
    (h : p.require pull k = (r, v)) : p.MovesTo pull v := by
  have hm : p.MovesTo pull (p.require pull k).2 := .require k p
  rwa [h] at hm

/-- What moving on keeps, it keeps for any number of tokens. -/
theorem induction {C : Parser σ → Prop} (h : p.MovesTo pull v) (hp : C p)
    (hs : ∀ u, C u → C (u.shift pull)) : C v := by
  obtain ⟨n, rfl⟩ := h
  induction n with
  | zero => exact hp
  | succ n ih =>
    rw [Function.iterate_succ_apply']
    exact hs _ ih

theorem depth_eq (h : p.MovesTo pull v) : v.depth = p.depth :=
  h.induction (C := fun u => u.depth = p.depth) rfl fun _ hu => hu

theorem grammar_eq (h : p.MovesTo pull v) : v.grammar = p.grammar :=
  h.induction (C := fun u => u.grammar = p.grammar) rfl fun _ hu => hu

theorem exit (h : MovesTo pull { p with depth := p.depth + 1 } v) : p.MovesTo pull v.exit := by
  obtain ⟨n, rfl⟩ := h
  have hcomm : Function.Semiconj exit (Parser.shift pull) (Parser.shift pull) := fun _ => rfl
  exact ⟨n, (hcomm.iterate_right n { p with depth := p.depth + 1 }).symm⟩

end MovesTo

theorem enter_eq_ok_iff :
    p.enter = .ok v ↔ p.depth < nestingLimit ∧ v = { p with depth := p.depth + 1 } := by
  unfold enter
  split
  · simp [*, eq_comm]
  · simp [*]

theorem enter_eq_error_iff {d : Diagnostic} :
    p.enter = .error d ↔ nestingLimit ≤ p.depth ∧ d = ⟨.tooDeep nestingLimit, p.position⟩ := by
  rw [← Nat.not_lt]
  unfold enter
  split
  · simp [*]
  · simp [*, eq_comm]

end Moving

/-- The tasks that reading an expression is made of. -/
inductive Task
  /-- An expression whose operators bind tighter than `q`. -/
  | expr (q : Power)
  /-- The same, in the level that was opened for it. -/
  | inside (q : Power)
  | operand (rule : OperandRule)
  /-- The operators that continue `left`. -/
  | operators (q : Power) (left : Expr)
  | binary (left : Expr) (q : Power)
  /-- The expression behind the current token, and a token of kind `k` behind it. -/
  | value (k : TokenKind)

variable {pull}

/-- A task takes a parser to its outcome and the parser after it, which is also there when the task
fails. Only `level` changes the number of open levels. -/
inductive Performs (pull : Pull σ) :
    Task → Parser σ → Except Diagnostic Expr → Parser σ → Prop
  | tooDeep {q p d} (h : p.enter = .error d) : Performs pull (.expr q) p (.error d) p
  | level {q p u r v} (h : p.enter = .ok u) (hu : Performs pull (.inside q) u r v) :
      Performs pull (.expr q) p r v.exit
  | noOperand {q p} (h : p.grammar.operand p.current.kind = none) :
      Performs pull (.inside q) p (.error ⟨.noOperand p.current.kind, p.position⟩) p
  | operandFails {q p rule d v} (h : p.grammar.operand p.current.kind = some rule)
      (hv : Performs pull (.operand rule) p (.error d) v) : Performs pull (.inside q) p (.error d) v
  | operandThen {q p rule left u r v} (h : p.grammar.operand p.current.kind = some rule)
      (hu : Performs pull (.operand rule) p (.ok left) u)
      (hv : Performs pull (.operators q left) u r v) : Performs pull (.inside q) p r v
  | name {p} : Performs pull (.operand .identifier) p
      (.ok (.ident ⟨p.current, p.current.literal⟩)) p
  | number {p n} (h : Numeral.value? p.current.literal = some n) :
      Performs pull (.operand .integer) p (.ok (.int p.current n)) p
  | badNumber {p} (h : Numeral.value? p.current.literal = none) :
      Performs pull (.operand .integer) p (.error ⟨.badInteger p.current.literal, p.position⟩) p
  | truth {p} : Performs pull (.operand .boolean) p
      (.ok (.bool p.current (p.current.kind = .kwTrue))) p
  | notUnary {p} (h : UnaryOp.ofKind? p.current.kind = none) :
      Performs pull (.operand .unary) p (.error ⟨.noOperand p.current.kind, p.position⟩) p
  | unary {p op r v} (h : UnaryOp.ofKind? p.current.kind = some op)
      (hv : Performs pull (.expr .unary) (p.shift pull) r v) :
      Performs pull (.operand .unary) p (r.map (.unary p.current op)) v
  | group {p r v} (hv : Performs pull (.value .closeParen) p r v) :
      Performs pull (.operand .group) p r v
  | stop {q left p} (h : p.grammar.continuation? q p.peek.kind = none) :
      Performs pull (.operators q left) p (.ok left) p
  | operatorFails {q s left p d v} (h : p.grammar.continuation? q p.peek.kind = some s)
      (hv : Performs pull (.binary left s) (p.shift pull) (.error d) v) :
      Performs pull (.operators q left) p (.error d) v
  | operatorThen {q s left p e u r v} (h : p.grammar.continuation? q p.peek.kind = some s)
      (hu : Performs pull (.binary left s) (p.shift pull) (.ok e) u)
      (hv : Performs pull (.operators q e) u r v) : Performs pull (.operators q left) p r v
  | notBinary {left q p} (h : BinaryOp.ofKind? p.current.kind = none) :
      Performs pull (.binary left q) p (.error ⟨.noOperator p.current.kind, p.position⟩) p
  | binary {left q p op r v} (h : BinaryOp.ofKind? p.current.kind = some op)
      (hv : Performs pull (.expr q) (p.shift pull) r v) :
      Performs pull (.binary left q) p (r.map (.binary p.current op left)) v
  | valueFails {k p d v} (hv : Performs pull (.expr .lowest) (p.shift pull) (.error d) v) :
      Performs pull (.value k) p (.error d) v
  | valueThen {k p e u} (hu : Performs pull (.expr .lowest) (p.shift pull) (.ok e) u) :
      Performs pull (.value k) p ((u.require pull k).1.map fun _ => e) (u.require pull k).2

/-- Whether it succeeds or fails, a task amounts to moving on: as many levels are open after it as
before. -/
theorem Performs.movesTo {t : Task} {p v : Parser σ} {r : Except Diagnostic Expr}
    (h : Performs pull t p r v) : p.MovesTo pull v := by
  induction h with
  | tooDeep | noOperand | name | number | badNumber | truth | notUnary | stop | notBinary =>
    exact .refl _
  | level h _ ih =>
    obtain ⟨-, rfl⟩ := enter_eq_ok_iff.mp h
    exact ih.exit
  | operandFails _ _ ih | group _ ih => exact ih
  | operandThen _ _ _ ihu ihv => exact ihu.trans ihv
  | unary _ _ ih | operatorFails _ _ ih | binary _ _ ih | valueFails _ ih =>
    exact (MovesTo.shift _).trans ih
  | operatorThen _ _ _ ihu ihv => exact ((MovesTo.shift _).trans ihu).trans ihv
  | valueThen _ ih => exact ((MovesTo.shift _).trans ih).trans (.require _ _)

/-- Reading a statement by a rule, or by the one that the grammar has for the current token. -/
inductive PerformsStmt (pull : Pull σ) :
    Option StmtRule → Parser σ → Except Diagnostic Stmt → Parser σ → Prop
  | noName {p d v} (h : p.require pull .identifier = (.error d, v)) :
      PerformsStmt pull (some .binding) p (.error d) v
  | noAssign {p name u d v} (hn : p.require pull .identifier = (.ok name, u))
      (h : u.require pull .assign = (.error d, v)) :
      PerformsStmt pull (some .binding) p (.error d) v
  | binding {p name u t v r w} (hn : p.require pull .identifier = (.ok name, u))
      (ht : u.require pull .assign = (.ok t, v)) (hw : Performs pull (.value .semicolon) v r w) :
      PerformsStmt pull (some .binding) p (r.map (.binding p.current ⟨name, name.literal⟩)) w
  | ret {p r v} (hv : Performs pull (.value .semicolon) p r v) :
      PerformsStmt pull (some .ret) p (r.map (.ret p.current)) v
  | exprFails {p d v} (hv : Performs pull (.expr .lowest) p (.error d) v) :
      PerformsStmt pull (some .expr) p (.error d) v
  | expr {p e v} (hv : Performs pull (.expr .lowest) p (.ok e) v) :
      PerformsStmt pull (some .expr) p (.ok (.expr p.current e))
        (if v.peek.kind = .semicolon then v.shift pull else v)
  | dispatch {p r v}
      (hv : PerformsStmt pull (some ((p.grammar.statement p.current.kind).getD .expr)) p r v) :
      PerformsStmt pull none p r v

theorem PerformsStmt.movesTo {rule : Option StmtRule} {p v : Parser σ}
    {r : Except Diagnostic Stmt} (h : PerformsStmt pull rule p r v) : p.MovesTo pull v := by
  induction h with
  | noName h => exact .of_require h
  | noAssign hn h => exact (MovesTo.of_require hn).trans (.of_require h)
  | binding hn ht hw => exact ((MovesTo.of_require hn).trans (.of_require ht)).trans hw.movesTo
  | ret hv | exprFails hv => exact hv.movesTo
  | expr hv =>
    split
    · exact hv.movesTo.trans (.shift _)
    · exact hv.movesTo
  | dispatch _ ih => exact ih

def ahead (pull : Pull σ) (p : Parser σ) : Nat → Token
  | 0 => p.current
  | 1 => p.peek
  | n + 2 => pull.nth n p.window.source

/-- There are end tokens only from token number `n` of those ahead on. -/
def Ends (pull : Pull σ) (n : Nat) (p : Parser σ) : Prop :=
  ∀ m, n ≤ m → (p.ahead pull m).kind = .eof

theorem ahead_shift (p : Parser σ) (n : Nat) :
    (p.shift pull).ahead pull n = p.ahead pull (n + 1) := by
  match n with
  | 0 => rfl
  | 1 => rfl
  | n + 2 => rfl

namespace Ends

variable {n : Nat} {p v : Parser σ}

theorem shift (h : p.Ends pull (n + 1)) : (p.shift pull).Ends pull n := by
  intro m hm
  rw [ahead_shift]
  exact h (m + 1) (Nat.succ_le_succ hm)

theorem of_movesTo (h : p.Ends pull n) (hv : p.MovesTo pull v) : v.Ends pull n := by
  refine hv.induction h fun u hu m hm => ?_
  rw [ahead_shift]
  exact hu (m + 1) (Nat.le_succ_of_le hm)

theorem of_source (h : ∀ m, n ≤ m → (pull.nth m p.window.source).kind = .eof) :
    p.Ends pull (n + 2) := by
  intro m hm
  obtain ⟨k, rfl⟩ := Nat.exists_eq_add_of_le hm
  have hk : n + 2 + k = (n + k) + 2 := by omega
  rw [hk]
  exact h (n + k) (Nat.le_add_right n k)

theorem exists_succ_of_peek (h : p.Ends pull n) (hc : p.peek.kind ≠ .eof) : ∃ k, n = k + 1 := by
  cases n with
  | zero => exact absurd (h 1 (Nat.zero_le 1)) hc
  | succ k => exact ⟨k, rfl⟩

end Ends

/-- Only an operator can be read as one, whatever power its kind has. -/
theorem Performs.current_ne_eof {left e : Expr} {q : Power} {p v : Parser σ}
    (h : Performs pull (.binary left q) p (.ok e) v) : p.current.kind ≠ .eof := by
  generalize hr : (Except.ok e : Except Diagnostic Expr) = r at h
  cases h with
  | notBinary => cases hr
  | @binary _ _ _ op _ _ ho _ =>
    rw [BinaryOp.ofKind?_eq_some_iff.mp ho]
    exact op.kind_ne_eof

section Returning

-- Every task comes down to expressions that are read while as many levels are open and as many
-- tokens are ahead. At the end of the tokens it is the levels alone that run out.
variable {depth n : Nat} {p : Parser σ}
  (hexpr : ∀ (q : Power) (u : Parser σ), u.depth = depth → u.Ends pull n →
    ∃ r v, Performs pull (.expr q) u r v)
include hexpr

theorem exists_performs_value (k : TokenKind) (hp : p.depth = depth) (hn : p.Ends pull n) :
    ∃ r v, Performs pull (.value k) p r v := by
  obtain ⟨r, v, hv⟩ := hexpr .lowest (p.shift pull) hp (hn.of_movesTo (.shift p))
  cases r with
  | error d => exact ⟨_, _, .valueFails hv⟩
  | ok e => exact ⟨_, _, .valueThen hv⟩

theorem exists_performs_operand (rule : OperandRule) (hp : p.depth = depth)
    (hn : p.Ends pull n) : ∃ r v, Performs pull (.operand rule) p r v := by
  cases rule with
  | identifier => exact ⟨_, _, .name⟩
  | integer =>
    cases hv : Numeral.value? p.current.literal with
    | none => exact ⟨_, _, .badNumber hv⟩
    | some i => exact ⟨_, _, .number hv⟩
  | boolean => exact ⟨_, _, .truth⟩
  | unary =>
    cases ho : UnaryOp.ofKind? p.current.kind with
    | none => exact ⟨_, _, .notUnary ho⟩
    | some op =>
      obtain ⟨r, v, hv⟩ := hexpr .unary (p.shift pull) hp (hn.of_movesTo (.shift p))
      exact ⟨_, _, .unary ho hv⟩
  | group =>
    obtain ⟨r, v, hv⟩ := exists_performs_value hexpr .closeParen hp hn
    exact ⟨_, _, .group hv⟩

theorem exists_performs_binary (left : Expr) (q : Power) (hp : p.depth = depth)
    (hn : p.Ends pull n) : ∃ r v, Performs pull (.binary left q) p r v := by
  cases ho : BinaryOp.ofKind? p.current.kind with
  | none => exact ⟨_, _, .notBinary ho⟩
  | some op =>
    obtain ⟨r, v, hv⟩ := hexpr q (p.shift pull) hp (hn.of_movesTo (.shift p))
    exact ⟨_, _, .binary ho hv⟩

/-- The operator loop goes on behind operators only, and those are used up. -/
theorem exists_performs_operators (q : Power) (left : Expr) (p : Parser σ) (k : Nat) (hkn : k ≤ n)
    (hp : p.depth = depth) (hk : p.Ends pull k) :
    ∃ r v, Performs pull (.operators q left) p r v := by
  have hn : p.Ends pull n := fun m hm => hk m (Nat.le_trans hkn hm)
  cases hq : p.grammar.continuation? q p.peek.kind with
  | none => exact ⟨_, _, .stop hq⟩
  | some s =>
    obtain ⟨r, u, hu⟩ :=
      exists_performs_binary hexpr left s (p := p.shift pull) hp (hn.of_movesTo (.shift p))
    cases r with
    | error d => exact ⟨_, _, .operatorFails hq hu⟩
    | ok e =>
      obtain ⟨j, rfl⟩ := hk.exists_succ_of_peek hu.current_ne_eof
      obtain ⟨r, v, hv⟩ := exists_performs_operators q e u j (Nat.le_of_succ_le hkn)
        (hu.movesTo.depth_eq.trans hp) (hk.shift.of_movesTo hu.movesTo)
      exact ⟨_, _, .operatorThen hq hu hv⟩
termination_by k

theorem exists_performs_inside (q : Power) (hp : p.depth = depth) (hn : p.Ends pull n) :
    ∃ r v, Performs pull (.inside q) p r v := by
  cases hr : p.grammar.operand p.current.kind with
  | none => exact ⟨_, _, .noOperand hr⟩
  | some rule =>
    obtain ⟨r, u, hu⟩ := exists_performs_operand hexpr rule hp hn
    cases r with
    | error d => exact ⟨_, _, .operandFails hr hu⟩
    | ok left =>
      obtain ⟨r, v, hv⟩ := exists_performs_operators hexpr q left u n (Nat.le_refl n)
        (hu.movesTo.depth_eq.trans hp) (hn.of_movesTo hu.movesTo)
      exact ⟨_, _, .operandThen hr hu hv⟩

end Returning

theorem exists_performs_expr {n : Nat} (q : Power) (p : Parser σ) (hn : p.Ends pull n) :
    ∃ r v, Performs pull (.expr q) p r v := by
  cases he : p.enter with
  | error d => exact ⟨_, _, .tooDeep he⟩
  | ok u =>
    obtain ⟨hlt, rfl⟩ := enter_eq_ok_iff.mp he
    have hinside : ∀ (q : Power) (u : Parser σ), u.depth = p.depth + 1 → u.Ends pull n →
        ∃ r v, Performs pull (.expr q) u r v :=
      fun q u hu hn =>
        have : nestingLimit - u.depth < nestingLimit - p.depth := by omega
        exists_performs_expr q u hn
    obtain ⟨r, v, hv⟩ :=
      exists_performs_inside (p := { p with depth := p.depth + 1 }) hinside q rfl hn
    exact ⟨_, _, .level he hv⟩
termination_by nestingLimit - p.depth

/-- Where the tokens come to an end, every task has an outcome. -/
theorem exists_performs {n : Nat} (t : Task) {p : Parser σ} (hn : p.Ends pull n) :
    ∃ r v, Performs pull t p r v := by
  have hexpr : ∀ (q : Power) (u : Parser σ), u.depth = p.depth → u.Ends pull n →
      ∃ r v, Performs pull (.expr q) u r v :=
    fun q u _ hu => exists_performs_expr q u hu
  cases t with
  | expr q => exact exists_performs_expr q p hn
  | inside q => exact exists_performs_inside hexpr q rfl hn
  | operand rule => exact exists_performs_operand hexpr rule rfl hn
  | operators q left => exact exists_performs_operators hexpr q left p n (Nat.le_refl n) rfl hn
  | binary left q => exact exists_performs_binary hexpr left q rfl hn
  | value k => exact exists_performs_value hexpr k rfl hn

theorem exists_performsStmt {n : Nat} (rule : Option StmtRule) {p : Parser σ}
    (hn : p.Ends pull n) : ∃ r v, PerformsStmt pull rule p r v := by
  have hrule : ∀ rule : StmtRule, ∃ r v, PerformsStmt pull (some rule) p r v := by
    intro rule
    cases rule with
    | binding =>
      cases hi : p.require pull .identifier with
      | mk x u =>
        cases x with
        | error d => exact ⟨_, _, .noName hi⟩
        | ok name =>
          cases ha : u.require pull .assign with
          | mk y v =>
            cases y with
            | error d => exact ⟨_, _, .noAssign hi ha⟩
            | ok t =>
              have hm : p.MovesTo pull v := (MovesTo.of_require hi).trans (.of_require ha)
              obtain ⟨r, w, hw⟩ := exists_performs (.value .semicolon) (hn.of_movesTo hm)
              exact ⟨_, _, .binding hi ha hw⟩
    | ret =>
      obtain ⟨r, v, hv⟩ := exists_performs (.value .semicolon) hn
      exact ⟨_, _, .ret hv⟩
    | expr =>
      obtain ⟨r, v, hv⟩ := exists_performs (.expr .lowest) hn
      cases r with
      | error d => exact ⟨_, _, .exprFails hv⟩
      | ok e => exact ⟨_, _, .expr hv⟩
  cases rule with
  | some rule => exact hrule rule
  | none =>
    obtain ⟨r, v, hv⟩ := hrule ((p.grammar.statement p.current.kind).getD .expr)
    exact ⟨r, v, .dispatch hv⟩

section Computed

open TokenSource (next)
open Step

variable [TokenSource σ] {p v : Parser σ}

theorem require_next (k : TokenKind) (p : Parser σ) : p.require next k = p.expect k := by
  unfold require expect run Step.expect peek
  by_cases h : p.window.peek.kind = k
  · simp only [if_pos h]
    rfl
  · simp only [if_neg h]

theorem MovesTo.run_eq {α : Type} {x : Step σ α} {r : Except Diagnostic α}
    (h : p.MovesTo next v) (hx : x.run p.window = (r, v.window)) : p.run x = (r, v) := by
  rw [run, hx, ← h.grammar_eq, ← h.depth_eq]

/-- The step that does a task under a grammar while `depth` levels are open. -/
def Task.step (g : Grammar) (depth : Nat) : Task → Step σ Expr
  | expr q => g.readExpr (nestingLimit - depth) q
  | inside q =>
    g.readOperand (g.readExpr (nestingLimit - depth)) >>=
      g.readOperators (g.readExpr (nestingLimit - depth)) q
  | operand rule => rule.read (g.readExpr (nestingLimit - depth))
  | operators q left => g.readOperators (g.readExpr (nestingLimit - depth)) q left
  | binary left q => readBinary (g.readExpr (nestingLimit - depth)) left q
  | value k => do
    Step.advance
    let e ← g.readExpr (nestingLimit - depth) .lowest
    let _ ← Step.expect k
    return e

theorem Performs.run_eq {t : Task} {r : Except Diagnostic Expr} (h : Performs next t p r v) :
    (t.step p.grammar p.depth).run p.window = (r, v.window) := by
  induction h with
  | tooDeep h =>
    obtain ⟨hd, rfl⟩ := enter_eq_error_iff.mp h
    rw [Task.step, Nat.sub_eq_zero_of_le hd]
    rfl
  | @level q p u r v h _ ih =>
    obtain ⟨hd, rfl⟩ := enter_eq_ok_iff.mp h
    -- what is left is counted down as what is open is counted up
    have hn : nestingLimit - p.depth = nestingLimit - (p.depth + 1) + 1 := by omega
    rw [Task.step, hn]
    exact ih
  | noOperand h =>
    exact run_bind_of_error (Grammar.run_readOperand_of_eq_none h) _
  | operandFails h _ ih =>
    exact run_bind_of_error ((Grammar.run_readOperand_of_eq_some h).trans ih) _
  | operandThen h hu _ ihu ihv =>
    rw [hu.movesTo.grammar_eq, hu.movesTo.depth_eq] at ihv
    exact (run_bind_of_ok ((Grammar.run_readOperand_of_eq_some h).trans ihu) _).trans ihv
  | name => rfl
  | number h => exact OperandRule.run_readInteger_eq_ok_iff.mpr ⟨_, h, rfl, rfl⟩
  | badNumber h => exact OperandRule.run_readInteger_of_eq_none h
  | truth => rfl
  | notUnary h => exact OperandRule.run_readUnary_of_eq_none h
  | unary h _ ih =>
    have hk := UnaryOp.ofKind?_eq_some_iff.mp h
    exact (OperandRule.run_readUnary_of_kind hk).trans (run_bind_pure ih _)
  | group _ ih => exact ih
  | stop h => exact Grammar.foldOperators_of_none h _
  | operatorFails h _ ih => exact Grammar.foldOperators_of_error h ih
  | operatorThen h hu _ ihu ihv =>
    have hm := (MovesTo.shift _).trans hu.movesTo
    rw [hm.grammar_eq, hm.depth_eq] at ihv
    exact (Grammar.foldOperators_of_ok h ihu).trans ihv
  | notBinary h => exact Grammar.run_readBinary_of_eq_none h
  | binary h _ ih =>
    have hk := BinaryOp.ofKind?_eq_some_iff.mp h
    exact (Grammar.run_readBinary_of_kind hk).trans (run_bind_pure ih _)
  | valueFails _ ih => exact run_bind_of_error ih _
  | valueThen _ ih =>
    refine (run_bind_of_ok ih _).trans ?_
    rw [require_next]
    exact run_bind_pure rfl _

def Task.Returns (p : Parser σ) (t : Task) : Prop := ∃ r v, Performs next t p r v

theorem ends_next (p : Parser σ) : p.Ends next (TokenSource.horizon p.window.source + 2) :=
  .of_source fun _ hm => TokenSource.kind_nth_of_horizon_le hm

theorem returns (t : Task) (p : Parser σ) : t.Returns p := exists_performs t (ends_next p)

/-- On a source with an end every task has exactly the computed outcome. -/
theorem performs_iff {t : Task} {r : Except Diagnostic Expr} :
    Performs next t p r v ↔ p.run (t.step p.grammar p.depth) = (r, v) := by
  have hrun : ∀ {r v}, Performs next t p r v → p.run (t.step p.grammar p.depth) = (r, v) :=
    fun h => h.movesTo.run_eq h.run_eq
  constructor
  · exact hrun
  · intro h
    obtain ⟨r', v', h'⟩ := returns t p
    cases (hrun h').symm.trans h
    exact h'

def stmtStep (p : Parser σ) : Option StmtRule → Step σ Stmt
  | some rule => rule.read p.exprStep
  | none => p.grammar.readStmt p.exprStep

theorem Performs.run_value {k : TokenKind} {r : Except Diagnostic Expr}
    (h : Performs next (.value k) p r v) (f : Expr → Stmt) :
    (Step.advance >>= fun _ => p.exprStep .lowest >>= fun e => Step.expect k >>= fun _ =>
      pure (f e)).run p.window = (r.map f, v.window) := by
  cases h with
  | valueFails hv => exact run_bind_of_error hv.run_eq _
  | @valueThen _ _ e u hu =>
    have hmap : ((u.expect k).1.map fun _ => e).map f = (u.expect k).1.map fun _ => f e := by
      cases (u.expect k).1 <;> rfl
    rw [require_next, hmap]
    exact (run_bind_of_ok hu.run_eq _).trans (run_bind_pure rfl _)

theorem PerformsStmt.run_eq {rule : Option StmtRule} {r : Except Diagnostic Stmt}
    (h : PerformsStmt next rule p r v) : (p.stmtStep rule).run p.window = (r, v.window) := by
  have hreq : ∀ {k : TokenKind} {p u : Parser σ} {x}, p.require next k = (x, u) →
      (Step.expect k).run p.window = (x, u.window) := by
    intro k p u x hx
    rw [require_next] at hx
    cases hx
    rfl
  induction h with
  | noName h => exact run_bind_of_error (hreq h) _
  | noAssign hn h =>
    exact (run_bind_of_ok (hreq hn) _).trans (run_bind_of_error (hreq h) _)
  | @binding p name u t v r w hn ht hw =>
    have hm : p.MovesTo next v := (MovesTo.of_require hn).trans (.of_require ht)
    have hv := hw.run_value (.binding p.current ⟨name, name.literal⟩)
    rw [exprStep, hm.grammar_eq, hm.depth_eq] at hv
    exact (run_bind_of_ok (hreq hn) _).trans ((run_bind_of_ok (hreq ht) _).trans hv)
  | ret hv => exact hv.run_value _
  | exprFails hv => exact run_bind_of_error hv.run_eq _
  | expr hv =>
    refine StmtRule.run_readExprStmt_eq_ok_iff.mpr ⟨_, _, hv.run_eq, ?_, rfl⟩
    exact apply_ite window _ _ _
  | dispatch _ ih => exact ih

theorem performsStmt_iff {rule : Option StmtRule} {r : Except Diagnostic Stmt} :
    PerformsStmt next rule p r v ↔ p.run (p.stmtStep rule) = (r, v) := by
  have hrun : ∀ {r v}, PerformsStmt next rule p r v → p.run (p.stmtStep rule) = (r, v) :=
    fun h => h.movesTo.run_eq h.run_eq
  constructor
  · exact hrun
  · intro h
    obtain ⟨r', v', h'⟩ := exists_performsStmt rule (ends_next p)
    cases (hrun h').symm.trans h
    exact h'

end Computed

end Parser
end MonkeySyntax
