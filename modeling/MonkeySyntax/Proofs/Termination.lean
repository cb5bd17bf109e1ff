import Mathlib.Control.Monad.Basic
import MonkeySyntax.Proofs.Levels
import MonkeySyntax.Token.Replay

/-! Parsing ends wherever the tokens do, whatever the grammar. Up to the last token that is no end
token the tokens are used up; among end tokens it is the levels that run out, since no end token is
read as an operator. -/
namespace MonkeySyntax.Parser

open TokenSource (next)

variable {σ : Type} {pull : Pull σ}

/-- A task has no outcome but this one. -/
def Sole (pull : Pull σ) (t : Task) (p : Parser σ) (r : Except Diagnostic Expr) (v : Parser σ) :
    Prop :=
  ∀ r' v', Performs pull t p r' v' → r = r' ∧ v = v'

namespace Sole

variable {p u v : Parser σ} {q s : Power} {rule : OperandRule} {left e : Expr} {d : Diagnostic}
  {r : Except Diagnostic Expr}

-- The rules for a task exclude each other, by what the parser shows or by what a part of the task
-- gave. So a second run goes by the same rule, and it remains that the parts of the runs agree.

theorem tooDeep (h : p.enter = .error d) : Sole pull (.expr q) p (.error d) p := by
  intro r' v' h'
  cases h' with
  | tooDeep h' =>
    cases h.symm.trans h'
    exact ⟨rfl, rfl⟩
  | level h' => cases h.symm.trans h'

theorem level (h : p.enter = .ok u) (hu : Sole pull (.inside q) u r v) :
    Sole pull (.expr q) p r v.exit := by
  intro r' v' h'
  cases h' with
  | tooDeep h' => cases h.symm.trans h'
  | level h' hu' =>
    cases h.symm.trans h'
    obtain ⟨rfl, rfl⟩ := hu _ _ hu'
    exact ⟨rfl, rfl⟩

theorem noOperand (h : p.grammar.operand p.current.kind = none) :
    Sole pull (.inside q) p (.error ⟨.noOperand p.current.kind, p.position⟩) p := by
  intro r' v' h'
  cases h' with
  | noOperand => exact ⟨rfl, rfl⟩
  | operandFails h' | operandThen h' => cases h.symm.trans h'

theorem operandFails (h : p.grammar.operand p.current.kind = some rule)
    (hv : Sole pull (.operand rule) p (.error d) v) : Sole pull (.inside q) p (.error d) v := by
  intro r' v' h'
  cases h' with
  | noOperand h' => cases h.symm.trans h'
  | operandFails h' hv' =>
    cases h.symm.trans h'
    exact hv _ _ hv'
  | operandThen h' hu' =>
    cases h.symm.trans h'
    cases (hv _ _ hu').1

theorem operandThen (h : p.grammar.operand p.current.kind = some rule)
    (hu : Sole pull (.operand rule) p (.ok left) u) (hv : Sole pull (.operators q left) u r v) :
    Sole pull (.inside q) p r v := by
  intro r' v' h'
  cases h' with
  | noOperand h' => cases h.symm.trans h'
  | operandFails h' hv' =>
    cases h.symm.trans h'
    cases (hu _ _ hv').1
  | operandThen h' hu' hv' =>
    cases h.symm.trans h'
    obtain ⟨hl, rfl⟩ := hu _ _ hu'
    cases hl
    exact hv _ _ hv'

theorem number {n : Int} (h : Numeral.value? p.current.literal = some n) :
    Sole pull (.operand .integer) p (.ok (.int p.current n)) p := by
  intro r' v' h'
  cases h' with
  | number h' =>
    cases h.symm.trans h'
    exact ⟨rfl, rfl⟩
  | badNumber h' => cases h.symm.trans h'

theorem badNumber (h : Numeral.value? p.current.literal = none) :
    Sole pull (.operand .integer) p (.error ⟨.badInteger p.current.literal, p.position⟩) p := by
  intro r' v' h'
  cases h' with
  | number h' => cases h.symm.trans h'
  | badNumber => exact ⟨rfl, rfl⟩

theorem notUnary (h : UnaryOp.ofKind? p.current.kind = none) :
    Sole pull (.operand .unary) p (.error ⟨.noOperand p.current.kind, p.position⟩) p := by
  intro r' v' h'
  cases h' with
  | notUnary => exact ⟨rfl, rfl⟩
  | unary h' => cases h.symm.trans h'

theorem unary {op : UnaryOp} (h : UnaryOp.ofKind? p.current.kind = some op)
    (hv : Sole pull (.expr .unary) (p.shift pull) r v) :
    Sole pull (.operand .unary) p (r.map (.unary p.current op)) v := by
  intro r' v' h'
  cases h' with
  | notUnary h' => cases h.symm.trans h'
  | unary h' hv' =>
    cases h.symm.trans h'
    obtain ⟨rfl, rfl⟩ := hv _ _ hv'
    exact ⟨rfl, rfl⟩

theorem group (hv : Sole pull (.value .closeParen) p r v) : Sole pull (.operand .group) p r v := by
  intro r' v' h'
  cases h' with
  | group hv' => exact hv _ _ hv'

theorem stop (h : p.grammar.continuation? q p.peek.kind = none) :
    Sole pull (.operators q left) p (.ok left) p := by
  intro r' v' h'
  cases h' with
  | stop => exact ⟨rfl, rfl⟩
  | operatorFails h' | operatorThen h' => cases h.symm.trans h'

theorem operatorFails (h : p.grammar.continuation? q p.peek.kind = some s)
    (hv : Sole pull (.binary left s) (p.shift pull) (.error d) v) :
    Sole pull (.operators q left) p (.error d) v := by
  intro r' v' h'
  cases h' with
  | stop h' => cases h.symm.trans h'
  | operatorFails h' hv' =>
    cases h.symm.trans h'
    exact hv _ _ hv'
  | operatorThen h' hu' =>
    cases h.symm.trans h'
    cases (hv _ _ hu').1

theorem operatorThen (h : p.grammar.continuation? q p.peek.kind = some s)
    (hu : Sole pull (.binary left s) (p.shift pull) (.ok e) u)
    (hv : Sole pull (.operators q e) u r v) : Sole pull (.operators q left) p r v := by
  intro r' v' h'
  cases h' with
  | stop h' => cases h.symm.trans h'
  | operatorFails h' hv' =>
    cases h.symm.trans h'
    cases (hu _ _ hv').1
  | operatorThen h' hu' hv' =>
    cases h.symm.trans h'
    obtain ⟨he, rfl⟩ := hu _ _ hu'
    cases he
    exact hv _ _ hv'

theorem notBinary (h : BinaryOp.ofKind? p.current.kind = none) :
    Sole pull (.binary left q) p (.error ⟨.noOperator p.current.kind, p.position⟩) p := by
  intro r' v' h'
  cases h' with
  | notBinary => exact ⟨rfl, rfl⟩
  | binary h' => cases h.symm.trans h'

theorem binary {op : BinaryOp} (h : BinaryOp.ofKind? p.current.kind = some op)
    (hv : Sole pull (.expr q) (p.shift pull) r v) :
    Sole pull (.binary left q) p (r.map (.binary p.current op left)) v := by
  intro r' v' h'
  cases h' with
  | notBinary h' => cases h.symm.trans h'
  | binary h' hv' =>
    cases h.symm.trans h'
    obtain ⟨rfl, rfl⟩ := hv _ _ hv'
    exact ⟨rfl, rfl⟩

theorem valueFails {k : TokenKind} (hv : Sole pull (.expr .lowest) (p.shift pull) (.error d) v) :
    Sole pull (.value k) p (.error d) v := by
  intro r' v' h'
  cases h' with
  | valueFails hv' => exact hv _ _ hv'
  | valueThen hu' => cases (hv _ _ hu').1

theorem valueThen {k : TokenKind} (hu : Sole pull (.expr .lowest) (p.shift pull) (.ok e) u) :
    Sole pull (.value k) p ((u.require pull k).1.map fun _ => e) (u.require pull k).2 := by
  intro r' v' h'
  cases h' with
  | valueFails hv' => cases (hu _ _ hv').1
  | valueThen hu' =>
    obtain ⟨he, rfl⟩ := hu _ _ hu'
    cases he
    exact ⟨rfl, rfl⟩

end Sole

section Unique

variable {t : Task} {p v v' : Parser σ} {r r' : Except Diagnostic Expr}

theorem Performs.sole (h : Performs pull t p r v) : Sole pull t p r v := by
  induction h with
  | tooDeep h => exact .tooDeep h
  | level h _ ih => exact .level h ih
  | noOperand h => exact .noOperand h
  | operandFails h _ ih => exact .operandFails h ih
  | operandThen h _ _ ihu ihv => exact .operandThen h ihu ihv
  | name | truth =>
    intro r' v' h'
    cases h'
    exact ⟨rfl, rfl⟩
  | number h => exact .number h
  | badNumber h => exact .badNumber h
  | notUnary h => exact .notUnary h
  | unary h _ ih => exact .unary h ih
  | group _ ih => exact .group ih
  | stop h => exact .stop h
  | operatorFails h _ ih => exact .operatorFails h ih
  | operatorThen h _ _ ihu ihv => exact .operatorThen h ihu ihv
  | notBinary h => exact .notBinary h
  | binary h _ ih => exact .binary h ih
  | valueFails _ ih => exact .valueFails ih
  | valueThen _ ih => exact .valueThen ih

/-- A task has no two outcomes. -/
theorem Performs.unique (h : Performs pull t p r v) (h' : Performs pull t p r' v') :
    r = r' ∧ v = v' :=
  h.sole r' v' h'

end Unique

namespace PerformsStmt

variable {p v v' : Parser σ} {r r' : Except Diagnostic Stmt}

theorem unique_binding (h : PerformsStmt pull (some .binding) p r v)
    (h' : PerformsStmt pull (some .binding) p r' v') : r = r' ∧ v = v' := by
  cases h with
  | noName h =>
    cases h' with
    | noName h' =>
      cases h.symm.trans h'
      exact ⟨rfl, rfl⟩
    | noAssign h' | binding h' => cases h.symm.trans h'
  | noAssign hn h =>
    cases h' with
    | noName h' => cases hn.symm.trans h'
    | noAssign hn' h' =>
      cases hn.symm.trans hn'
      cases h.symm.trans h'
      exact ⟨rfl, rfl⟩
    | binding hn' h' =>
      cases hn.symm.trans hn'
      cases h.symm.trans h'
  | binding hn ht hw =>
    cases h' with
    | noName h' => cases hn.symm.trans h'
    | noAssign hn' h' =>
      cases hn.symm.trans hn'
      cases ht.symm.trans h'
    | binding hn' ht' hw' =>
      cases hn.symm.trans hn'
      cases ht.symm.trans ht'
      obtain ⟨rfl, rfl⟩ := hw.unique hw'
      exact ⟨rfl, rfl⟩

theorem unique {rule : Option StmtRule} (h : PerformsStmt pull rule p r v)
    (h' : PerformsStmt pull rule p r' v') : r = r' ∧ v = v' := by
  induction h with
  | noName h => exact unique_binding (.noName h) h'
  | noAssign hn h => exact unique_binding (.noAssign hn h) h'
  | binding hn ht hw => exact unique_binding (.binding hn ht hw) h'
  | ret hv =>
    cases h' with
    | ret hv' =>
      obtain ⟨rfl, rfl⟩ := hv.unique hv'
      exact ⟨rfl, rfl⟩
  | exprFails hv =>
    cases h' with
    | exprFails hv' =>
      obtain ⟨he, rfl⟩ := hv.unique hv'
      cases he
      exact ⟨rfl, rfl⟩
    | expr hv' => cases (hv.unique hv').1
  | expr hv =>
    cases h' with
    | exprFails hv' => cases (hv.unique hv').1
    | expr hv' =>
      obtain ⟨he, rfl⟩ := hv.unique hv'
      cases he
      exact ⟨rfl, rfl⟩
  | dispatch _ ih =>
    cases h' with
    | dispatch hv' => exact ih hv'

end PerformsStmt

/-- Moving on to the next semicolon or end token, starting with the current token. -/
inductive Skips (pull : Pull σ) : Parser σ → Parser σ → Prop
  | stop {p} (h : p.current.kind = .semicolon ∨ p.current.kind = .eof) : Skips pull p p
  | pass {p v} (h : ¬ (p.current.kind = .semicolon ∨ p.current.kind = .eof))
      (hv : Skips pull (p.shift pull) v) : Skips pull p v

/-- Reading statements up to an end token takes a parser to what each of them gave and to the parser
after them. What is left of a malformed statement is skipped. -/
inductive PerformsProgram (pull : Pull σ) :
    Parser σ → List (Except Diagnostic Stmt) → Parser σ → Prop
  | done {p} (h : p.current.kind = .eof) : PerformsProgram pull p [] p
  | read {p s u os v} (h : p.current.kind ≠ .eof) (hu : PerformsStmt pull none p (.ok s) u)
      (hv : PerformsProgram pull (u.shift pull) os v) : PerformsProgram pull p (.ok s :: os) v
  | skip {p d u x os v} (h : p.current.kind ≠ .eof) (hu : PerformsStmt pull none p (.error d) u)
      (hx : Skips pull u x) (hv : PerformsProgram pull (x.shift pull) os v) :
      PerformsProgram pull p (.error d :: os) v

section Programs

variable {p v v' : Parser σ} {os os' : List (Except Diagnostic Stmt)}

namespace Skips

theorem movesTo (h : p.Skips pull v) : p.MovesTo pull v := by
  induction h with
  | stop => exact .refl _
  | pass _ _ ih => exact (MovesTo.shift _).trans ih

theorem unique (h : p.Skips pull v) (h' : p.Skips pull v') : v = v' := by
  induction h with
  | stop h =>
    cases h' with
    | stop => rfl
    | pass hn => exact absurd h hn
  | pass hn _ ih =>
    cases h' with
    | stop h => exact absurd h hn
    | pass _ hv' => exact ih hv'

end Skips

theorem exists_skips {n : Nat} (hn : p.Ends pull n) : ∃ v, p.Skips pull v := by
  induction n generalizing p with
  | zero => exact ⟨p, .stop (.inr (hn 0 (Nat.le_refl 0)))⟩
  | succ n ih =>
    by_cases h : p.current.kind = .semicolon ∨ p.current.kind = .eof
    · exact ⟨p, .stop h⟩
    · obtain ⟨v, hv⟩ := ih hn.shift
      exact ⟨v, .pass h hv⟩

namespace PerformsProgram

theorem unique (h : p.PerformsProgram pull os v) (h' : p.PerformsProgram pull os' v') :
    os = os' ∧ v = v' := by
  induction h generalizing os' v' with
  | done h =>
    cases h' with
    | done => exact ⟨rfl, rfl⟩
    | read hne | skip hne => exact absurd h hne
  | read hne hu _ ih =>
    cases h' with
    | done h => exact absurd h hne
    | read _ hu' hv' =>
      obtain ⟨hs, rfl⟩ := hu.unique hu'
      obtain ⟨rfl, rfl⟩ := ih hv'
      cases hs
      exact ⟨rfl, rfl⟩
    | skip _ hu' => cases (hu.unique hu').1
  | skip hne hu hx _ ih =>
    cases h' with
    | done h => exact absurd h hne
    | read _ hu' => cases (hu.unique hu').1
    | skip _ hu' hx' hv' =>
      obtain ⟨hd, rfl⟩ := hu.unique hu'
      obtain rfl := hx.unique hx'
      obtain ⟨rfl, rfl⟩ := ih hv'
      cases hd
      exact ⟨rfl, rfl⟩

end PerformsProgram

/-- Each turn of the program loop uses up a token that is no end token. -/
theorem exists_performsProgram {n : Nat} (hn : p.Ends pull n) :
    ∃ os v, p.PerformsProgram pull os v := by
  induction n generalizing p with
  | zero => exact ⟨[], p, .done (hn 0 (Nat.le_refl 0))⟩
  | succ n ih =>
    by_cases h : p.current.kind = .eof
    · exact ⟨[], p, .done h⟩
    · obtain ⟨r, u, hu⟩ := exists_performsStmt none hn
      have hend : u.Ends pull (n + 1) := hn.of_movesTo hu.movesTo
      cases r with
      | ok s =>
        obtain ⟨os, v, hv⟩ := ih hend.shift
        exact ⟨_, v, .read h hu hv⟩
      | error d =>
        obtain ⟨x, hx⟩ := exists_skips hend
        obtain ⟨os, v, hv⟩ := ih (hend.of_movesTo hx.movesTo).shift
        exact ⟨_, v, .skip h hu hx hv⟩

variable [TokenSource σ]

theorem Skips.window_eq (h : p.Skips next v) : v.window = p.window.skipStatement := by
  induction h with
  | @stop p h =>
    rw [Window.skipStatement]
    exact (if_pos h).symm
  | @pass p v h _ ih =>
    rw [Window.skipStatement]
    exact ih.trans (if_neg h).symm

theorem PerformsProgram.readAll_eq (h : p.PerformsProgram next os v) :
    readAll (p.grammar.readStmt p.exprStep) p.window = (os, v.window) := by
  have hstep : ∀ {p u : Parser σ}, p.MovesTo next u →
      u.grammar.readStmt u.exprStep = p.grammar.readStmt p.exprStep := by
    intro p u hm
    unfold exprStep
    rw [hm.grammar_eq, hm.depth_eq]
  induction h with
  | done h => exact readAll_of_eof h
  | @read p s u os v h hu _ ih =>
    rw [hstep (hu.movesTo.trans (.shift u))] at ih
    have hrun : (p.grammar.readStmt p.exprStep).run p.window = (.ok s, u.window) := hu.run_eq
    have hwindow : (u.shift next).window = u.window.advance := rfl
    unfold current at h
    rw [readAll, if_neg h]
    simp only [hrun, ← hwindow, ih]
  | @skip p d u x os v h hu hx _ ih =>
    rw [hstep ((hu.movesTo.trans hx.movesTo).trans (.shift x))] at ih
    have hrun : (p.grammar.readStmt p.exprStep).run p.window = (.error d, u.window) := hu.run_eq
    have hwindow : (x.shift next).window = u.window.skipStatement.advance := by
      rw [← hx.window_eq]
      rfl
    unfold current at h
    rw [readAll, if_neg h]
    simp only [hrun, ← hwindow, ih]

/-- The relation has no outcome but the computed one. -/
theorem PerformsProgram.program_eq (h : p.PerformsProgram next os v) :
    p.program = ⟨os, v.window.pulled⟩ := by
  rw [program, h.readAll_eq]

end Programs

/-- Where the tokens come to an end, parsing does. Whatever the grammar gives to which kinds of
tokens, and however many levels are open, each task that an expression is made of, each way to read
a statement, skipping, and reading a program all have one outcome. On a source that is known to have
an end, the outcomes are those computed. -/
theorem terminates (pull : Pull σ) (p : Parser σ)
    (h : ∃ n, ∀ m, n ≤ m → (pull.nth m p.window.source).kind = .eof) :
    (∀ t : Task, ∃! x : Except Diagnostic Expr × Parser σ, Performs pull t p x.1 x.2) ∧
    (∀ rule : Option StmtRule, ∃! x : Except Diagnostic Stmt × Parser σ,
      PerformsStmt pull rule p x.1 x.2) ∧
    (∃! v, p.Skips pull v) ∧
    (∃! x : List (Except Diagnostic Stmt) × Parser σ, p.PerformsProgram pull x.1 x.2) ∧
    ∀ {τ : Type} [TokenSource τ] (q u : Parser τ),
      (∀ t r, Performs next t q r u ↔ q.run (t.step q.grammar q.depth) = (r, u)) ∧
      (∀ rule r, PerformsStmt next rule q r u ↔ q.run (q.stmtStep rule) = (r, u)) ∧
      ∀ os, q.PerformsProgram next os u → q.program = ⟨os, u.window.pulled⟩ := by
  obtain ⟨n, hn⟩ := h
  have hend : p.Ends pull (n + 2) := .of_source hn
  refine ⟨?_, ?_, ?_, ?_, fun q u =>
    ⟨fun t r => performs_iff, fun rule r => performsStmt_iff, fun os h => h.program_eq⟩⟩
  · intro t
    obtain ⟨r, v, hv⟩ := exists_performs t hend
    exact ⟨(r, v), hv, fun x hx => Prod.ext_iff.mpr (hx.unique hv)⟩
  · intro rule
    obtain ⟨r, v, hv⟩ := exists_performsStmt rule hend
    exact ⟨(r, v), hv, fun x hx => Prod.ext_iff.mpr (hx.unique hv)⟩
  · obtain ⟨v, hv⟩ := exists_skips hend
    exact ⟨v, hv, fun x hx => hx.unique hv⟩
  · obtain ⟨os, v, hv⟩ := exists_performsProgram hend
    exact ⟨(os, v), hv, fun x hx => Prod.ext_iff.mpr (hx.unique hv)⟩

/-- Where end tokens are read as opening parentheses, there is always one more of them, and reading
ends when no level is left. -/
theorem terminates_parenthesis :
    let p := (Parser.ofSource (Replay.ofList [])).setOperand .eof .group
    (∀ m, 0 ≤ m → (Pull.nth next m p.window.source).kind = .eof) ∧
      ∃ d v, d.fault = .tooDeep nestingLimit ∧ Performs next (.expr .lowest) p (.error d) v ∧
        ∀ r u, Performs next (.expr .lowest) p r u → r = .error d ∧ u = v := by
  intro p
  have hend : ∀ m, 0 ≤ m → (Pull.nth next m p.window.source).kind = .eof := by
    intro m _
    exact TokenSource.kind_nth_of_horizon_le (Nat.zero_le m)
  obtain ⟨htask, -, -, -, hcomputed⟩ := terminates next p ⟨0, hend⟩
  obtain ⟨x, hx, hunique⟩ := htask (.expr .lowest)
  let d : Diagnostic := ⟨.tooDeep nestingLimit, (Replay.endOf []).span.start⟩
  have hd : (p.expr .lowest).1 = .error d := by decide +kernel
  have hrun : p.expr .lowest = x := ((hcomputed p x.2).1 (.expr .lowest) x.1).mp hx
  have hxd : x.1 = .error d := hrun ▸ hd
  refine ⟨hend, d, x.2, rfl, hxd ▸ hx, fun r u hu => ?_⟩
  obtain rfl := hunique (r, u) hu
  exact ⟨hxd, rfl⟩

end MonkeySyntax.Parser
