import MonkeySyntax.Proofs.Levels

/-! What can be done to a parser, in any order and as often as one likes, and what stays true of the
parser all the while. -/
namespace MonkeySyntax

open TokenSource (next)

/-- What can be done to a parser, by the type of the value it gives. -/
inductive Operation : Type → Type
  | advance : Operation Unit
  | expect (k : TokenKind) : Operation Token
  | enter : Operation Unit
  | exit : Operation Unit
  | setOperator (k : TokenKind) (q : Power) : Operation Unit
  | setOperand (k : TokenKind) (rule : OperandRule) : Operation Unit
  | setStatement (k : TokenKind) (rule : StmtRule) : Operation Unit
  | expr (q : Power) : Operation Expr
  | operand (rule : OperandRule) : Operation Expr
  | binary (left : Expr) (q : Power) : Operation Expr
  /-- A statement by a rule, or by the one that the grammar has for the current token. -/
  | statement (rule : Option StmtRule) : Operation Stmt

def Parser.tryEnter {σ : Type} (p : Parser σ) : Except Diagnostic Unit × Parser σ :=
  match p.enter with
  | .ok v => (.ok (), v)
  | .error d => (.error d, p)

namespace Operation

variable {σ α : Type}

/-- Only a level that is open can be closed. -/
def Permitted (p : Parser σ) : Operation α → Prop
  | exit => 0 < p.depth
  | _ => True

def Parses : Operation α → Prop
  | expr _ | operand _ | binary .. | statement _ => True
  | _ => False

def Looks : Operation α → Prop
  | expect _ | enter => True
  | _ => False

/-- The operation can take `p` to the outcome `r` and the parser `v`. -/
def Takes (pull : Pull σ) (p : Parser σ) : Operation α → Except Diagnostic α → Parser σ → Prop
  | advance, r, v => (.ok (), p.shift pull) = (r, v)
  | expect k, r, v => p.require pull k = (r, v)
  | enter, r, v => p.tryEnter = (r, v)
  | exit, r, v => (.ok (), p.exit) = (r, v)
  | setOperator k q, r, v => (.ok (), p.setOperator k q) = (r, v)
  | setOperand k rule, r, v => (.ok (), p.setOperand k rule) = (r, v)
  | setStatement k rule, r, v => (.ok (), p.setStatement k rule) = (r, v)
  | expr q, r, v => Parser.Performs pull (.expr q) p r v
  | operand rule, r, v => Parser.Performs pull (.operand rule) p r v
  | binary left q, r, v => Parser.Performs pull (.binary left q) p r v
  | statement rule, r, v => Parser.PerformsStmt pull rule p r v

/-- Does an operation, on a source with an end. -/
def run [TokenSource σ] (p : Parser σ) : Operation α → Except Diagnostic α × Parser σ
  | advance => (.ok (), p.advance)
  | expect k => p.expect k
  | enter => p.tryEnter
  | exit => (.ok (), p.exit)
  | setOperator k q => (.ok (), p.setOperator k q)
  | setOperand k rule => (.ok (), p.setOperand k rule)
  | setStatement k rule => (.ok (), p.setStatement k rule)
  | expr q => p.expr q
  | operand rule => p.operand rule
  | binary left q => p.binary left q
  | statement (some rule) => p.stmtBy rule
  | statement none => p.stmt

theorem takes_next_iff [TokenSource σ] {o : Operation α} {p v : Parser σ}
    {r : Except Diagnostic α} : o.Takes next p r v ↔ o.run p = (r, v) := by
  cases o with
  | expect k => rw [Takes, Parser.require_next, run]
  | expr | operand | binary => exact Parser.performs_iff
  | statement rule => cases rule <;> exact Parser.performsStmt_iff
  | _ => exact Iff.rfl

variable {pull : Pull σ} {o : Operation α} {p v : Parser σ} {r : Except Diagnostic α}

theorem Takes.movesTo (h : o.Takes pull p r v) (ho : o.Parses) : p.MovesTo pull v := by
  cases o with
  | expr | operand | binary => exact Parser.Performs.movesTo h
  | statement => exact Parser.PerformsStmt.movesTo h
  | _ => exact ho.elim

theorem Takes.eq_of_error {d : Diagnostic} (h : o.Takes pull p (.error d) v) (ho : o.Looks) :
    v = p := by
  cases o with
  | expect k =>
    simp only [Takes, Parser.require] at h
    split at h
    · cases h
    · exact (Prod.mk.inj h).2.symm
  | enter =>
    simp only [Takes, Parser.tryEnter] at h
    split at h
    · cases h
    · exact (Prod.mk.inj h).2.symm
  | _ => exact ho.elim

end Operation

namespace Parser

variable {σ : Type} {pull : Pull σ} {s : σ} {p v : Parser σ}

/-- The parser shows the two tokens of `s` that were pulled last, and no more levels are open than
there are. -/
structure Consistent (pull : Pull σ) (s : σ) (p : Parser σ) : Prop where
  two_le_pulled : 2 ≤ p.window.pulled
  source_eq : p.window.source = pull.after p.window.pulled s
  current_eq : p.current = pull.nth (p.window.pulled - 2) s
  peek_eq : p.peek = pull.nth (p.window.pulled - 1) s
  depth_le : p.depth ≤ nestingLimit

namespace Consistent

theorem start (s : σ) : (start pull s).Consistent pull s :=
  ⟨Nat.le_refl 2, rfl, rfl, rfl, Nat.zero_le _⟩

theorem shift (h : p.Consistent pull s) : (p.shift pull).Consistent pull s where
  two_le_pulled := Nat.le_succ_of_le h.two_le_pulled
  source_eq := by
    change (pull p.window.source).2 = pull.after (p.window.pulled + 1) s
    rw [pull.after_succ, h.source_eq]
  current_eq := h.peek_eq
  peek_eq := by
    change (pull p.window.source).1 = pull.nth p.window.pulled s
    rw [h.source_eq]
    rfl
  depth_le := h.depth_le

theorem of_movesTo (h : p.Consistent pull s) (hv : p.MovesTo pull v) : v.Consistent pull s :=
  hv.induction h fun _ hu => hu.shift

theorem of_window_eq (h : p.Consistent pull s) (hw : v.window = p.window)
    (hd : v.depth ≤ nestingLimit) : v.Consistent pull s := by
  obtain ⟨h2, hs, hc, hp, -⟩ := h
  unfold current at hc
  unfold peek at hp
  exact ⟨by rwa [hw], by rwa [hw], by rwa [current, hw], by rwa [peek, hw], hd⟩

theorem takes {α : Type} {o : Operation α} {r : Except Diagnostic α} (h : p.Consistent pull s)
    (ho : o.Takes pull p r v) : v.Consistent pull s := by
  cases o with
  | advance =>
    cases ho
    exact h.shift
  | expect k => exact h.of_movesTo (.of_require ho)
  | enter =>
    simp only [Operation.Takes, Parser.tryEnter] at ho
    split at ho
    · next u hu =>
      obtain ⟨hlt, rfl⟩ := enter_eq_ok_iff.mp hu
      cases ho
      exact h.of_window_eq rfl hlt
    · cases ho
      exact h
  | exit =>
    cases ho
    exact h.of_window_eq rfl (Nat.le_trans (Nat.sub_le _ 1) h.depth_le)
  | setOperator | setOperand | setStatement =>
    cases ho
    exact h.of_window_eq rfl h.depth_le
  | expr | operand | binary | statement => exact h.of_movesTo (Operation.Takes.movesTo ho trivial)

end Consistent

/-- The parsers that come about from one at the start of `s` by operations. -/
inductive Reached (pull : Pull σ) (s : σ) : Parser σ → Prop
  | start : Reached pull s (start pull s)
  | step {α : Type} {o : Operation α} {p v : Parser σ} {r : Except Diagnostic α}
      (hp : Reached pull s p) (ho : o.Permitted p) (h : o.Takes pull p r v) : Reached pull s v

theorem Reached.consistent (h : Reached pull s p) : p.Consistent pull s := by
  induction h with
  | start => exact .start s
  | step _ _ h ih => exact ih.takes h

/-- Whatever is done to a parser and in whatever order, it shows the two tokens that it pulled last,
with at most as many open levels as there are. Parsing leaves the grammar and the open levels as
they were, also if it fails, and an operation that looks first does nothing if it fails. None of
this takes a source with an end; on one that has an end, the operations are the ones computed. -/
theorem reached_consistent (pull : Pull σ) (s : σ) (p : Parser σ) (h : Reached pull s p) :
    p.Consistent pull s ∧
    (∀ {α : Type} (o : Operation α) (r : Except Diagnostic α) (v : Parser σ), o.Takes pull p r v →
      (o.Parses → v.depth = p.depth ∧ v.grammar = p.grammar) ∧
      (o.Looks → ∀ d, r = .error d → v = p)) ∧
    ∀ {τ : Type} [TokenSource τ] (t : τ), Parser.start next t = .ofSource t ∧
      ∀ {α : Type} (o : Operation α) (q v : Parser τ) (r : Except Diagnostic α),
        o.Takes next q r v ↔ o.run q = (r, v) := by
  refine ⟨h.consistent, ?_, fun t => ⟨rfl, fun o q v r => Operation.takes_next_iff⟩⟩
  intro α o r v hv
  constructor
  · intro ho
    exact ⟨(hv.movesTo ho).depth_eq, (hv.movesTo ho).grammar_eq⟩
  · rintro ho d rfl
    exact hv.eq_of_error ho

/-- On an endless row of names, with one level open, a semicolon is missed and nothing happens. -/
theorem reached_consistent_endless :
    let name : Token := .unplaced .identifier "a"
    let pull : Pull Nat := fun n => (name, n + 1)
    let p : Parser Nat := { start pull 0 with depth := 1 }
    let d : Diagnostic := ⟨.unexpected .semicolon .identifier, .unknown⟩
    p.Reached pull 0 ∧ p.Consistent pull 0 ∧
      (Operation.expect .semicolon).Takes pull p (.error d) p ∧
      ∀ v : Parser Nat, (Operation.expect .semicolon).Takes pull p (.error d) v → v = p := by
  intro name pull p d
  have hp : p.Reached pull 0 := .step (o := .enter) .start trivial rfl
  obtain ⟨hc, ho, -⟩ := reached_consistent pull 0 p hp
  exact ⟨hp, hc, rfl, fun v hv => (ho _ _ v hv).2 trivial d rfl⟩

end Parser
end MonkeySyntax
