import Mathlib.Combinatorics.Enumerative.DyckWord
import MonkeySyntax.Proofs.Sentence

/-! What a statement keeps of its tokens. Its tree lists, in order, every token that was read for it
but for parentheses, the equals sign of a binding and the semicolon, and each node is what its token
says. -/
namespace MonkeySyntax

variable {σ : Type} [TokenSource σ] {t : Token} {e : Expr}

/-- The tokens of an expression in the order of the source. -/
def Expr.tokens : Expr → List Token
  | ident x => [x.token]
  | int t _ => [t]
  | bool t _ => [t]
  | unary t _ e => t :: e.tokens
  | binary t _ l r => l.tokens ++ t :: r.tokens

def Stmt.tokens : Stmt → List Token
  | binding t x e => t :: x.token :: e.tokens
  | ret t e => t :: e.tokens
  | expr _ e => e.tokens

def Stmt.isBinding : Stmt → Bool
  | binding .. => true
  | _ => false

/-- A name is what its token says. -/
def Identifier.Agrees (x : Identifier) : Prop :=
  x.token.kind = .identifier ∧ x.value = x.token.literal

/-- Every node is what its token says. -/
def Expr.Agrees : Expr → Prop
  | ident x => x.Agrees
  | int t v => t.kind = .integer ∧ Numeral.value? t.literal = some v
  | bool t b => t.kind = if b then .kwTrue else .kwFalse
  | unary t op e => t.kind = op.kind ∧ e.Agrees
  | binary t op l r => t.kind = op.kind ∧ l.Agrees ∧ r.Agrees

def Stmt.Agrees : Stmt → Prop
  | binding t x e => t.kind = .kwLet ∧ x.Agrees ∧ e.Agrees
  | ret t e => t.kind = .kwReturn ∧ e.Agrees
  | expr _ e => e.Agrees

def TokenKind.isDropped : TokenKind → Bool
  | openParen | closeParen | assign | semicolon => true
  | _ => false

/-- A parenthesis as a step up or down. -/
def TokenKind.parenthesis? : TokenKind → Option DyckStep
  | openParen => some .U
  | closeParen => some .D
  | _ => none

/-- The parentheses among the tokens are balanced. -/
def Balanced (ts : List Token) : Prop :=
  ∃ d : DyckWord, d.toList = ts.filterMap fun t => t.kind.parenthesis?

namespace Balanced

variable {ts us : List Token}

theorem nil : Balanced [] := ⟨0, rfl⟩

theorem append (h : Balanced ts) (h' : Balanced us) : Balanced (ts ++ us) := by
  obtain ⟨d, hd⟩ := h
  obtain ⟨d', hd'⟩ := h'
  refine ⟨d + d', ?_⟩
  rw [List.filterMap_append, ← hd, ← hd']
  rfl

theorem cons (h : t.kind.parenthesis? = none) (h' : Balanced ts) : Balanced (t :: ts) := by
  obtain ⟨d, hd⟩ := h'
  exact ⟨d, by simp [h, hd]⟩

theorem concat (h : Balanced ts) (h' : t.kind.parenthesis? = none) : Balanced (ts ++ [t]) :=
  h.append (.cons h' .nil)

theorem nest {o c : Token} (ho : o.kind = .openParen) (hc : c.kind = .closeParen)
    (h : Balanced ts) : Balanced (o :: (ts ++ [c])) := by
  obtain ⟨d, hd⟩ := h
  refine ⟨d.nest, ?_⟩
  have ho' : o.kind.parenthesis? = some .U := by rw [ho]; rfl
  have hc' : c.kind.parenthesis? = some .D := by rw [hc]; rfl
  simp [ho', hc', hd, DyckWord.nest]

end Balanced

theorem UnaryOp.isDropped_kind (op : UnaryOp) : op.kind.isDropped = false := by
  cases op <;> rfl

theorem UnaryOp.parenthesis?_kind (op : UnaryOp) : op.kind.parenthesis? = none := by
  cases op <;> rfl

theorem BinaryOp.isDropped_kind (op : BinaryOp) : op.kind.isDropped = false := by
  cases op <;> rfl

theorem BinaryOp.parenthesis?_kind (op : BinaryOp) : op.kind.parenthesis? = none := by
  cases op <;> rfl

theorem Expr.yield_of_ofToken? (h : ofToken? t = some e) :
    e.tokens = [t] ∧ e.Agrees ∧ t.kind.isDropped = false ∧ t.kind.parenthesis? = none := by
  cases ofToken?_eq_some_iff.mp h with
  | name hk => exact ⟨rfl, ⟨hk, rfl⟩, by rw [hk]; exact ⟨rfl, rfl⟩⟩
  | number hk hv => exact ⟨rfl, ⟨hk, hv⟩, by rw [hk]; exact ⟨rfl, rfl⟩⟩
  | truth b hk => exact ⟨rfl, hk, by rw [hk]; cases b <;> exact ⟨rfl, rfl⟩⟩

namespace Grouped

theorem tokens_expr (g : Grouped) :
    g.expr.tokens = g.tokens.filter fun t => !t.kind.isDropped := by
  induction g with
  | atom t e h =>
    obtain ⟨ht, -, hk, -⟩ := Expr.yield_of_ofToken? h
    simp [expr, tokens, ht, hk]
  | unary t op h x ih => simp [expr, tokens, Expr.tokens, ih, h, op.isDropped_kind]
  | binary l t op h r hl hr => simp [expr, tokens, Expr.tokens, hl, hr, h, op.isDropped_kind]
  | group o ho x c hc ih => simp [expr, tokens, ih, ho, hc, TokenKind.isDropped]

theorem agrees_expr (g : Grouped) : g.expr.Agrees := by
  induction g with
  | atom t e h => exact (Expr.yield_of_ofToken? h).2.1
  | unary t op h x ih => exact ⟨h, ih⟩
  | binary l t op h r hl hr => exact ⟨h, hl, hr⟩
  | group o ho x c hc ih => exact ih

theorem balanced_tokens (g : Grouped) : Balanced g.tokens := by
  induction g with
  | atom t e h => exact .cons (Expr.yield_of_ofToken? h).2.2.2 .nil
  | unary t op h x ih => exact .cons (h ▸ op.parenthesis?_kind) ih
  | binary l t op h r hl hr => exact hl.append (.cons (h ▸ op.parenthesis?_kind) hr)
  | group o ho x c hc ih => exact .nest ho hc ih

theorem kind_ne_assign {g : Grouped} (h : t ∈ g.tokens) : t.kind ≠ .assign := by
  have hall : ∀ k ∈ kinds, k ≠ .assign := by decide
  exact hall t.kind (kind_mem_kinds h)

end Grouped

namespace Sentence

variable {x : Sentence}

theorem token_stmt (x : Sentence) : x.stmt.token = x.head := by
  cases x <;> rfl

theorem tokens_stmt (x : Sentence) :
    x.stmt.tokens = x.tokens.filter fun t => !t.kind.isDropped := by
  cases x with
  | binding k a q g s hk ha hq hs =>
    simp [stmt, tokens, Stmt.tokens, g.tokens_expr, hk, ha, hq, hs, TokenKind.isDropped]
  | ret k g s hk hs => simp [stmt, tokens, Stmt.tokens, g.tokens_expr, hk, hs, TokenKind.isDropped]
  | expr g s hs =>
    have hnone : s.toList.filter (fun t => !t.kind.isDropped) = [] := by
      rw [List.filter_eq_nil_iff]
      intro t ht
      simp [hs t (Option.mem_toList.mp ht), TokenKind.isDropped]
    simp [stmt, tokens, Stmt.tokens, g.tokens_expr, hnone]

theorem agrees_stmt (x : Sentence) : x.stmt.Agrees := by
  cases x with
  | binding k a q g s hk ha hq hs => exact ⟨hk, ⟨ha, rfl⟩, g.agrees_expr⟩
  | ret k g s hk hs => exact ⟨hk, g.agrees_expr⟩
  | expr g s hs => exact g.agrees_expr

theorem balanced_tokens (x : Sentence) : Balanced x.tokens := by
  cases x with
  | binding k a q g s hk ha hq hs =>
    refine .cons (by rw [hk]; rfl) (.cons (by rw [ha]; rfl) (.cons (by rw [hq]; rfl) ?_))
    exact g.balanced_tokens.concat (by rw [hs]; rfl)
  | ret k g s hk hs =>
    exact .cons (by rw [hk]; rfl) (g.balanced_tokens.concat (by rw [hs]; rfl))
  | expr g s hs =>
    cases s with
    | none => simpa [tokens] using g.balanced_tokens
    | some s => exact g.balanced_tokens.concat (by rw [hs s rfl]; rfl)

/-- The only equals sign of a statement is the third token of a binding. -/
theorem kind_eq_assign_iff {i : Nat} (h : x.tokens[i]? = some t) :
    t.kind = .assign ↔ i = 2 ∧ x.stmt.isBinding := by
  have hvalue : ∀ {g : Grouped} {s : Token}, s.kind = .semicolon → ∀ u ∈ g.tokens ++ [s],
      u.kind ≠ .assign := by
    intro g s hs u hu
    rcases List.mem_append.mp hu with hu | hu
    · exact g.kind_ne_assign hu
    · obtain rfl := List.mem_singleton.mp hu
      simp [hs]
  cases x with
  | binding k a q g s hk ha hq hs =>
    match i with
    | 0 =>
      obtain rfl := Option.some.inj h
      simp [hk]
    | 1 =>
      obtain rfl := Option.some.inj h
      simp [ha]
    | 2 =>
      obtain rfl := Option.some.inj h
      exact iff_of_true hq ⟨rfl, rfl⟩
    | i + 3 => simp [hvalue hs t (List.mem_of_getElem? h)]
  | ret k g s hk hs =>
    rcases List.mem_cons.mp (List.mem_of_getElem? h) with rfl | h
    · simp [hk, stmt, Stmt.isBinding]
    · simp [hvalue hs t h, stmt, Stmt.isBinding]
  | expr g s hs =>
    rcases List.mem_append.mp (List.mem_of_getElem? h) with h | h
    · simp [g.kind_ne_assign h, stmt, Stmt.isBinding]
    · simp [hs t (Option.mem_toList.mp h), stmt, Stmt.isBinding]

end Sentence

/-- A statement keeps what was read for it. The tokens of its tree, in order, are those from the
first to the last token that was read, but for parentheses, which are balanced, the equals sign of a
binding, and the semicolon at the end. The statement's own token is the first one, and every node is
what its token says. -/
theorem Parser.stmt_tokens (p : Parser σ) (hp : p.grammar = .standard) :
    ∀ s p', p.stmt = (.ok s, p') →
      ∃ ts, p.window.Covers ts p'.window ∧
        s.tokens = (ts.filter fun t => !t.kind.isDropped) ∧
        Balanced ts ∧
        (∀ i t, ts[i]? = some t → (t.kind = .assign ↔ i = 2 ∧ s.isBinding)) ∧
        (∀ t ∈ ts.dropLast, t.kind ≠ .semicolon) ∧
        ts.head? = some s.token ∧ s.Agrees := by
  intro s p' h
  have hstep : p.exprStep = Grammar.standard.readExpr (nestingLimit - p.depth) := by
    funext q
    rw [exprStep, hp]
  obtain ⟨hs, rfl⟩ := Prod.mk.inj h
  have hrun : (Grammar.standard.readStmt (Grammar.standard.readExpr (nestingLimit - p.depth))).run
      p.window = (.ok s, ((p.grammar.readStmt p.exprStep).run p.window).2) := by
    rw [← hs, ← hstep, hp]
  obtain ⟨x, hx, rfl, -⟩ := Sentence.exists_of_readStmt hrun
  have hhead : x.tokens.head? = some x.stmt.token := by
    obtain ⟨ts, hts⟩ := x.tokens_eq_head_cons
    rw [hts, x.token_stmt]
    rfl
  exact ⟨x.tokens, hx.covers, x.tokens_stmt, x.balanced_tokens,
    fun i t ht => Sentence.kind_eq_assign_iff ht,
    fun t ht => Sentence.kind_ne_semicolon_of_mem_dropLast ht, hhead, x.agrees_stmt⟩

/-- In `let x = (1);` the tree keeps three of the seven tokens. -/
theorem Parser.stmt_tokens_binding :
    let one : Token := .unplaced .integer "1"
    let keyword : Token := .unplaced .kwLet "let"
    let name : Token := .unplaced .identifier "x"
    let p := Parser.ofSource (Replay.ofList [keyword, name, .unplaced .assign "=",
      .unplaced .openParen "(", one, .unplaced .closeParen ")", .unplaced .semicolon ";"])
    p.grammar = .standard ∧ ∃ s p', p.stmt = (.ok s, p') ∧ s.tokens = [keyword, name, one] ∧
      ∃ ts, p.window.Covers ts p'.window ∧
        s.tokens = (ts.filter fun t => !t.kind.isDropped) ∧ Balanced ts ∧ s.Agrees := by
  intro one keyword name p
  let s : Stmt := .binding keyword ⟨name, "x"⟩ (.int one 1)
  have hs : p.stmt.1 = .ok s := by decide +kernel
  have h : p.stmt = (.ok s, p.stmt.2) := Prod.ext hs rfl
  obtain ⟨ts, hc, ht, hb, -, -, -, ha⟩ := Parser.stmt_tokens p rfl s p.stmt.2 h
  exact ⟨rfl, s, p.stmt.2, h, rfl, ts, hc, ht, hb, ha⟩

end MonkeySyntax
