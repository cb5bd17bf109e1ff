import MonkeySyntax.Grammar
import MonkeySyntax.Parse.Expression
import MonkeySyntax.Tree

/-! Expressions as they are written, with their parentheses, and the shape that the powers of the
operators give them. -/
namespace MonkeySyntax

/-- The power of an operator in the standard grammar. -/
def BinaryOp.power : BinaryOp → Power
  | eq | ne => .equality
  | lt | gt => .relational
  | add | sub => .additive
  | mul | div => .multiplicative

theorem BinaryOp.kind_injective {o p : BinaryOp} (h : o.kind = p.kind) : o = p := by
  cases o <;> cases p <;> first | rfl | cases h

theorem UnaryOp.kind_injective {o p : UnaryOp} (h : o.kind = p.kind) : o = p := by
  cases o <;> cases p <;> first | rfl | cases h

namespace Grammar

theorem standard_operator_eq_some_iff {k : TokenKind} {p : Power} :
    standard.operator k = some p ↔ ∃ o : BinaryOp, k = o.kind ∧ o.power = p := by
  constructor
  · intro h
    have ho : (BinaryOp.ofKind? k).isSome := by cases k <;> first | rfl | cases h
    obtain ⟨o, ho⟩ := Option.isSome_iff_exists.mp ho
    obtain rfl := BinaryOp.ofKind?_eq_some_iff.mp ho
    exact ⟨o, rfl, by cases o <;> exact Option.some.inj h⟩
  · rintro ⟨o, rfl, rfl⟩
    cases o <;> rfl

theorem standard_power_kind (op : BinaryOp) : standard.power op.kind = op.power := by
  cases op <;> rfl

/-- In the standard grammar an expression goes on exactly at the operators of a higher power. -/
theorem standard_continuation?_eq_some_iff {p q : Power} {k : TokenKind} :
    standard.continuation? p k = some q ↔ ∃ o : BinaryOp, k = o.kind ∧ o.power = q ∧ p < q := by
  rw [continuation?_eq_some_iff, standard_operator_eq_some_iff]
  constructor
  · rintro ⟨-, ⟨o, hk, ho⟩, hlt⟩
    exact ⟨o, hk, ho, hlt⟩
  · rintro ⟨o, rfl, ho, hlt⟩
    exact ⟨by cases o <;> decide, ⟨o, rfl, ho⟩, hlt⟩

theorem standard_continuation?_eq_none_iff {p : Power} {k : TokenKind} :
    standard.continuation? p k = none ↔ ∀ o : BinaryOp, k = o.kind → ¬ p < o.power := by
  rw [Option.eq_none_iff_forall_ne_some]
  constructor
  · intro h o hk hlt
    exact h o.power (standard_continuation?_eq_some_iff.mpr ⟨o, hk, rfl, hlt⟩)
  · intro h q hq
    obtain ⟨o, hk, rfl, hlt⟩ := standard_continuation?_eq_some_iff.mp hq
    exact h o hk hlt

theorem standard_continuation?_kind_eq_none_iff {p : Power} (op : BinaryOp) :
    standard.continuation? p op.kind = none ↔ op.power ≤ p := by
  rw [standard_continuation?_eq_none_iff]
  constructor
  · exact fun h => Nat.not_lt.mp (h op rfl)
  · intro h o ho
    obtain rfl := BinaryOp.kind_injective ho
    exact Nat.not_lt.mpr h

theorem continuation?_eq_none_of_le {g : Grammar} {p q : Power} {k : TokenKind} (hpq : p ≤ q)
    (h : g.continuation? p k = none) : g.continuation? q k = none := by
  rw [continuation?_eq_none_iff] at h ⊢
  exact h.imp_right fun hk => Nat.le_trans hk hpq

theorem standard_continuation?_unary (k : TokenKind) : standard.continuation? .unary k = none := by
  rw [standard_continuation?_eq_none_iff]
  intro o _
  cases o <;> decide

end Grammar

def Token.unplaced (k : TokenKind) (literal : String) : Token := ⟨k, literal, .empty .unknown⟩

/-- The expression that a token is by itself: a name, a truth value, or an integer in range. -/
def Expr.ofToken? (t : Token) : Option Expr :=
  match t.kind with
  | .identifier => some (.ident ⟨t, t.literal⟩)
  | .integer => (Numeral.value? t.literal).map (.int t)
  | .kwTrue => some (.bool t true)
  | .kwFalse => some (.bool t false)
  | _ => none

/-- The tokens that are expressions by themselves, each with its expression. -/
inductive Expr.IsAtom (t : Token) : Expr → Prop
  | name : t.kind = .identifier → IsAtom t (.ident ⟨t, t.literal⟩)
  | number {v : Int} : t.kind = .integer → Numeral.value? t.literal = some v → IsAtom t (.int t v)
  | truth (b : Bool) : t.kind = (if b then .kwTrue else .kwFalse) → IsAtom t (.bool t b)

theorem Expr.ofToken?_eq_some_iff {t : Token} {e : Expr} : ofToken? t = some e ↔ IsAtom t e := by
  constructor
  · intro h
    unfold ofToken? at h
    split at h
    · next hk =>
      cases h
      exact .name hk
    · next hk =>
      obtain ⟨v, hv, rfl⟩ := Option.map_eq_some_iff.mp h
      exact .number hk hv
    · next hk =>
      cases h
      exact .truth true hk
    · next hk =>
      cases h
      exact .truth false hk
    · cases h
  · rintro (hk | ⟨hk, hv⟩ | ⟨b, hk⟩)
    · rw [ofToken?, hk]
    · rw [ofToken?, hk, hv]
      rfl
    · cases b
      all_goals
        rw [ofToken?, hk]
        rfl

theorem Expr.kind_of_ofToken? {t : Token} {e : Expr} (h : ofToken? t = some e) :
    t.kind = .identifier ∨ t.kind = .integer ∨ t.kind = .kwTrue ∨ t.kind = .kwFalse := by
  cases ofToken?_eq_some_iff.mp h with
  | name hk => exact .inl hk
  | number hk _ => exact .inr (.inl hk)
  | truth b hk =>
    cases b
    · exact .inr (.inr (.inr hk))
    · exact .inr (.inr (.inl hk))

/-- An expression with its parentheses. Each token is of the kind that its place asks for. -/
inductive Grouped
  | atom (token : Token) (value : Expr) (isAtom : Expr.ofToken? token = some value)
  | unary (token : Token) (op : UnaryOp) (isOp : token.kind = op.kind) (operand : Grouped)
  | binary (left : Grouped) (token : Token) (op : BinaryOp) (isOp : token.kind = op.kind)
      (right : Grouped)
  | group (opening : Token) (isOpening : opening.kind = .openParen) (inner : Grouped)
      (closing : Token) (isClosing : closing.kind = .closeParen)

namespace Grouped

def tokens : Grouped → List Token
  | atom t _ _ => [t]
  | unary t _ _ x => t :: x.tokens
  | binary l t _ _ r => l.tokens ++ t :: r.tokens
  | group o _ x c _ => o :: (x.tokens ++ [c])

def expr : Grouped → Expr
  | atom _ e _ => e
  | unary t op _ x => .unary t op x.expr
  | binary l t op _ r => .binary t op l.expr r.expr
  | group _ _ x _ _ => x.expr

/-- The power of the operator that stands outside of all parentheses, if the tree is a binary
operation. -/
def top? : Grouped → Option Power
  | binary _ _ op _ _ => some op.power
  | _ => none

/-- No operand binds weaker than its operator, nor a right one as weak; the operand of a unary
operator is no binary operation. -/
def WellShaped : Grouped → Prop
  | atom .. => True
  | unary _ _ _ x => x.WellShaped ∧ x.top? = none
  | binary l _ op _ r =>
    l.WellShaped ∧ r.WellShaped ∧ (∀ q ∈ l.top?, op.power ≤ q) ∧ (∀ q ∈ r.top?, op.power < q)
  | group _ _ x _ _ => x.WellShaped

def head : Grouped → Token
  | atom t _ _ => t
  | unary t _ _ _ => t
  | binary l _ _ _ _ => l.head
  | group o _ _ _ _ => o

/-- How many levels are open at once where the tree is read: its own, and those inside of it. A
left operand is read on the level of its operator. -/
def levels : Grouped → Nat
  | atom .. => 1
  | unary _ _ _ x => x.levels + 1
  | binary l _ _ _ r => max l.levels (r.levels + 1)
  | group _ _ x _ _ => x.levels + 1

/-- The first token at which a level would have to be opened when only `n` are left. -/
def blocked? : Grouped → Nat → Option Token
  | g, 0 => some g.head
  | atom .., _ + 1 => none
  | unary _ _ _ x, n + 1 => x.blocked? n
  | binary l _ _ _ r, n + 1 => (l.blocked? (n + 1)).or (r.blocked? n)
  | group _ _ x _ _, n + 1 => x.blocked? n

theorem tokens_eq_head_cons (g : Grouped) : ∃ ts, g.tokens = g.head :: ts := by
  induction g with
  | binary l t op ht r hl hr =>
    obtain ⟨ts, hl⟩ := hl
    exact ⟨ts ++ t :: r.tokens, by simp [tokens, head, hl]⟩
  | _ => exact ⟨_, rfl⟩

theorem tokens_ne_nil (g : Grouped) : g.tokens ≠ [] := by
  cases g <;> simp [tokens]

def kinds : List TokenKind :=
  [.identifier, .integer, .kwTrue, .kwFalse, .bang, .minus, .plus, .asterisk, .slash, .less,
    .greater, .equal, .notEqual, .openParen, .closeParen]

theorem kind_mem_kinds {g : Grouped} {t : Token} (h : t ∈ g.tokens) : t.kind ∈ kinds := by
  induction g with
  | atom u e he =>
    obtain rfl : t = u := by simpa [tokens] using h
    rcases Expr.kind_of_ofToken? he with hk | hk | hk | hk
    all_goals
      rw [hk]
      decide
  | unary u op hu x ih =>
    rcases List.mem_cons.mp h with rfl | h
    · rw [hu]
      cases op <;> decide
    · exact ih h
  | binary l u op hu r hl hr =>
    rcases List.mem_append.mp h with h | h
    · exact hl h
    · rcases List.mem_cons.mp h with rfl | h
      · rw [hu]
        cases op <;> decide
      · exact hr h
  | group o ho x c hc ih =>
    rcases List.mem_cons.mp h with rfl | h
    · rw [ho]
      decide
    · rcases List.mem_append.mp h with h | h
      · exact ih h
      · obtain rfl : t = c := by simpa using h
        rw [hc]
        decide

/-- An expression holds neither end tokens nor semicolons, nor the keyword of a statement. -/
theorem kind_of_mem_tokens {g : Grouped} {t : Token} (h : t ∈ g.tokens) :
    t.kind ≠ .eof ∧ t.kind ≠ .semicolon ∧ Grammar.standard.statement t.kind = none := by
  have hall : ∀ k ∈ kinds, k ≠ .eof ∧ k ≠ .semicolon ∧ Grammar.standard.statement k = none := by
    decide
  exact hall t.kind (kind_mem_kinds h)

theorem head_mem_tokens (g : Grouped) : g.head ∈ g.tokens := by
  obtain ⟨ts, hts⟩ := g.tokens_eq_head_cons
  simp [hts]

theorem levels_pos (g : Grouped) : 0 < g.levels := by
  induction g with
  | binary l t op ht r hl hr => exact Nat.lt_of_lt_of_le hl (Nat.le_max_left _ _)
  | _ => exact Nat.succ_pos _

/-- Levels run out exactly where fewer are left than the tree needs. -/
theorem blocked?_eq_none_iff {g : Grouped} {n : Nat} : g.blocked? n = none ↔ g.levels ≤ n := by
  induction g generalizing n with
  | atom t e h => cases n <;> simp [blocked?, levels]
  | unary t op h x ih => cases n <;> simp [blocked?, levels, ih]
  | group o ho x c hc ih => cases n <;> simp [blocked?, levels, ih]
  | binary l t op h r hl hr =>
    have hpos := l.levels_pos
    cases n with
    | zero =>
      simp only [blocked?, levels, reduceCtorEq, false_iff]
      omega
    | succ n =>
      simp only [blocked?, levels, Option.or_eq_none_iff, hl, hr]
      omega

theorem lowest_lt_top (g : Grouped) : ∀ q ∈ g.top?, Power.lowest < q := by
  intro q hq
  cases g with
  | binary l t op ht r =>
    obtain rfl : op.power = q := by simpa [top?] using hq
    cases op <;> decide
  | _ => cases hq

theorem top?_eq_none_iff {g : Grouped} : g.top? = none ↔ ∀ q ∈ g.top?, Power.unary < q := by
  cases g with
  | binary l t op ht r =>
    have hle : ¬ Power.unary < op.power := by cases op <;> decide
    simp [top?, hle]
  | _ => simp [top?]

end Grouped
end MonkeySyntax
