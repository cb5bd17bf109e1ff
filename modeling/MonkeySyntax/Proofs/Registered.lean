import MonkeySyntax.Proofs.Yield

/-! Operators can be given other powers, and other kinds of tokens can be given the power of an
operator. What is read then is still grouped by the powers that the operators have. -/
namespace MonkeySyntax

variable {σ : Type} [TokenSource σ]

/-- The grammar in which each of the kinds, in turn, is given the power beside it. -/
def Grammar.setOperators (rs : List (TokenKind × Power)) (g : Grammar) : Grammar :=
  rs.foldl (fun g r => g.setOperator r.1 r.2) g

theorem Grammar.operand_setOperators (rs : List (TokenKind × Power)) (g : Grammar) :
    (g.setOperators rs).operand = g.operand := by
  induction rs generalizing g with
  | nil => rfl
  | cons r rs ih => exact ih (g.setOperator r.1 r.2)

namespace Balanced

variable {o : Token} {ts us : List Token}

theorem count_up_eq (h : Balanced ts) :
    (ts.filterMap fun t => t.kind.parenthesis?).count .U =
      (ts.filterMap fun t => t.kind.parenthesis?).count .D := by
  obtain ⟨d, hd⟩ := h
  rw [← hd]
  exact d.count_U_eq_count_D

theorem count_down_le (h : Balanced (ts ++ us)) :
    (ts.filterMap fun t => t.kind.parenthesis?).count .D ≤
      (ts.filterMap fun t => t.kind.parenthesis?).count .U := by
  obtain ⟨d, hd⟩ := h
  have hle := d.count_D_le_count_U (ts.filterMap fun t => t.kind.parenthesis?).length
  rwa [hd, List.filterMap_append, List.take_left] at hle

theorem not_append (ho : o.kind = .openParen) (h : Balanced (o :: ts)) : ¬ Balanced (ts ++ us) := by
  intro h'
  have hup : o.kind.parenthesis? = some .U := by rw [ho]; rfl
  have heq := h.count_up_eq
  have hle := h'.count_down_le
  simp only [List.filterMap_cons, hup, List.count_cons_self, List.count_cons, beq_iff_eq,
    reduceCtorEq, if_false] at heq
  omega

end Balanced

namespace Grouped

theorem tokens_binary_ne_tokens_group {l r x : Grouped} {t o c : Token} {op : BinaryOp} {ht ho hc} :
    (binary l t op ht r).tokens ≠ (group o ho x c hc).tokens := by
  intro h
  obtain ⟨ts, hts⟩ := l.tokens_eq_head_cons
  obtain ⟨rs, b, hrs⟩ := (List.eq_nil_or_concat r.tokens).resolve_left r.tokens_ne_nil
  have hsplit : l.head :: (ts ++ t :: rs ++ [b]) = o :: (x.tokens ++ [c]) := by
    simpa [tokens, hts, hrs] using h
  obtain ⟨hhead, htail⟩ := List.cons.inj hsplit
  obtain ⟨hx, -⟩ := List.append_inj' htail rfl
  have hl : Balanced (o :: ts) := by
    rw [← hhead, ← hts]
    exact l.balanced_tokens
  exact hl.not_append ho (hx ▸ x.balanced_tokens)

theorem tokens_unary_ne_tokens_group {x y : Grouped} {t o c : Token} {op : UnaryOp} {ht ho hc} :
    (unary t op ht y).tokens ≠ (group o ho x c hc).tokens := by
  intro h
  obtain ⟨rfl, -⟩ := List.cons.inj h
  rw [ho] at ht
  cases op <;> cases ht

theorem tokens_atom_ne_tokens_group {x : Grouped} {t o c : Token} {e : Expr} {ht ho hc} :
    (atom t e ht).tokens ≠ (group o ho x c hc).tokens := by
  intro h
  simp [tokens] at h

/-- A tree keeps the operators, so the operators of a tree tell where its operands end. -/
theorem append_operator_inj {ls ls' rs rs' : List Token} {t : Token} {op : BinaryOp}
    (ht : t.kind = op.kind)
    (hl : (ls.filter fun t => !t.kind.isDropped) = ls'.filter fun t => !t.kind.isDropped)
    (h : ls ++ t :: rs = ls' ++ t :: rs') : ls = ls' ∧ rs = rs' := by
  have hkept : t.kind.isDropped = false := by rw [ht, op.isDropped_kind]
  rcases List.append_eq_append_iff.mp h with ⟨ms, rfl, hms⟩ | ⟨ms, rfl, hms⟩
  all_goals
    cases ms with
    | nil =>
      obtain ⟨-, rfl⟩ := List.cons.inj hms
      simp
    | cons m ms =>
      obtain ⟨rfl, -⟩ := List.cons.inj hms
      simp [hkept] at hl

/-- The tokens of a tree and the tree without its parentheses tell where the parentheses are. -/
theorem eq_of_tokens_of_expr {g h : Grouped} (ht : g.tokens = h.tokens) (he : g.expr = h.expr) :
    g = h := by
  induction g generalizing h with
  | atom t e hte =>
    cases h with
    | atom u f huf =>
      obtain ⟨rfl, -⟩ := List.cons.inj ht
      obtain rfl : e = f := he
      rfl
    | unary | binary =>
      obtain rfl := he
      cases Expr.ofToken?_eq_some_iff.mp hte
    | group => exact absurd ht tokens_atom_ne_tokens_group
  | unary t op hop x ih =>
    cases h with
    | atom u f huf =>
      obtain rfl := he
      cases Expr.ofToken?_eq_some_iff.mp huf
    | unary u op' hop' y =>
      obtain ⟨rfl, hxy⟩ := List.cons.inj ht
      obtain ⟨-, rfl, hexpr⟩ := Expr.unary.inj he
      rw [ih hxy hexpr]
    | binary => cases he
    | group => exact absurd ht tokens_unary_ne_tokens_group
  | binary l t op hop r ihl ihr =>
    cases h with
    | atom u f huf =>
      obtain rfl := he
      cases Expr.ofToken?_eq_some_iff.mp huf
    | unary => cases he
    | binary l' t' op' hop' r' =>
      obtain ⟨rfl, rfl, hl, hr⟩ := Expr.binary.inj he
      have hkept := congrArg Expr.tokens hl
      rw [tokens_expr, tokens_expr] at hkept
      obtain ⟨htl, htr⟩ := append_operator_inj hop hkept ht
      rw [ihl htl hl, ihr htr hr]
    | group => exact absurd ht tokens_binary_ne_tokens_group
  | group o ho x c hc ih =>
    cases h with
    | atom => exact absurd ht.symm tokens_atom_ne_tokens_group
    | unary => exact absurd ht.symm tokens_unary_ne_tokens_group
    | binary => exact absurd ht.symm tokens_binary_ne_tokens_group
    | group o' ho' y c' hc' =>
      obtain ⟨rfl, hin⟩ := List.cons.inj ht
      obtain ⟨hxy, hcc⟩ := List.append_inj' hin rfl
      obtain ⟨rfl, -⟩ := List.cons.inj hcc
      rw [ih hxy he]

end Grouped

/-- Whatever powers are given to whatever kinds of tokens, an expression that is read is grouped by
the powers. There is one way to write the tree that is given with the tokens that were read. In it,
no operand binds weaker than its operator, nor a right one as weak; the operand of a unary operator
binds tighter than unary operators do, and an operator behind one does not; the outermost operator
binds tighter than the power that was asked for; and no such operator follows. -/
theorem Parser.expr_respects (rs : List (TokenKind × Power)) (q : Power) (p v : Parser σ) (e : Expr)
    (hp : p.grammar = Grammar.standard.setOperators rs) (h : p.expr q = (.ok e, v)) :
    (∃! g : Grouped, p.window.Covers g.tokens v.window ∧ g.expr = e) ∧
    (∀ g : Grouped, p.window.Covers g.tokens v.window → g.expr = e →
      g.Respects p.grammar ∧ ∀ r ∈ g.power? p.grammar, q < r) ∧
    (v.peek.kind = .semicolon ∨ p.grammar.power v.peek.kind ≤ q) := by
  have hop : p.grammar.operand = Grammar.standard.operand := by
    rw [hp, Grammar.operand_setOperators]
  obtain ⟨he, rfl⟩ := Prod.mk.inj h
  obtain ⟨g, hg, hs, rfl, -⟩ :=
    Grouped.grows_readExpr hop (nestingLimit - p.depth) q p.window e _ (Prod.ext he rfl)
  have hunique : ∀ x : Grouped, p.window.Covers x.tokens ((p.exprStep q).run p.window).2 →
      x.expr = g.expr → x = g := fun x hx hxe =>
    Grouped.eq_of_tokens_of_expr (hx.tokens_eq hg.covers) hxe
  refine ⟨⟨g, ⟨hg.covers, rfl⟩, fun x hx => hunique x hx.1 hx.2⟩, ?_,
    Grammar.continuation?_eq_none_iff.mp hs⟩
  intro x hx hxe
  obtain rfl := hunique x hx hxe
  exact ⟨hg.respects, hg.tighter⟩

/-- Where products bind tighter than unary operators, `-a * b` is the negation of a product. -/
theorem Parser.expr_respects_product :
    let minus : Token := .unplaced .minus "-"
    let times : Token := .unplaced .asterisk "*"
    let a : Token := .unplaced .identifier "a"
    let b : Token := .unplaced .identifier "b"
    let p := (Parser.ofSource (Replay.ofList [minus, a, times, b])).setOperator .asterisk .call
    let x : Grouped := .unary minus .neg rfl
      (.binary (.atom a (.ident ⟨a, "a"⟩) rfl) times .mul rfl (.atom b (.ident ⟨b, "b"⟩) rfl))
    p.grammar = Grammar.standard.setOperators [(.asterisk, .call)] ∧
      ∃ v, p.expr .lowest = (.ok x.expr, v) ∧ x.Respects p.grammar ∧ ¬ x.WellShaped ∧
        (v.peek.kind = .semicolon ∨ p.grammar.power v.peek.kind ≤ .lowest) := by
  intro minus times a b p x
  have he : (p.expr .lowest).1 = .ok x.expr := by decide +kernel
  have h : p.expr .lowest = (.ok x.expr, (p.expr .lowest).2) := Prod.ext he rfl
  obtain ⟨-, hx, hs⟩ :=
    Parser.expr_respects [(.asterisk, .call)] .lowest p (p.expr .lowest).2 x.expr rfl h
  have hpulled : (p.expr .lowest).2.window.pulled = 5 := by decide +kernel
  have hc : p.window.Covers x.tokens (p.expr .lowest).2.window := by
    obtain ⟨n, hn⟩ := ((p.exprStep .lowest).forward p.window).exists_after
    change p.window.after n = (p.expr .lowest).2.window at hn
    rw [← hn, Window.pulled_after] at hpulled
    obtain rfl : n = 3 := Nat.add_left_cancel hpulled
    exact ⟨3, hn.symm, rfl⟩
  have hshape : ¬ x.WellShaped := by
    intro hw
    cases hw.2
  exact ⟨rfl, _, h, (hx x hc rfl).1, hshape, hs⟩

end MonkeySyntax
