import MonkeySyntax.Proofs.Sentence
import MonkeySyntax.Proofs.Spelling

/-! The trees that written forms spell: every operation stands in parentheses, and nothing else
does. -/
namespace MonkeySyntax

open Scan Text

def Token.opening : Token := .unplaced .openParen "("

def Token.closing : Token := .unplaced .closeParen ")"

/-- How many levels are open at once where the written form of an expression is read. -/
def Expr.writtenLevels : Expr → Nat
  | ident _ | int .. | bool .. => 1
  | unary _ _ e => 2 + e.writtenLevels
  | binary _ _ l r => 1 + max l.writtenLevels (1 + r.writtenLevels)

theorem Expr.toList_render_unary (t : Token) (op : UnaryOp) (e : Expr) :
    (unary t op e).render.toList = '(' :: (op.symbol.toList ++ (e.render.toList ++ [')'])) := by
  simp [render]

theorem Expr.toList_render_binary (t : Token) (op : BinaryOp) (l r : Expr) :
    (binary t op l r).render.toList = '(' :: (l.render.toList ++
      ' ' :: (op.symbol.toList ++ ' ' :: (r.render.toList ++ [')']))) := by
  simp [render]

theorem Expr.of_ofToken?_eq_some {t : Token} {e : Expr} (h : ofToken? t = some e) :
    e.render = t.literal ∧ e.writtenLevels = 1 := by
  cases ofToken?_eq_some_iff.mp h <;> exact ⟨rfl, rfl⟩

namespace Grouped

/-- The same tree with parentheses where its written form has them. -/
def written : Grouped → Grouped
  | atom t e h => atom t e h
  | unary t op h x => group .opening rfl (unary t op h x.written) .closing rfl
  | binary l t op h r => group .opening rfl (binary l.written t op h r.written) .closing rfl
  | group _ _ x _ _ => x.written

@[simp] theorem expr_written (g : Grouped) : g.written.expr = g.expr := by
  induction g with
  | atom t e h => rfl
  | unary t op h x ih => simp [written, expr, ih]
  | binary l t op h r hl hr => simp [written, expr, hl, hr]
  | group o ho x c hc ih => exact ih

@[simp] theorem top_written (g : Grouped) : g.written.top? = none := by
  induction g with
  | group o ho x c hc ih => exact ih
  | _ => rfl

theorem wellShaped_written (g : Grouped) : g.written.WellShaped := by
  induction g with
  | atom t e h => trivial
  | unary t op h x ih => exact ⟨ih, x.top_written⟩
  | binary l t op h r hl hr =>
    refine ⟨hl, hr, ?_, ?_⟩
    · simp
    · simp
  | group o ho x c hc ih => exact ih

theorem levels_written (g : Grouped) : g.written.levels = g.expr.writtenLevels := by
  induction g with
  | atom t e h => exact (Expr.of_ofToken?_eq_some h).2.symm
  | unary t op h x ih =>
    simp only [written, levels, expr, Expr.writtenLevels, ih]
    omega
  | binary l t op h r hl hr =>
    simp only [written, levels, expr, Expr.writtenLevels, hl, hr]
    omega
  | group o ho x c hc ih => exact ih

theorem kind_head_written (g : Grouped) :
    g.written.head.kind ≠ .semicolon ∧
      Grammar.standard.continuation? .lowest g.written.head.kind = none := by
  induction g with
  | atom t e h =>
    change t.kind ≠ .semicolon ∧ Grammar.standard.continuation? .lowest t.kind = none
    rcases Expr.kind_of_ofToken? h with hk | hk | hk | hk
    all_goals
      rw [hk]
      decide
  | group o ho x c hc ih => exact ih
  | _ =>
    change Token.opening.kind ≠ .semicolon ∧
      Grammar.standard.continuation? .lowest Token.opening.kind = none
    decide

variable {g : Grouped}

theorem head?_render_ne (hg : ∀ t ∈ g.tokens, t.Spelled) :
    ∀ c ∈ g.expr.render.toList.head?, c ≠ '=' := by
  induction g with
  | atom t e h =>
    rintro c hc rfl
    obtain ⟨d, cs, hl, -, hh⟩ := hg t (by simp [tokens])
    rw [expr, (Expr.of_ofToken?_eq_some h).1, hl] at hc
    obtain rfl : d = '=' := Option.some.inj hc
    have hk : t.kind.isSymbol := by
      have hkind : t.kind = (headToken '=' cs).1 := by rw [hh]
      rw [hkind]
      by_cases he : cs.head? = some '='
      · obtain ⟨ds, rfl⟩ := List.head?_eq_some_iff.mp he
        rfl
      · rw [headToken_of_symbol (by decide) (by decide) (by simp [he])]
        rfl
    rcases Expr.kind_of_ofToken? h with ht | ht | ht | ht
    all_goals
      rw [ht] at hk
      cases hk
  | unary t op h x ih =>
    intro c hc
    rw [expr, Expr.toList_render_unary] at hc
    obtain rfl : '(' = c := Option.some.inj hc
    decide
  | binary l t op h r hl hr =>
    intro c hc
    rw [expr, Expr.toList_render_binary] at hc
    obtain rfl : '(' = c := Option.some.inj hc
    decide
  | group o ho x c hc ih => exact ih fun t ht => hg t (by simp [tokens, ht])

theorem spells_opening : Spells ['('] [.opening] :=
  Spells.of_spelled (t := .opening) ⟨'(', [], rfl, by decide, rfl⟩

theorem spells_closing : Spells [')'] [.closing] :=
  Spells.of_spelled (t := .closing) ⟨')', [], rfl, by decide, rfl⟩

/-- The written form of an expression is read as its tree with the parentheses of that form. -/
theorem spells_written (hg : ∀ t ∈ g.tokens, t.Spelled) :
    Spells g.expr.render.toList g.written.tokens := by
  induction g with
  | atom t e h =>
    rw [expr, (Expr.of_ofToken?_eq_some h).1]
    exact .of_spelled (hg t (by simp [tokens]))
  | unary t op h x ih =>
    have hx : ∀ u ∈ x.tokens, u.Spelled := fun u hu => hg u (by simp [tokens, hu])
    have hop : Spells op.symbol.toList [t] :=
      .of_symbol (hg t (by simp [tokens])) h (by cases op <;> rfl)
    have hinner := (ih hx).append_cons spells_closing (by decide)
    have hapart : ∀ c ∈ op.symbol.toList.getLast?,
        ∀ d ∈ (x.expr.render.toList ++ [')']).head?, Apart c d := by
      intro c hc d hd
      have hword : ¬isWordChar c := by cases op <;> cases hc <;> decide
      have hne : d ≠ '=' := by
        rw [List.head?_append] at hd
        rcases Option.or_eq_some_iff.mp hd with hd | ⟨-, hd⟩
        · exact head?_render_ne hx d hd
        · cases hd
          decide
      exact ⟨fun hw => hword hw.1, fun he => hne he.2⟩
    rw [expr, Expr.toList_render_unary]
    exact spells_opening.cons (hop.append hinner hapart) (by decide)
  | binary l t op h r hl hr =>
    have hop : Spells op.symbol.toList [t] :=
      .of_symbol (hg t (by simp [tokens])) h (by cases op <;> rfl)
    have hleft := hl fun u hu => hg u (by simp [tokens, hu])
    have hright := hr fun u hu => hg u (by simp [tokens, hu])
    have h1 := (hright.append_cons spells_closing (by decide)).blank (c := ' ') (by decide)
    have h2 := (hop.append_cons h1 (by decide)).blank (c := ' ') (by decide)
    have h3 := spells_opening.cons (hleft.append_cons h2 (by decide)) (by decide)
    rw [expr, Expr.toList_render_binary]
    simpa [written, tokens] using h3
  | group o ho x c hc ih => exact ih fun t ht => hg t (by simp [tokens, ht])

end Grouped
namespace Sentence

/-- The same statement as its written form has it. An expression statement has no semicolon. -/
def written : Sentence → Sentence
  | binding k a q g s hk ha hq hs => binding k a q g.written s hk ha hq hs
  | ret k g s hk hs => ret k g.written s hk hs
  | expr g _ _ => expr g.written none (by simp)

theorem value_written (x : Sentence) : x.written.value = x.value.written := by
  cases x <;> rfl

theorem value_stmt (x : Sentence) : x.stmt.value = x.value.expr := by
  cases x <;> rfl

theorem kind_firstKind_written (xs : List Sentence) :
    firstKind (xs.map written) ≠ .semicolon ∧
      Grammar.standard.continuation? .lowest (firstKind (xs.map written)) = none := by
  cases xs with
  | nil => decide
  | cons x xs =>
    change x.written.head.kind ≠ .semicolon ∧
      Grammar.standard.continuation? .lowest x.written.head.kind = none
    cases x with
    | binding k a q g s hk ha hq hs =>
      change k.kind ≠ .semicolon ∧ Grammar.standard.continuation? .lowest k.kind = none
      rw [hk]
      decide
    | ret k g s hk hs =>
      change k.kind ≠ .semicolon ∧ Grammar.standard.continuation? .lowest k.kind = none
      rw [hk]
      decide
    | expr g s hs => exact g.kind_head_written

theorem separated_written (xs : List Sentence) : Separated (xs.map written) := by
  induction xs with
  | nil => trivial
  | cons x xs ih =>
    refine ⟨?_, ?_, ih⟩
    · rw [value_written]
      exact x.value.wellShaped_written
    · cases x with
      | expr g s hs => exact kind_firstKind_written xs
      | _ => trivial

/-- The written form of a statement is read as the written statement, provided that the value of an
expression statement can be told from what is behind it. -/
theorem spells_render_append {x : Sentence} {rest : List Char} {us : List Token}
    (hx : ∀ t ∈ x.tokens, t.Spelled) (h : Spells rest us)
    (hexpr : ∀ g s hs, x = expr g s hs →
      Spells (g.expr.render.toList ++ rest) (g.written.tokens ++ us)) :
    Spells (x.stmt.render.toList ++ rest) (x.written.tokens ++ us) := by
  cases x with
  | binding k a q g s hk ha hq hs =>
    have hkey := Spells.of_spelled (hx k (by simp [tokens]))
    have hname := Spells.of_spelled (hx a (by simp [tokens]))
    have hequals : Spells ['='] [q] := .of_symbol (hx q (by simp [tokens])) hq rfl
    have hsemi : Spells [';'] [s] := .of_symbol (hx s (by simp [tokens])) hs rfl
    have hvalue := g.spells_written fun t ht => hx t (by simp [tokens, ht])
    have h1 := hvalue.append_cons (hsemi.cons h (by decide)) (by decide)
    have h2 := hequals.append_cons (h1.blank (c := ' ') (by decide)) (by decide)
    have h3 := hname.append_cons (h2.blank (c := ' ') (by decide)) (by decide)
    have h4 := hkey.append_cons (h3.blank (c := ' ') (by decide)) (by decide)
    simpa [stmt, Stmt.render, written, tokens] using h4
  | ret k g s hk hs =>
    have hkey := Spells.of_spelled (hx k (by simp [tokens]))
    have hsemi : Spells [';'] [s] := .of_symbol (hx s (by simp [tokens])) hs rfl
    have hvalue := g.spells_written fun t ht => hx t (by simp [tokens, ht])
    have h1 := hvalue.append_cons (hsemi.cons h (by decide)) (by decide)
    have h2 := hkey.append_cons (h1.blank (c := ' ') (by decide)) (by decide)
    simpa [stmt, Stmt.render, written, tokens] using h2
  | expr g s hs => simpa [stmt, Stmt.render, written, tokens] using hexpr g s hs rfl

theorem spells_line {x : Sentence} {rest : List Char} {us : List Token}
    (hx : ∀ t ∈ x.tokens, t.Spelled) (h : Spells rest us) :
    Spells ((x.stmt.render ++ "\n").toList ++ rest) (x.written.tokens ++ us) := by
  have hbreak : Spells ('\n' :: rest) us := h.blank (by decide)
  have hline : (x.stmt.render ++ "\n").toList ++ rest = x.stmt.render.toList ++ '\n' :: rest := by
    simp
  rw [hline]
  apply spells_render_append hx hbreak
  rintro g s hs rfl
  have hvalue := g.spells_written fun t ht => hx t (by simp [tokens, ht])
  exact hvalue.append_cons hbreak (by decide)

/-- A listing is read as the row of its statements as they are written. -/
theorem spells_listing {xs : List Sentence} (hxs : ∀ t ∈ xs.flatMap tokens, t.Spelled) :
    Spells (Program.listing ⟨xs.map stmt⟩).toList ((xs.map written).flatMap tokens) := by
  induction xs with
  | nil => exact .nil
  | cons x xs ih =>
    rw [List.flatMap_cons] at hxs
    have hlater := ih fun t ht => hxs t (List.mem_append_right _ ht)
    have hline := spells_line (fun t ht => hxs t (List.mem_append_left _ ht)) hlater
    have hl : Program.listing ⟨(x :: xs).map stmt⟩ =
        (x.stmt.render ++ "\n") ++ Program.listing ⟨xs.map stmt⟩ := String.join_cons
    rw [hl, String.toList_append]
    exact hline

end Sentence
end MonkeySyntax
