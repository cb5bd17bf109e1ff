import MonkeySyntax.Parse.Parser
import MonkeySyntax.Proofs.Grouped

/-! What a rule that succeeded has read, and how the failure of a part becomes that of the whole. -/
namespace MonkeySyntax

variable {σ : Type} [TokenSource σ] {nested : Power → Step σ Expr} {w v : Window σ} {e : Expr}

namespace Step

theorem run_expect_eq_ok_iff {k : TokenKind} {t : Token} :
    (expect k : Step σ Token).run w = (.ok t, v) ↔
      w.peek.kind = k ∧ t = w.peek ∧ v = w.advance := by
  unfold expect
  by_cases h : w.peek.kind = k
  · simp [h, eq_comm]
  · simp [h]

theorem run_current_bind {α : Type} (f : Token → Step σ α) :
    (current >>= f).run w = (f w.current).run w := rfl

theorem run_peek_bind {α : Type} (f : Token → Step σ α) :
    (peek >>= f).run w = (f w.peek).run w := rfl

theorem run_advance_bind {α : Type} (f : Unit → Step σ α) :
    (advance >>= f).run w = (f ()).run w.advance := rfl

theorem run_bind_pure {α β : Type} {x : Step σ α} {r : Except Diagnostic α}
    (h : x.run w = (r, v)) (f : α → β) : (x >>= fun a => pure (f a)).run w = (r.map f, v) := by
  rw [run_bind, h]
  cases r <;> rfl

end Step

open Step

namespace OperandRule

theorem run_readInteger_eq_ok_iff :
    (readInteger : Step σ Expr).run w = (.ok e, v) ↔
      ∃ n, Numeral.value? w.current.literal = some n ∧ e = .int w.current n ∧ v = w := by
  unfold readInteger
  rw [run_current_bind]
  cases h : Numeral.value? w.current.literal with
  | none => simp [fail]
  | some n => simp [run_pure, eq_comm]

theorem run_readInteger_of_eq_none (h : Numeral.value? w.current.literal = none) :
    (readInteger : Step σ Expr).run w =
      (.error ⟨.badInteger w.current.literal, w.current.span.start⟩, w) := by
  unfold readInteger
  rw [run_current_bind, h]
  rfl

theorem run_readUnary_of_eq_none (h : UnaryOp.ofKind? w.current.kind = none) :
    (readUnary nested).run w = (.error ⟨.noOperand w.current.kind, w.current.span.start⟩, w) := by
  unfold readUnary
  rw [run_current_bind, h]
  rfl

theorem run_readUnary_of_kind {op : UnaryOp} (h : w.current.kind = op.kind) :
    (readUnary nested).run w =
      (nested .unary >>= fun x => pure (.unary w.current op x)).run w.advance := by
  unfold readUnary
  rw [run_current_bind, UnaryOp.ofKind?_eq_some_iff.mpr h]
  rfl

theorem run_readUnary_eq_ok_iff :
    (readUnary nested).run w = (.ok e, v) ↔ ∃ (op : UnaryOp) (x : Expr), w.current.kind = op.kind ∧
      (nested .unary).run w.advance = (.ok x, v) ∧ e = .unary w.current op x := by
  constructor
  · intro h
    cases ho : UnaryOp.ofKind? w.current.kind with
    | none =>
      rw [run_readUnary_of_eq_none ho] at h
      cases h
    | some op =>
      have hk := UnaryOp.ofKind?_eq_some_iff.mp ho
      rw [run_readUnary_of_kind hk, run_bind_eq_ok_iff] at h
      obtain ⟨x, u, hx, hu⟩ := h
      cases hu
      exact ⟨op, x, hk, hx, rfl⟩
  · rintro ⟨op, x, hk, hx, rfl⟩
    rw [run_readUnary_of_kind hk, run_bind_of_ok hx]
    rfl

theorem run_readGroup_eq_ok_iff :
    (readGroup nested).run w = (.ok e, v) ↔ ∃ u : Window σ,
      (nested .lowest).run w.advance = (.ok e, u) ∧ u.peek.kind = .closeParen ∧ v = u.advance := by
  unfold readGroup
  rw [run_advance_bind, run_bind_eq_ok_iff]
  constructor
  · rintro ⟨x, u, hx, hu⟩
    rw [run_bind_eq_ok_iff] at hu
    obtain ⟨t, y, ht, hy⟩ := hu
    obtain ⟨hk, -, rfl⟩ := run_expect_eq_ok_iff.mp ht
    cases hy
    exact ⟨u, hx, hk, rfl⟩
  · rintro ⟨u, hx, hk, rfl⟩
    refine ⟨e, u, hx, ?_⟩
    rw [run_bind_of_ok (run_expect_eq_ok_iff.mpr ⟨hk, rfl, rfl⟩)]
    rfl

end OperandRule

namespace Grammar

theorem run_readOperand_of_eq_some {g : Grammar} {rule : OperandRule}
    (h : g.operand w.current.kind = some rule) :
    (g.readOperand nested).run w = (rule.read nested).run w := by
  unfold readOperand
  rw [run_current_bind, h]

theorem run_readOperand_of_eq_none {g : Grammar} (h : g.operand w.current.kind = none) :
    (g.readOperand nested).run w =
      (.error ⟨.noOperand w.current.kind, w.current.span.start⟩, w) := by
  unfold readOperand
  rw [run_current_bind, h]
  rfl

theorem run_readOperand_eq_ok_iff {g : Grammar} :
    (g.readOperand nested).run w = (.ok e, v) ↔
      ∃ rule, g.operand w.current.kind = some rule ∧ (rule.read nested).run w = (.ok e, v) := by
  constructor
  · intro h
    cases hr : g.operand w.current.kind with
    | none =>
      rw [run_readOperand_of_eq_none hr] at h
      cases h
    | some rule =>
      rw [run_readOperand_of_eq_some hr] at h
      exact ⟨rule, rfl, h⟩
  · rintro ⟨rule, hr, h⟩
    rw [run_readOperand_of_eq_some hr, h]

/-- The kinds of tokens that a rule of the standard grammar starts with. -/
theorem standard_operand_eq_some_iff {k : TokenKind} {rule : OperandRule} :
    standard.operand k = some rule ↔
      match rule with
      | .identifier => k = .identifier
      | .integer => k = .integer
      | .boolean => k = .kwTrue ∨ k = .kwFalse
      | .unary => ∃ op : UnaryOp, k = op.kind
      | .group => k = .openParen := by
  cases rule with
  | unary =>
    constructor
    · intro h
      have ho : (UnaryOp.ofKind? k).isSome := by cases k <;> first | rfl | cases h
      obtain ⟨op, ho⟩ := Option.isSome_iff_exists.mp ho
      exact ⟨op, UnaryOp.ofKind?_eq_some_iff.mp ho⟩
    · rintro ⟨op, rfl⟩
      cases op <;> rfl
  | _ => cases k <;> simp [standard]

/-- In the standard grammar an operand is an atom, a unary operation or a group. -/
theorem run_standard_readOperand_eq_ok_iff :
    (standard.readOperand nested).run w = (.ok e, v) ↔
      (Expr.ofToken? w.current = some e ∧ v = w) ∨
      (∃ (op : UnaryOp) (x : Expr), w.current.kind = op.kind ∧
        (nested .unary).run w.advance = (.ok x, v) ∧ e = .unary w.current op x) ∨
      (w.current.kind = .openParen ∧ ∃ u : Window σ,
        (nested .lowest).run w.advance = (.ok e, u) ∧ u.peek.kind = .closeParen ∧
          v = u.advance) := by
  rw [run_readOperand_eq_ok_iff, ← OperandRule.run_readUnary_eq_ok_iff,
    ← OperandRule.run_readGroup_eq_ok_iff]
  constructor
  · rintro ⟨rule, hr, h⟩
    have hk := standard_operand_eq_some_iff.mp hr
    cases rule with
    | identifier =>
      cases h
      exact .inl ⟨Expr.ofToken?_eq_some_iff.mpr (.name hk), rfl⟩
    | integer =>
      obtain ⟨n, hn, rfl, rfl⟩ := OperandRule.run_readInteger_eq_ok_iff.mp h
      exact .inl ⟨Expr.ofToken?_eq_some_iff.mpr (.number hk hn), rfl⟩
    | boolean =>
      cases h
      refine .inl ⟨Expr.ofToken?_eq_some_iff.mpr (.truth _ ?_), rfl⟩
      rcases hk with hk | hk <;> simp [hk]
    | unary => exact .inr (.inl h)
    | group => exact .inr (.inr ⟨hk, h⟩)
  · rintro (⟨he, rfl⟩ | h | ⟨hk, h⟩)
    · cases Expr.ofToken?_eq_some_iff.mp he with
      | name hk => exact ⟨.identifier, by rw [hk]; rfl, rfl⟩
      | @number n hk hn =>
        exact ⟨.integer, by rw [hk]; rfl,
          OperandRule.run_readInteger_eq_ok_iff.mpr ⟨n, hn, rfl, rfl⟩⟩
      | truth b hk =>
        refine ⟨.boolean, by rw [hk]; cases b <;> rfl, ?_⟩
        cases b
        all_goals
          simp [OperandRule.read, OperandRule.readBoolean, run_current_bind, run_pure, hk]
    · obtain ⟨op, x, hk, -⟩ := OperandRule.run_readUnary_eq_ok_iff.mp h
      exact ⟨.unary, standard_operand_eq_some_iff.mpr ⟨op, hk⟩, h⟩
    · exact ⟨.group, standard_operand_eq_some_iff.mpr hk, h⟩

/-- An operand fails where the expression inside of it fails. -/
theorem run_standard_readOperand_of_error {d : Diagnostic} {q : Power}
    (h : (∃ op : UnaryOp, w.current.kind = op.kind ∧ q = .unary) ∨
      (w.current.kind = .openParen ∧ q = .lowest))
    (hd : (nested q).run w.advance = (.error d, v)) :
    (standard.readOperand nested).run w = (.error d, v) := by
  rcases h with ⟨op, hk, rfl⟩ | ⟨hk, rfl⟩
  · have hr : standard.operand w.current.kind = some .unary := by rw [hk]; cases op <;> rfl
    rw [run_readOperand_of_eq_some hr]
    exact (OperandRule.run_readUnary_of_kind hk).trans (run_bind_of_error hd _)
  · have hr : standard.operand w.current.kind = some .group := by rw [hk]; rfl
    rw [run_readOperand_of_eq_some hr]
    exact run_bind_of_error hd _

theorem run_readBinary_of_eq_none {left : Expr} {p : Power}
    (h : BinaryOp.ofKind? w.current.kind = none) :
    (readBinary nested left p).run w =
      (.error ⟨.noOperator w.current.kind, w.current.span.start⟩, w) := by
  unfold readBinary
  rw [run_current_bind, h]
  rfl

theorem run_readBinary_of_kind {op : BinaryOp} {left : Expr} {p : Power}
    (h : w.current.kind = op.kind) :
    (readBinary nested left p).run w =
      (nested p >>= fun r => pure (.binary w.current op left r)).run w.advance := by
  unfold readBinary
  rw [run_current_bind, BinaryOp.ofKind?_eq_some_iff.mpr h]
  rfl

theorem run_readBinary_eq_ok_iff {left : Expr} {p : Power} :
    (readBinary nested left p).run w = (.ok e, v) ↔
      ∃ (op : BinaryOp) (r : Expr), w.current.kind = op.kind ∧
        (nested p).run w.advance = (.ok r, v) ∧ e = .binary w.current op left r := by
  constructor
  · intro h
    cases ho : BinaryOp.ofKind? w.current.kind with
    | none =>
      rw [run_readBinary_of_eq_none ho] at h
      cases h
    | some op =>
      have hk := BinaryOp.ofKind?_eq_some_iff.mp ho
      rw [run_readBinary_of_kind hk, run_bind_eq_ok_iff] at h
      obtain ⟨r, u, hr, hu⟩ := h
      cases hu
      exact ⟨op, r, hk, hr, rfl⟩
  · rintro ⟨op, r, hk, hr, rfl⟩
    rw [run_readBinary_of_kind hk, run_bind_of_ok hr]
    rfl

theorem run_readBinary_of_error {op : BinaryOp} {left : Expr} {p : Power} {d : Diagnostic}
    (h : w.current.kind = op.kind) (hd : (nested p).run w.advance = (.error d, v)) :
    (readBinary nested left p).run w = (.error d, v) := by
  rw [run_readBinary_of_kind h, run_bind_of_error hd]

theorem run_readExpr_succ {g : Grammar} {n : Nat} {p : Power} :
    (g.readExpr (n + 1) p).run w =
      (g.readOperand (g.readExpr n) >>= g.readOperators (g.readExpr n) p).run w := rfl

theorem standard_statement_of_ne {k : TokenKind} (hl : k ≠ .kwLet) (hr : k ≠ .kwReturn) :
    (standard.statement k).getD .expr = .expr := by
  cases k with
  | kwLet => exact absurd rfl hl
  | kwReturn => exact absurd rfl hr
  | _ => rfl

theorem run_readStmt {g : Grammar} :
    (g.readStmt nested).run w =
      (((g.statement w.current.kind).getD .expr).read nested).run w := rfl

end Grammar

namespace StmtRule

variable {s : Stmt}

theorem run_readBinding_of_kinds (hn : w.peek.kind = .identifier)
    (ha : w.advance.peek.kind = .assign) :
    (readBinding nested).run w =
      (nested .lowest >>= fun e => expect .semicolon >>= fun _ =>
        pure (.binding w.current ⟨w.peek, w.peek.literal⟩ e)).run w.advance.advance.advance := by
  unfold readBinding
  rw [run_current_bind, run_bind_of_ok (run_expect_eq_ok_iff.mpr ⟨hn, rfl, rfl⟩),
    run_bind_of_ok (run_expect_eq_ok_iff.mpr ⟨ha, rfl, rfl⟩), run_advance_bind]

theorem run_readBinding_eq_ok_iff :
    (readBinding nested).run w = (.ok s, v) ↔
      ∃ (e : Expr) (u : Window σ), w.peek.kind = .identifier ∧ w.advance.peek.kind = .assign ∧
        (nested .lowest).run w.advance.advance.advance = (.ok e, u) ∧ u.peek.kind = .semicolon ∧
        v = u.advance ∧ s = .binding w.current ⟨w.peek, w.peek.literal⟩ e := by
  constructor
  · intro h
    obtain ⟨_, w1, h1, h⟩ := run_bind_eq_ok_iff.mp h
    cases h1
    obtain ⟨_, w2, h2, h⟩ := run_bind_eq_ok_iff.mp h
    obtain ⟨hn, rfl, rfl⟩ := run_expect_eq_ok_iff.mp h2
    obtain ⟨_, w3, h3, h⟩ := run_bind_eq_ok_iff.mp h
    obtain ⟨ha, rfl, rfl⟩ := run_expect_eq_ok_iff.mp h3
    obtain ⟨_, w4, h4, h⟩ := run_bind_eq_ok_iff.mp h
    cases h4
    obtain ⟨e, u, he, h⟩ := run_bind_eq_ok_iff.mp h
    obtain ⟨_, w5, h5, h⟩ := run_bind_eq_ok_iff.mp h
    obtain ⟨hs, rfl, rfl⟩ := run_expect_eq_ok_iff.mp h5
    cases h
    exact ⟨e, u, hn, ha, he, hs, rfl, rfl⟩
  · rintro ⟨e, u, hn, ha, he, hs, rfl, rfl⟩
    rw [run_readBinding_of_kinds hn ha, run_bind_of_ok he,
      run_bind_of_ok (run_expect_eq_ok_iff.mpr ⟨hs, rfl, rfl⟩)]
    rfl

theorem run_readRet_eq_ok_iff :
    (readRet nested).run w = (.ok s, v) ↔
      ∃ (e : Expr) (u : Window σ), (nested .lowest).run w.advance = (.ok e, u) ∧
        u.peek.kind = .semicolon ∧ v = u.advance ∧ s = .ret w.current e := by
  unfold readRet
  rw [run_current_bind, run_advance_bind, run_bind_eq_ok_iff]
  constructor
  · rintro ⟨e, u, he, h⟩
    obtain ⟨_, _, h1, h⟩ := run_bind_eq_ok_iff.mp h
    obtain ⟨hs, rfl, rfl⟩ := run_expect_eq_ok_iff.mp h1
    cases h
    exact ⟨e, u, he, hs, rfl, rfl⟩
  · rintro ⟨e, u, he, hs, rfl, rfl⟩
    refine ⟨e, u, he, ?_⟩
    rw [run_bind_of_ok (run_expect_eq_ok_iff.mpr ⟨hs, rfl, rfl⟩)]
    rfl

theorem run_readExprStmt_eq_ok_iff :
    (readExprStmt nested).run w = (.ok s, v) ↔
      ∃ (e : Expr) (u : Window σ), (nested .lowest).run w = (.ok e, u) ∧
        v = (if u.peek.kind = .semicolon then u.advance else u) ∧ s = .expr w.current e := by
  unfold readExprStmt
  rw [run_current_bind, run_bind_eq_ok_iff]
  constructor
  · rintro ⟨e, u, he, h⟩
    refine ⟨e, u, he, ?_⟩
    rw [run_peek_bind] at h
    by_cases hs : u.peek.kind = .semicolon
    · rw [if_pos hs, run_advance_bind] at h
      cases h
      exact ⟨(if_pos hs).symm, rfl⟩
    · rw [if_neg hs] at h
      cases h
      exact ⟨(if_neg hs).symm, rfl⟩
  · rintro ⟨e, u, he, rfl, rfl⟩
    refine ⟨e, u, he, ?_⟩
    rw [run_peek_bind]
    by_cases hs : u.peek.kind = .semicolon
    · rw [if_pos hs, if_pos hs, run_advance_bind]
      rfl
    · rw [if_neg hs, if_neg hs]
      rfl

end StmtRule

section Programs

variable {stmt : Step σ Stmt}

theorem readAll_of_eof (h : w.current.kind = .eof) : readAll stmt w = ([], w) := by
  rw [readAll, if_pos h]

theorem readAll_of_ok {s : Stmt} (h : w.current.kind ≠ .eof) (hs : stmt.run w = (.ok s, v)) :
    (readAll stmt w).1 = .ok s :: (readAll stmt v.advance).1 := by
  rw [readAll, if_neg h]
  simp only [hs]

theorem readAll_of_error {d : Diagnostic} (h : w.current.kind ≠ .eof)
    (hd : stmt.run w = (.error d, v)) :
    (readAll stmt w).1 = .error d :: (readAll stmt v.skipStatement.advance).1 := by
  rw [readAll, if_neg h]
  simp only [hd]

/-- What is read as a statement was read as one somewhere. -/
theorem exists_run_of_mem_readAll {s : Stmt} (h : .ok s ∈ (readAll stmt w).1) :
    ∃ u v, stmt.run u = (.ok s, v) := by
  fun_induction readAll stmt w with
  | case1 w hw => cases h
  | case2 w hw result s' hs later ih =>
    rcases List.mem_cons.mp h with h | h
    · cases h
      exact ⟨w, result.2, Prod.ext hs rfl⟩
    · exact ih h
  | case3 w hw result d hd later ih =>
    rcases List.mem_cons.mp h with h | h
    · cases h
    · exact ih h

end Programs

theorem parse_outcomes (s : σ) :
    (parse s).outcomes =
      (readAll (Grammar.standard.readStmt (Grammar.standard.readExpr nestingLimit))
        (.ofSource s)).1 := rfl

namespace Parsed

variable {r : Parsed}

theorem mem_diagnostics_iff {d : Diagnostic} : d ∈ r.diagnostics ↔ .error d ∈ r.outcomes := by
  unfold diagnostics
  rw [List.mem_filterMap]
  constructor
  · rintro ⟨o, ho, hd⟩
    cases o with
    | ok s => cases hd
    | error d' =>
      obtain rfl := Option.some.inj hd
      exact ho
  · intro h
    exact ⟨.error d, h, rfl⟩

theorem mem_statements_iff {s : Stmt} : s ∈ r.program.statements ↔ .ok s ∈ r.outcomes := by
  unfold program
  rw [List.mem_filterMap]
  constructor
  · rintro ⟨o, ho, hs⟩
    cases o with
    | ok s' =>
      obtain rfl := Option.some.inj hs
      exact ho
    | error d => cases hs
  · intro h
    exact ⟨.ok s, h, rfl⟩

theorem isOk_iff : r.isOk ↔ ∀ o ∈ r.outcomes, ∃ s, o = .ok s := by
  unfold isOk
  rw [List.isEmpty_iff, List.eq_nil_iff_forall_not_mem]
  constructor
  · intro h o ho
    cases o with
    | ok s => exact ⟨s, rfl⟩
    | error d => exact absurd (mem_diagnostics_iff.mpr ho) (h d)
  · intro h d hd
    obtain ⟨s, hs⟩ := h _ (mem_diagnostics_iff.mp hd)
    cases hs

theorem of_outcomes_eq_map {α : Type} {f : α → Stmt} {xs : List α}
    (h : r.outcomes = xs.map fun x => .ok (f x)) :
    r.program = ⟨xs.map f⟩ ∧ r.diagnostics = [] := by
  unfold program diagnostics
  rw [h]
  constructor
  · rw [List.filterMap_map]
    exact congrArg Program.mk (congrFun (List.filterMap_eq_map (f := f)) xs)
  · rw [List.filterMap_eq_nil_iff]
    intro o ho
    obtain ⟨x, -, rfl⟩ := List.mem_map.mp ho
    rfl

end Parsed
end MonkeySyntax
