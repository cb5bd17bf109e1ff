import MonkeySyntax.Proofs.Relocation

/-! Reading side by side: on the same tokens at other places, expressions, statements and programs
are read alike, and a piece of a program is read without a look behind its semicolon. -/
namespace MonkeySyntax

open Grammar Step Window

variable {σ τ : Type} [TokenSource σ] [TokenSource τ] {φ : Position → Position}
  {w v : Window σ} {w' v' : Window τ} {nested : Power → Step σ Expr}
  {nested' : Power → Step τ Expr}

/-- Wherever they start side by side, the two readers agree. -/
def ReadAlike (φ : Position → Position) (nested : Power → Step σ Expr)
    (nested' : Power → Step τ Expr) : Prop :=
  ∀ (p : Power) (w : Window σ) (w' : Window τ), Mirrors φ w w' →
    Agree φ (Expr.relocate φ) w w' ((nested p).run w) ((nested' p).run w')

/-- What is read does not end with a semicolon. -/
def EndInside (nested : Power → Step σ Expr) : Prop :=
  ∀ (p : Power) (w v : Window σ) (e : Expr), (nested p).run w = (.ok e, v) →
    v.current.kind ≠ .semicolon

theorem endInside_readExpr (n : Nat) : EndInside (σ := σ) (standard.readExpr n) := by
  intro p w v e h
  obtain ⟨g, hg, -, -⟩ := run_readExpr_eq_ok_iff.mp h
  exact (Grouped.kind_of_mem_tokens hg.covers.mem_current).2.1

theorem agree_readUnary (hn : ReadAlike φ nested nested') (h : Mirrors φ w w') :
    Agree φ (Expr.relocate φ) w w' ((OperandRule.readUnary nested).run w)
      ((OperandRule.readUnary nested').run w') := by
  unfold OperandRule.readUnary
  rw [run_current_bind, run_current_bind, h.current_eq, Token.kind_relocate]
  cases ho : UnaryOp.ofKind? w.current.kind with
  | none => exact .fail h _
  | some op =>
    have hs : w.current.kind ≠ .semicolon := by
      intro hs
      rw [hs] at ho
      cases ho
    have ha := h.advance hs
    change Agree _ _ _ _ ((advance >>= _).run w) ((advance >>= _).run w')
    rw [run_advance_bind, run_advance_bind]
    exact .trans_abreast (.advance hs w')
      (.bind ha (hn .unary _ _ ha) fun x v v' _ _ => .ok v v' (Expr.unary w.current op x))

theorem agree_readGroup (hn : ReadAlike φ nested nested') (hi : EndInside nested)
    (h : Mirrors φ w w') (hs : w.current.kind ≠ .semicolon) :
    Agree φ (Expr.relocate φ) w w' ((OperandRule.readGroup nested).run w)
      ((OperandRule.readGroup nested').run w') := by
  have ha := h.advance hs
  unfold OperandRule.readGroup
  rw [run_advance_bind, run_advance_bind]
  refine .trans_abreast (.advance hs w') (.bind ha (hn .lowest _ _ ha) fun e v v' he hv => ?_)
  exact .bind hv (.expect hv (hi _ _ _ _ he) .closeParen) fun _ u u' _ _ => .ok u u' e

theorem agree_readOperand (hn : ReadAlike φ nested nested') (hi : EndInside nested)
    (h : Mirrors φ w w') :
    Agree φ (Expr.relocate φ) w w' ((standard.readOperand nested).run w)
      ((standard.readOperand nested').run w') := by
  unfold Grammar.readOperand
  rw [run_current_bind, run_current_bind, h.current_eq, Token.kind_relocate]
  cases hr : standard.operand w.current.kind with
  | none => exact .fail h _
  | some rule =>
    have hk := standard_operand_eq_some_iff.mp hr
    cases rule with
    | identifier =>
      change Agree _ _ _ _ (.ok (Expr.ident ⟨w.current, w.current.literal⟩), w)
        (.ok (Expr.ident ⟨w'.current, w'.current.literal⟩), w')
      rw [h.current_eq]
      exact .ok w w' _
    | integer =>
      change Agree _ _ _ _ (OperandRule.readInteger.run w) (OperandRule.readInteger.run w')
      unfold OperandRule.readInteger
      rw [run_current_bind, run_current_bind, h.current_eq, Token.literal_relocate]
      cases Numeral.value? w.current.literal with
      | none => exact .fail h _
      | some n => exact .ok w w' (Expr.int w.current n)
    | boolean =>
      change Agree _ _ _ _ (.ok (Expr.bool w.current (w.current.kind = .kwTrue)), w)
        (.ok (Expr.bool w'.current (w'.current.kind = .kwTrue)), w')
      rw [h.current_eq]
      exact .ok w w' _
    | unary => exact agree_readUnary hn h
    | group => exact agree_readGroup hn hi h (by rw [hk]; decide)

theorem agree_readBinary (hn : ReadAlike φ nested nested') (h : Mirrors φ w w') (left : Expr)
    (p : Power) :
    Agree φ (Expr.relocate φ) w w' ((readBinary nested left p).run w)
      ((readBinary nested' (left.relocate φ) p).run w') := by
  unfold readBinary
  rw [run_current_bind, run_current_bind, h.current_eq, Token.kind_relocate]
  cases ho : BinaryOp.ofKind? w.current.kind with
  | none => exact .fail h _
  | some op =>
    have hs : w.current.kind ≠ .semicolon := by
      intro hs
      rw [hs] at ho
      cases ho
    have ha := h.advance hs
    change Agree _ _ _ _ ((advance >>= _).run w) ((advance >>= _).run w')
    rw [run_advance_bind, run_advance_bind]
    exact .trans_abreast (.advance hs w')
      (.bind ha (hn p _ _ ha) fun r v v' _ _ => .ok v v' (Expr.binary w.current op left r))

theorem agree_foldOperators (hn : ReadAlike φ nested nested') (hi : EndInside nested)
    (h : Mirrors φ w w') (hs : w.current.kind ≠ .semicolon) (p : Power) (left : Expr) :
    Agree φ (Expr.relocate φ) w w' (standard.foldOperators nested p left w)
      (standard.foldOperators nested' p (left.relocate φ) w') := by
  -- One turn of the loop is a binary operation, after which the windows are side by side again.
  fun_induction foldOperators standard nested p left w generalizing w' with
  | case1 left w hq =>
    have hq' : standard.continuation? p w'.peek.kind = none := by rw [h.peek_eq hs]; exact hq
    rw [foldOperators_of_none hq']
    exact .ok w w' left
  | case2 left w q hq d v hd =>
    have hq' : standard.continuation? p w'.peek.kind = some q := by rw [h.peek_eq hs]; exact hq
    have hb := agree_readBinary hn (h.advance hs) left q
    rcases hd' : (readBinary nested' (left.relocate φ) q).run w'.advance with ⟨r', v'⟩
    rw [hd, hd'] at hb
    obtain rfl : r' = .error (d.relocate φ) := hb.result
    rw [foldOperators_of_error hq' hd']
    exact .trans_abreast (.advance hs w') hb
  | case3 left w q hq e v he ih =>
    have hq' : standard.continuation? p w'.peek.kind = some q := by rw [h.peek_eq hs]; exact hq
    have ha := h.advance hs
    have hb := agree_readBinary hn ha left q
    rcases he' : (readBinary nested' (left.relocate φ) q).run w'.advance with ⟨r', v'⟩
    rw [he, he'] at hb
    obtain rfl : r' = .ok (e.relocate φ) := hb.result
    obtain ⟨op, r, -, hr, -⟩ := run_readBinary_eq_ok_iff.mp he
    rw [foldOperators_of_ok hq' he']
    exact .trans_abreast ((Abreast.advance hs w').trans hb.abreast)
      (ih (ha.of_abreast hb.abreast) (hi _ _ _ _ hr))

theorem kind_ne_semicolon_of_readOperand (hi : EndInside nested) {e : Expr}
    (h : (standard.readOperand nested).run w = (.ok e, v)) : v.current.kind ≠ .semicolon := by
  rcases run_standard_readOperand_eq_ok_iff.mp h with
    ⟨ht, rfl⟩ | ⟨_, x, -, hx, -⟩ | ⟨-, u, -, hk, rfl⟩
  · rcases Expr.kind_of_ofToken? ht with hk | hk | hk | hk
    all_goals
      rw [hk]
      decide
  · exact hi _ _ _ _ hx
  · rw [current_advance, hk]
    decide

theorem readAlike_readExpr (φ : Position → Position) (n : Nat) :
    ReadAlike (σ := σ) (τ := τ) φ (standard.readExpr n) (standard.readExpr n) := by
  induction n with
  | zero => exact fun _ _ _ h => .fail h _
  | succ n ih =>
    intro p w w' h
    have hi := endInside_readExpr (σ := σ) n
    exact .bind h (agree_readOperand ih hi h) fun left v v' hl hv =>
      agree_foldOperators ih hi hv (kind_ne_semicolon_of_readOperand hi hl) p left

section Statements

variable (hn : ReadAlike φ nested nested') (hi : EndInside nested)

include hn hi

theorem agree_readBinding (h : Mirrors φ w w') (hs : w.current.kind ≠ .semicolon) :
    Agree φ (Stmt.relocate φ) w w' ((StmtRule.readBinding nested).run w)
      ((StmtRule.readBinding nested').run w') := by
  unfold StmtRule.readBinding
  rw [run_current_bind, run_current_bind, h.current_eq]
  refine .bind h (.expect h hs .identifier) fun name w1 w1' h1 hw1 => ?_
  have hk1 : w1.current.kind ≠ .semicolon := by
    obtain ⟨hk, -, rfl⟩ := run_expect_eq_ok_iff.mp h1
    rw [current_advance, hk]
    decide
  refine .bind hw1 (.expect hw1 hk1 .assign) fun _ w2 w2' h2 hw2 => ?_
  have hk2 : w2.current.kind ≠ .semicolon := by
    obtain ⟨hk, -, rfl⟩ := run_expect_eq_ok_iff.mp h2
    rw [current_advance, hk]
    decide
  have ha := hw2.advance hk2
  rw [run_advance_bind, run_advance_bind]
  refine .trans_abreast (.advance hk2 w2') (.bind ha (hn .lowest _ _ ha) fun e v v' he hv => ?_)
  exact .bind hv (.expect hv (hi _ _ _ _ he) .semicolon) fun _ u u' _ _ =>
    .ok u u' (Stmt.binding w.current ⟨name, name.literal⟩ e)

theorem agree_readRet (h : Mirrors φ w w') (hs : w.current.kind ≠ .semicolon) :
    Agree φ (Stmt.relocate φ) w w' ((StmtRule.readRet nested).run w)
      ((StmtRule.readRet nested').run w') := by
  have ha := h.advance hs
  unfold StmtRule.readRet
  rw [run_current_bind, run_current_bind, h.current_eq, run_advance_bind, run_advance_bind]
  refine .trans_abreast (.advance hs w') (.bind ha (hn .lowest _ _ ha) fun e v v' he hv => ?_)
  exact .bind hv (.expect hv (hi _ _ _ _ he) .semicolon) fun _ u u' _ _ =>
    .ok u u' (Stmt.ret w.current e)

theorem agree_readExprStmt (h : Mirrors φ w w') :
    Agree φ (Stmt.relocate φ) w w' ((StmtRule.readExprStmt nested).run w)
      ((StmtRule.readExprStmt nested').run w') := by
  unfold StmtRule.readExprStmt
  rw [run_current_bind, run_current_bind, h.current_eq]
  refine .bind h (hn .lowest _ _ h) fun e v v' he hv => ?_
  have hs := hi _ _ _ _ he
  rw [run_peek_bind, run_peek_bind, hv.peek_eq hs, Token.kind_relocate]
  by_cases hk : v.peek.kind = .semicolon
  · rw [if_pos hk, if_pos hk, run_advance_bind, run_advance_bind]
    exact .trans_abreast (.advance hs v') (.ok v.advance v'.advance (Stmt.expr w.current e))
  · rw [if_neg hk, if_neg hk]
    exact .ok v v' (Stmt.expr w.current e)

theorem agree_readStmt (h : Mirrors φ w w') :
    Agree φ (Stmt.relocate φ) w w' ((standard.readStmt nested).run w)
      ((standard.readStmt nested').run w') := by
  rw [run_readStmt, run_readStmt, h.current_eq, Token.kind_relocate]
  by_cases hl : w.current.kind = .kwLet
  · rw [hl]
    exact agree_readBinding hn hi h (by rw [hl]; decide)
  by_cases hr : w.current.kind = .kwReturn
  · rw [hr]
    exact agree_readRet hn hi h (by rw [hr]; decide)
  rw [standard_statement_of_ne hl hr]
  exact agree_readExprStmt hn hi h

end Statements

/-- Reads the next piece of a program: what it gave, and the window behind it. -/
def readPiece (stmt : Step σ Stmt) (w : Window σ) : Except Diagnostic Stmt × Window σ :=
  match stmt.run w with
  | (.ok s, v) => (.ok s, v.advance)
  | (.error d, v) => (.error d, v.skipStatement.advance)

theorem readAll_of_ne_eof {stmt : Step σ Stmt} (h : w.current.kind ≠ .eof) :
    readAll stmt w = ((readPiece stmt w).1 :: (readAll stmt (readPiece stmt w).2).1,
      (readAll stmt (readPiece stmt w).2).2) := by
  rw [readAll, if_neg h]
  unfold readPiece
  rcases stmt.run w with ⟨r, v⟩
  cases r <;> rfl

theorem pending_readPiece_lt (stmt : Step σ Stmt) (h : w.current.kind ≠ .eof) :
    (readPiece stmt w).2.pending < w.pending := by
  have hpos := pending_pos_of_current h
  have hle := (stmt.forward w).pending_le
  unfold readPiece
  rcases hr : stmt.run w with ⟨r, v⟩
  rw [hr] at hle
  cases r with
  | ok s => exact pending_advance_lt_of_le hpos hle
  | error d =>
    exact pending_advance_lt_of_le hpos (Nat.le_trans (reaches_skipStatement v).pending_le hle)

/-- Pieces agree, and both end at the same number of tokens, none of which is behind a semicolon. -/
theorem exists_readPiece (n : Nat) (h : Mirrors φ w w') :
    ∃ v v', Abreast w v w' v' ∧
      (readPiece (standard.readStmt (standard.readExpr n)) w).2 = v.advance ∧
      readPiece (standard.readStmt (standard.readExpr n)) w' =
        (relocateResult φ (Stmt.relocate φ)
          (readPiece (standard.readStmt (standard.readExpr n)) w).1, v'.advance) := by
  have hs := agree_readStmt (readAlike_readExpr φ n) (endInside_readExpr n) h
  unfold readPiece
  rcases hr : (standard.readStmt (standard.readExpr n)).run w with ⟨r, v⟩
  rcases hr' : (standard.readStmt (standard.readExpr n)).run w' with ⟨r', v'⟩
  rw [hr, hr'] at hs
  cases r with
  | ok s =>
    obtain rfl : r' = .ok (s.relocate φ) := hs.result
    exact ⟨v, v', hs.abreast, rfl, rfl⟩
  | error d =>
    obtain rfl : r' = .error (d.relocate φ) := hs.result
    exact ⟨v.skipStatement, v'.skipStatement,
      hs.abreast.trans (abreast_skipStatement (h.of_abreast hs.abreast)), rfl, rfl⟩

/-- Windows that show the same tokens to the end, at other places. -/
def Window.Copies (φ : Position → Position) (w : Window σ) (w' : Window τ) : Prop :=
  ∀ i, w'.nth i = (w.nth i).relocate φ

theorem Window.Copies.after (h : Copies φ w w') (n : Nat) : Copies φ (w.after n) (w'.after n) := by
  intro i
  rw [nth_after, nth_after, h]

theorem Window.Shows.copies {ts : List Token} {e : Token} (hw : w.Shows ts e)
    (hw' : w'.Shows (ts.map (Token.relocate φ)) (e.relocate φ)) : Copies φ w w' := by
  intro i
  rw [hw' i, hw i, List.getD_eq_getElem?_getD, List.getD_eq_getElem?_getD, List.getElem?_map]
  cases ts[i]? <;> rfl

/-- A program at other places is read alike, and with as many pulls. -/
theorem readAll_of_copies (n : Nat) (h : Copies φ w w') :
    (readAll (standard.readStmt (standard.readExpr n)) w').1 =
        (readAll (standard.readStmt (standard.readExpr n)) w).1.map
          (relocateResult φ (Stmt.relocate φ)) ∧
      ∃ k, (readAll (standard.readStmt (standard.readExpr n)) w).2 = w.after k ∧
        (readAll (standard.readStmt (standard.readExpr n)) w').2 = w'.after k := by
  induction hm : w.pending using Nat.strongRecOn generalizing w w' with
  | _ m ih =>
    have hk : w'.current.kind = w.current.kind := by
      have h0 : w'.current = w.current.relocate φ := h 0
      rw [h0, Token.kind_relocate]
    by_cases hw : w.current.kind = .eof
    · rw [readAll_of_eof hw, readAll_of_eof (hk.trans hw)]
      exact ⟨rfl, 0, rfl, rfl⟩
    · obtain ⟨_, _, ⟨i, rfl, rfl, -⟩, hp, hp'⟩ := exists_readPiece n fun i _ => h i
      have hlt := pending_readPiece_lt (standard.readStmt (standard.readExpr n)) hw
      rw [readAll_of_ne_eof hw, readAll_of_ne_eof (hk ▸ hw), hp']
      rw [hp, ← after_succ, hm] at hlt
      rw [hp, ← after_succ, ← after_succ]
      obtain ⟨ho, k, hv, hv'⟩ := ih _ hlt (h.after (i + 1)) rfl
      refine ⟨by rw [ho, List.map_cons], i + 1 + k, ?_, ?_⟩
      · exact hv.trans (after_add (i + 1) k w).symm
      · exact hv'.trans (after_add (i + 1) k w').symm

theorem Parsed.eq_append_of_outcomes {p q r : Parsed}
    (h : r.outcomes = p.outcomes ++ q.outcomes.map (relocateResult φ (Stmt.relocate φ))) :
    r.program.statements = p.program.statements ++ q.program.statements.map (Stmt.relocate φ) ∧
      r.diagnostics = p.diagnostics ++ q.diagnostics.map (Diagnostic.relocate φ) := by
  unfold program diagnostics
  constructor
  · simp only [h, List.filterMap_append, List.filterMap_map, List.map_filterMap]
    congr 2
    funext o
    cases o <;> rfl
  · simp only [h, List.filterMap_append, List.filterMap_map, List.map_filterMap]
    congr 2
    funext o
    cases o <;> rfl

theorem Parsed.eq_map_of_outcomes {p q : Parsed}
    (h : q.outcomes = p.outcomes.map (relocateResult φ (Stmt.relocate φ))) :
    q.program.statements = p.program.statements.map (Stmt.relocate φ) ∧
      q.diagnostics = p.diagnostics.map (Diagnostic.relocate φ) :=
  eq_append_of_outcomes (p := ⟨[], 0⟩) h

/-- The same tokens at other places give the same program and diagnostics at other places, with as
many pulls. -/
theorem parse_of_nth_eq_relocate {s : σ} {s' : τ}
    (h : ∀ k, TokenSource.nth k s' = (TokenSource.nth k s).relocate φ) :
    (parse s').outcomes = (parse s).outcomes.map (relocateResult φ (Stmt.relocate φ)) ∧
      (parse s').pulled = (parse s).pulled := by
  have hc : Copies φ (.ofSource s) (.ofSource s') := by
    intro i
    rw [TokenSource.nth_ofSource, TokenSource.nth_ofSource, h]
  obtain ⟨ho, k, hv, hv'⟩ := readAll_of_copies nestingLimit hc
  refine ⟨ho, ?_⟩
  calc (parse s').pulled = ((Window.ofSource s').after k).pulled := congrArg Window.pulled hv'
    _ = ((Window.ofSource s).after k).pulled := by rw [pulled_after, pulled_after]; rfl
    _ = (parse s).pulled := (congrArg Window.pulled hv).symm

/-- What is read depends on the tokens that a source gives, and on nothing else. -/
theorem parse_eq_of_nth_eq {s : σ} {s' : τ}
    (h : ∀ k, TokenSource.nth k s' = TokenSource.nth k s) : parse s' = parse s := by
  obtain ⟨ho, hp⟩ := parse_of_nth_eq_relocate (φ := id) h
  have hid : relocateResult id (Stmt.relocate id) = id := funext relocateResult_id
  rw [hid, List.map_id] at ho
  calc parse s' = ⟨(parse s').outcomes, (parse s').pulled⟩ := rfl
    _ = ⟨(parse s).outcomes, (parse s).pulled⟩ := by rw [ho, hp]
    _ = parse s := rfl

theorem parse_of_copies {s : σ} {s' : τ} {ts : List Token} {e : Token}
    (hs : TokenSource.Gives s ts e)
    (hs' : TokenSource.Gives s' (ts.map (Token.relocate φ)) (e.relocate φ)) :
    (parse s').program.statements = (parse s).program.statements.map (Stmt.relocate φ) ∧
      (parse s').diagnostics = (parse s).diagnostics.map (Diagnostic.relocate φ) := by
  apply Parsed.eq_map_of_outcomes
  apply And.left
  apply parse_of_nth_eq_relocate
  intro k
  rw [hs k, hs' k, List.getD_eq_getElem?_getD, List.getD_eq_getElem?_getD, List.getElem?_map]
  cases ts[k]? <;> rfl

theorem parse_of_bare_eq {s : σ} {s' : τ} {ts us : List Token} {d e : Token}
    (hs : TokenSource.Gives s ts d) (hs' : TokenSource.Gives s' us e)
    (hts : ∀ t ∈ ts, t.kind ≠ .eof) (hd : d.kind = .eof)
    (h : ts.map Token.bare = us.map Token.bare) (hde : d.bare = e.bare) :
    (parse s).program.statements.map (Stmt.relocate Position.forget) =
        (parse s').program.statements.map (Stmt.relocate Position.forget) ∧
      (parse s).diagnostics.map (Diagnostic.relocate Position.forget) =
        (parse s').diagnostics.map (Diagnostic.relocate Position.forget) := by
  have hbare : ∀ t ∈ ts.map Token.bare, t.kind ≠ .eof := by
    intro t ht
    obtain ⟨u, hu, rfl⟩ := List.mem_map.mp ht
    exact hts u hu
  have hr := TokenSource.gives_replay hbare (e := d.bare) hd
  have h1 := parse_of_copies hs hr
  rw [h, hde] at hr h1
  have h2 := parse_of_copies hs' hr
  exact ⟨h1.1.symm.trans h2.1, h1.2.symm.trans h2.2⟩

end MonkeySyntax
