import MonkeySyntax.Proofs.Precedence

/-! Statements as they are written, and programs as rows of them. A row is read statement by
statement, unless one of them needs more levels than there are. -/
namespace MonkeySyntax

open Grammar Step

variable {σ : Type} [TokenSource σ] {w v : Window σ} {n : Nat}

/-- A statement with all of its tokens. -/
inductive Sentence
  | binding (keyword name equals : Token) (value : Grouped) (semicolon : Token)
      (isLet : keyword.kind = .kwLet) (isName : name.kind = .identifier)
      (isEquals : equals.kind = .assign) (isSemicolon : semicolon.kind = .semicolon)
  | ret (keyword : Token) (value : Grouped) (semicolon : Token)
      (isReturn : keyword.kind = .kwReturn) (isSemicolon : semicolon.kind = .semicolon)
  | expr (value : Grouped) (semicolon : Option Token)
      (isSemicolon : ∀ t ∈ semicolon, t.kind = .semicolon)

namespace Sentence

def value : Sentence → Grouped
  | binding _ _ _ g _ _ _ _ _ => g
  | ret _ g _ _ _ => g
  | expr g _ _ => g

def tokens : Sentence → List Token
  | binding k a q g s _ _ _ _ => k :: a :: q :: (g.tokens ++ [s])
  | ret k g s _ _ => k :: (g.tokens ++ [s])
  | expr g s _ => g.tokens ++ s.toList

def head : Sentence → Token
  | binding k _ _ _ _ _ _ _ _ => k
  | ret k _ _ _ _ => k
  | expr g _ _ => g.head

def stmt : Sentence → Stmt
  | binding k a _ g _ _ _ _ _ => .binding k ⟨a, a.literal⟩ g.expr
  | ret k g _ _ _ => .ret k g.expr
  | expr g _ _ => .expr g.head g.expr

/-- The statement ends before a token of kind `k`: it has its semicolon, or that token neither is
one nor continues the expression. -/
def StopsBefore : Sentence → TokenKind → Prop
  | expr _ none _, k => k ≠ .semicolon ∧ standard.continuation? .lowest k = none
  | _, _ => True

/-- The statement is written from the current token of `w` to that of `v`. -/
structure Reading (x : Sentence) (w v : Window σ) : Prop where
  shaped : x.value.WellShaped
  covers : w.Covers x.tokens v
  stops : x.StopsBefore v.peek.kind

theorem tokens_eq_head_cons (x : Sentence) : ∃ ts, x.tokens = x.head :: ts := by
  cases x with
  | expr g s hs =>
    obtain ⟨ts, hts⟩ := g.tokens_eq_head_cons
    exact ⟨ts ++ s.toList, by simp [tokens, head, hts]⟩
  | _ => exact ⟨_, rfl⟩

theorem tokens_ne_nil (x : Sentence) : x.tokens ≠ [] := by
  obtain ⟨ts, hts⟩ := x.tokens_eq_head_cons
  simp [hts]

theorem kind_ne_eof_of_mem_tokens {x : Sentence} {t : Token} (h : t ∈ x.tokens) :
    t.kind ≠ .eof := by
  cases x with
  | binding k a q g s hk ha hq hs =>
    simp only [tokens, List.mem_cons, List.mem_append, List.not_mem_nil, or_false] at h
    rcases h with rfl | rfl | rfl | h | rfl
    · simp [hk]
    · simp [ha]
    · simp [hq]
    · exact (Grouped.kind_of_mem_tokens h).1
    · simp [hs]
  | ret k g s hk hs =>
    simp only [tokens, List.mem_cons, List.mem_append, List.not_mem_nil, or_false] at h
    rcases h with rfl | h | rfl
    · simp [hk]
    · exact (Grouped.kind_of_mem_tokens h).1
    · simp [hs]
  | expr g s hs =>
    rcases List.mem_append.mp h with h | h
    · exact (Grouped.kind_of_mem_tokens h).1
    · simp [hs t (Option.mem_toList.mp h)]

/-- Only the last token of a statement can be a semicolon. -/
theorem kind_ne_semicolon_of_mem_dropLast {x : Sentence} {t : Token}
    (h : t ∈ x.tokens.dropLast) : t.kind ≠ .semicolon := by
  cases x with
  | binding k a q g s hk ha hq =>
    have hsplit : k :: a :: q :: (g.tokens ++ [s]) = (k :: a :: q :: g.tokens) ++ [s] := rfl
    rw [tokens, hsplit, List.dropLast_concat] at h
    simp only [List.mem_cons] at h
    rcases h with rfl | rfl | rfl | h
    · simp [hk]
    · simp [ha]
    · simp [hq]
    · exact (Grouped.kind_of_mem_tokens h).2.1
  | ret k g s hk =>
    have hsplit : k :: (g.tokens ++ [s]) = (k :: g.tokens) ++ [s] := rfl
    rw [tokens, hsplit, List.dropLast_concat] at h
    rcases List.mem_cons.mp h with rfl | h
    · simp [hk]
    · exact (Grouped.kind_of_mem_tokens h).2.1
  | expr g s =>
    have hg : t ∈ g.tokens := by
      cases s with
      | none =>
        rw [tokens, Option.toList_none, List.append_nil] at h
        exact (List.dropLast_sublist _).subset h
      | some s =>
        rw [tokens, Option.toList_some, List.dropLast_concat] at h
        exact h
    exact (Grouped.kind_of_mem_tokens hg).2.1

theorem exists_of_readStmt {s : Stmt}
    (h : (standard.readStmt (standard.readExpr n)).run w = (.ok s, v)) :
    ∃ x : Sentence, x.Reading w v ∧ x.stmt = s ∧ x.value.levels ≤ n := by
  rw [run_readStmt] at h
  by_cases hl : w.current.kind = .kwLet
  · rw [hl] at h
    obtain ⟨e, u, hn, ha, he, hs, rfl, rfl⟩ := StmtRule.run_readBinding_eq_ok_iff.mp h
    obtain ⟨g, hg, rfl, hlev⟩ := run_readExpr_eq_ok_iff.mp he
    exact ⟨.binding w.current w.peek w.advance.peek g u.peek hl hn ha hs,
      ⟨hg.shaped, hg.covers.snoc.cons.cons.cons, trivial⟩, rfl, hlev⟩
  by_cases hr : w.current.kind = .kwReturn
  · rw [hr] at h
    obtain ⟨e, u, he, hs, rfl, rfl⟩ := StmtRule.run_readRet_eq_ok_iff.mp h
    obtain ⟨g, hg, rfl, hlev⟩ := run_readExpr_eq_ok_iff.mp he
    exact ⟨.ret w.current g u.peek hr hs, ⟨hg.shaped, hg.covers.snoc.cons, trivial⟩, rfl, hlev⟩
  rw [standard_statement_of_ne hl hr] at h
  obtain ⟨e, u, he, rfl, rfl⟩ := StmtRule.run_readExprStmt_eq_ok_iff.mp h
  obtain ⟨g, hg, rfl, hlev⟩ := run_readExpr_eq_ok_iff.mp he
  have hhead := hg.current_eq_head
  by_cases hs : u.peek.kind = .semicolon
  · refine ⟨.expr g (some u.peek) (by simp [hs]), ⟨hg.shaped, ?_, trivial⟩, ?_, hlev⟩
    · rw [if_pos hs]
      exact hg.covers.snoc
    · rw [stmt, hhead]
  · refine ⟨.expr g none (by simp), ⟨hg.shaped, ?_, ?_⟩, ?_, hlev⟩
    · rw [if_neg hs]
      simpa [tokens] using hg.covers
    · rw [if_neg hs]
      exact ⟨hs, hg.stops⟩
    · rw [stmt, hhead]

private theorem run_readStmt_of_expression {g : Grouped} {nested : Power → Step σ Expr}
    (h : w.current = g.head) :
    (standard.readStmt nested).run w = (StmtRule.readExprStmt nested).run w := by
  have hk := (Grouped.kind_of_mem_tokens g.head_mem_tokens).2.2
  rw [run_readStmt, h, hk]
  rfl

theorem Reading.exists_value {x : Sentence} (h : x.Reading w v) (n : Nat) :
    ∃ a b : Window σ, x.value.Reading .lowest a b ∧
      ((standard.readExpr n .lowest).run a = (.ok x.value.expr, b) →
        (standard.readStmt (standard.readExpr n)).run w = (.ok x.stmt, v)) ∧
      ∀ d z, (standard.readExpr n .lowest).run a = (.error d, z) →
        (standard.readStmt (standard.readExpr n)).run w = (.error d, z) := by
  obtain ⟨hw, hc, hs⟩ := h
  cases x with
  | binding k a q g s hk ha hq hsemi =>
    obtain rfl := hc.current_eq
    have h1 : w.advance.Covers (a :: q :: (g.tokens ++ [s])) v := hc.tail (by simp)
    obtain rfl : w.peek = a := h1.current_eq
    have h2 : w.advance.advance.Covers (q :: (g.tokens ++ [s])) v := h1.tail (by simp)
    obtain rfl : w.advance.peek = q := h2.current_eq
    obtain ⟨u, hu, rfl, rfl⟩ := (h2.tail (by simp)).init g.tokens_ne_nil
    have hg : g.Reading .lowest w.advance.advance.advance u :=
      ⟨hw, hu, g.lowest_lt_top, by rw [hsemi]; rfl⟩
    have hrun : (standard.readStmt (standard.readExpr n)).run w =
        (StmtRule.readBinding (standard.readExpr n)).run w := by
      rw [run_readStmt, hk]
      rfl
    refine ⟨_, u, hg, ?_, ?_⟩
    · intro hr
      rw [hrun]
      exact StmtRule.run_readBinding_eq_ok_iff.mpr ⟨g.expr, u, ha, hq, hr, hsemi, rfl, rfl⟩
    · intro d z hd
      rw [hrun, StmtRule.run_readBinding_of_kinds ha hq, run_bind_of_error hd]
  | ret k g s hk hsemi =>
    obtain rfl := hc.current_eq
    obtain ⟨u, hu, rfl, rfl⟩ := (hc.tail (by simp)).init g.tokens_ne_nil
    have hg : g.Reading .lowest w.advance u := ⟨hw, hu, g.lowest_lt_top, by rw [hsemi]; rfl⟩
    have hrun : (standard.readStmt (standard.readExpr n)).run w =
        (StmtRule.readRet (standard.readExpr n)).run w := by
      rw [run_readStmt, hk]
      rfl
    refine ⟨_, u, hg, ?_, ?_⟩
    · intro hr
      rw [hrun]
      exact StmtRule.run_readRet_eq_ok_iff.mpr ⟨g.expr, u, hr, hsemi, rfl, rfl⟩
    · intro d z hd
      rw [hrun]
      exact run_bind_of_error hd _
  | expr g s hsemi =>
    obtain ⟨u, hg, hv⟩ : ∃ u : Window σ, g.Reading .lowest w u ∧
        v = if u.peek.kind = .semicolon then u.advance else u := by
      cases s with
      | none =>
        refine ⟨v, ⟨hw, by simpa [tokens] using hc, g.lowest_lt_top, hs.2⟩, ?_⟩
        rw [if_neg hs.1]
      | some s =>
        have hks : s.kind = .semicolon := hsemi s rfl
        obtain ⟨u, hu, rfl, rfl⟩ := hc.init g.tokens_ne_nil
        exact ⟨u, ⟨hw, hu, g.lowest_lt_top, by rw [hks]; rfl⟩, by rw [if_pos hks]⟩
    have hhead := hg.current_eq_head
    refine ⟨w, u, hg, ?_, ?_⟩
    · intro hr
      rw [run_readStmt_of_expression hhead]
      exact StmtRule.run_readExprStmt_eq_ok_iff.mpr ⟨g.expr, u, hr, hv, by rw [stmt, hhead]⟩
    · intro d z hd
      rw [run_readStmt_of_expression hhead]
      exact run_bind_of_error hd _

theorem run_readStmt_of_reading {x : Sentence} (h : x.Reading w v) (hn : x.value.levels ≤ n) :
    (standard.readStmt (standard.readExpr n)).run w = (.ok x.stmt, v) := by
  obtain ⟨a, b, hg, hok, -⟩ := h.exists_value n
  exact hok (run_readExpr_eq_ok_iff.mpr ⟨x.value, hg, rfl, hn⟩)

theorem run_readStmt_of_lt_levels {x : Sentence} (h : x.Reading w v) (hn : n < x.value.levels) :
    ∃ d u, (standard.readStmt (standard.readExpr n)).run w = (.error d, u) ∧
      d.fault = .tooDeep nestingLimit := by
  obtain ⟨a, b, hg, -, herr⟩ := h.exists_value n
  obtain ⟨d, u, hr, hd⟩ := run_readExpr_of_lt_levels hg hn
  exact ⟨d, u, herr d u hr, hd⟩

def firstKind : List Sentence → TokenKind
  | [] => .eof
  | x :: _ => x.head.kind

/-- None of the statements could be taken further into the next one. -/
def Separated : List Sentence → Prop
  | [] => True
  | x :: xs => x.value.WellShaped ∧ x.StopsBefore (firstKind xs) ∧ Separated xs

variable {xs : List Sentence} {ts : List Token} {e : Token}

theorem kind_current_eq_firstKind (h : w.Shows (xs.flatMap tokens) e) (he : e.kind = .eof) :
    w.current.kind = firstKind xs := by
  cases xs with
  | nil => simpa [firstKind, he] using congrArg Token.kind h.current_eq
  | cons x xs =>
    obtain ⟨ts, hts⟩ := x.tokens_eq_head_cons
    simpa [firstKind, hts] using congrArg Token.kind h.current_eq

theorem Separated.reading {x : Sentence} (hx : Separated (x :: xs))
    (hw : w.Shows ((x :: xs).flatMap tokens) e) (he : e.kind = .eof) :
    ∃ v, x.Reading w v ∧ v.advance.Shows (xs.flatMap tokens) e := by
  obtain ⟨hshape, hstop, -⟩ := hx
  have hsplit : w.Shows (x.tokens ++ xs.flatMap tokens) e := by simpa using hw
  obtain ⟨v, hc, hv⟩ := hsplit.covers x.tokens_ne_nil
  have hk : v.peek.kind = firstKind xs := kind_current_eq_firstKind hv he
  exact ⟨v, ⟨hshape, hc, hk ▸ hstop⟩, hv⟩

theorem Reading.kind_current_ne_eof {x : Sentence} (h : x.Reading w v) :
    w.current.kind ≠ .eof := by
  obtain ⟨ts, hts⟩ := x.tokens_eq_head_cons
  have hc : w.Covers (x.head :: ts) v := hts ▸ h.covers
  rw [hc.current_eq]
  exact kind_ne_eof_of_mem_tokens (by rw [hts]; exact List.mem_cons_self)

/-- A row for whose statements the levels suffice is read statement by statement. -/
theorem readAll_of_separated (hx : Separated xs) (hw : w.Shows (xs.flatMap tokens) e)
    (he : e.kind = .eof) (hn : ∀ x ∈ xs, x.value.levels ≤ n) :
    (readAll (standard.readStmt (standard.readExpr n)) w).1 = xs.map fun x => .ok x.stmt := by
  induction xs generalizing w with
  | nil =>
    rw [readAll_of_eof (kind_current_eq_firstKind hw he)]
    rfl
  | cons x xs ih =>
    obtain ⟨v, hr, hv⟩ := hx.reading hw he
    have hx1 := run_readStmt_of_reading hr (hn x (by simp))
    rw [readAll_of_ok hr.kind_current_ne_eof hx1, List.map_cons,
      ih hx.2.2 hv fun y hy => hn y (by simp [hy])]

theorem parse_of_separated {s : σ} (hx : Separated xs)
    (hs : TokenSource.Gives s (xs.flatMap tokens) e) (he : e.kind = .eof)
    (hn : ∀ x ∈ xs, x.value.levels ≤ nestingLimit) :
    (parse s).program = ⟨xs.map stmt⟩ ∧ (parse s).diagnostics = [] :=
  Parsed.of_outcomes_eq_map (readAll_of_separated hx hs.shows he hn)

/-- If the levels do not suffice for a statement of the row, reading says so. -/
theorem exists_tooDeep_of_separated (hx : Separated xs) (hw : w.Shows (xs.flatMap tokens) e)
    (he : e.kind = .eof) (hn : ∃ x ∈ xs, n < x.value.levels) :
    ∃ d, .error d ∈ (readAll (standard.readStmt (standard.readExpr n)) w).1 ∧
      d.fault = .tooDeep nestingLimit := by
  induction xs generalizing w with
  | nil =>
    obtain ⟨x, hmem, -⟩ := hn
    cases hmem
  | cons x xs ih =>
    obtain ⟨v, hr, hv⟩ := hx.reading hw he
    by_cases hl : x.value.levels ≤ n
    · have hlater : ∃ y ∈ xs, n < y.value.levels := by
        obtain ⟨y, hy, hny⟩ := hn
        rcases List.mem_cons.mp hy with rfl | hy
        · exact absurd hl (Nat.not_le.mpr hny)
        · exact ⟨y, hy, hny⟩
      obtain ⟨d, hd, hf⟩ := ih hx.2.2 hv hlater
      rw [readAll_of_ok hr.kind_current_ne_eof (run_readStmt_of_reading hr hl)]
      exact ⟨d, List.mem_cons_of_mem _ hd, hf⟩
    · obtain ⟨d, u, hd, hf⟩ := run_readStmt_of_lt_levels hr (Nat.not_le.mp hl)
      rw [readAll_of_error hr.kind_current_ne_eof hd]
      exact ⟨d, List.mem_cons_self, hf⟩

/-- What was read without a diagnostic is a row of statements. -/
theorem exists_separated (hw : w.Shows ts e) (he : e.kind = .eof) (hts : ∀ t ∈ ts, t.kind ≠ .eof)
    (hok : ∀ o ∈ (readAll (standard.readStmt (standard.readExpr n)) w).1, ∃ s, o = .ok s) :
    ∃ xs : List Sentence, Separated xs ∧ xs.flatMap tokens = ts ∧
      (∀ x ∈ xs, x.value.levels ≤ n) ∧
      (readAll (standard.readStmt (standard.readExpr n)) w).1 = xs.map fun x => .ok x.stmt := by
  induction hl : ts.length using Nat.strongRecOn generalizing ts w with
  | _ k ih =>
    cases ts with
    | nil =>
      have hcur : w.current.kind = .eof := by simpa [he] using congrArg Token.kind hw.current_eq
      exact ⟨[], trivial, rfl, by simp, by rw [readAll_of_eof hcur]; rfl⟩
    | cons t ts =>
      have hcur : w.current.kind ≠ .eof := by
        have : w.current = t := by simpa using hw.current_eq
        rw [this]
        exact hts t List.mem_cons_self
      obtain ⟨r, v, hr⟩ : ∃ r v, (standard.readStmt (standard.readExpr n)).run w = (r, v) :=
        ⟨_, _, rfl⟩
      cases r with
      | error d =>
        rw [readAll_of_error hcur hr] at hok
        obtain ⟨s, hs⟩ := hok (.error d) List.mem_cons_self
        cases hs
      | ok s =>
        obtain ⟨x, hx, rfl, hn⟩ := exists_of_readStmt hr
        obtain ⟨rest, hrest, hv⟩ := hw.exists_eq_append he hx.covers
          fun u hu => kind_ne_eof_of_mem_tokens hu
        have hlen : rest.length < k := by
          have := List.length_pos_iff.mpr x.tokens_ne_nil
          rw [← hl, hrest, List.length_append]
          omega
        rw [readAll_of_ok hcur hr] at hok ⊢
        obtain ⟨xs, hsep, hflat, hnx, hall⟩ := ih _ hlen hv
          (fun u hu => hts u (by rw [hrest]; exact List.mem_append_right _ hu))
          (fun o ho => hok o (List.mem_cons_of_mem _ ho)) rfl
        subst hflat
        have hk : v.peek.kind = firstKind xs := kind_current_eq_firstKind hv he
        refine ⟨x :: xs, ⟨hx.shaped, hk ▸ hx.stops, hsep⟩, by simp [hrest], ?_, ?_⟩
        · intro y hy
          rcases List.mem_cons.mp hy with rfl | hy
          · exact hn
          · exact hnx y hy
        · rw [hall, List.map_cons]

end Sentence
end MonkeySyntax
