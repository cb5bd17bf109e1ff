import MonkeySyntax.Proofs.Sentence

/-! Where reading fails. The tokens before the one at fault start an expression or a statement that
could have been read; which ones they are says by which rule it failed. -/
namespace MonkeySyntax

open Grammar Step

variable {σ : Type} [TokenSource σ] {w v u : Window σ} {n : Nat} {p : Power} {d : Diagnostic}
  {ts us : List Token} {t : Token} {f : Fault}

/-- How far the token at fault is ahead of the current one: a token that had to follow is missed
where the next token is another one. -/
def Fault.ahead : Fault → Nat
  | unexpected .. => 1
  | _ => 0

/-- From `w` on, the tokens `ts` are passed, and then `d` is raised on `t`, in the window `v`. -/
structure Window.FailsBehind (w : Window σ) (ts : List Token) (t : Token) (d : Diagnostic)
    (v : Window σ) : Prop where
  starts : w.Starts (ts ++ [t])
  window : w.after ts.length = v.after d.fault.ahead
  position : d.position = t.span.start

namespace Window

theorem failsBehind_current (hf : f.ahead = 0) :
    w.FailsBehind [] w.current ⟨f, w.current.span.start⟩ w := by
  refine ⟨rfl, ?_, rfl⟩
  rw [hf]
  rfl

theorem Covers.failsBehind_peek {j k : TokenKind} (h : w.Covers ts v) :
    w.FailsBehind ts v.peek ⟨.unexpected j k, v.peek.span.start⟩ v := by
  refine ⟨starts_append_iff.mpr ⟨h.starts, ?_⟩, h.after_length, rfl⟩
  rw [h.after_length]
  rfl

theorem FailsBehind.append (hc : w.Covers us u) (h : u.advance.FailsBehind ts t d v) :
    w.FailsBehind (us ++ ts) t d v := by
  obtain ⟨hs, hw, hp⟩ := h
  rw [← hc.after_length] at hs hw
  refine ⟨?_, ?_, hp⟩
  · rw [List.append_assoc]
    exact starts_append_iff.mpr ⟨hc.starts, hs⟩
  · rw [List.length_append, after_add, hw]

theorem FailsBehind.cons (h : w.advance.FailsBehind ts t d v) :
    w.FailsBehind (w.current :: ts) t d v :=
  .append (covers_current w) h

end Window

namespace Step

variable {α β : Type}

theorem run_bind_eq_error_iff {x : Step σ α} {k : α → Step σ β} :
    (x >>= k).run w = (.error d, v) ↔
      x.run w = (.error d, v) ∨ ∃ a u, x.run w = (.ok a, u) ∧ (k a).run u = (.error d, v) := by
  rw [run_bind]
  split
  · next h => simp [h, and_assoc]
  · next h => simp [h]

theorem run_expect_eq_error_iff {k : TokenKind} :
    (expect k : Step σ Token).run w = (.error d, v) ↔
      w.peek.kind ≠ k ∧ d = ⟨.unexpected k w.peek.kind, w.peek.span.start⟩ ∧ v = w := by
  unfold expect
  by_cases h : w.peek.kind = k
  · simp [h]
  · simp [h, eq_comm]

end Step

/-- With `n` levels left, an expression whose operators bind tighter than `p` starts with `ts`, and
reading it fails at the token `t` behind them. -/
inductive FailsExpr : Nat → Power → List Token → Token → Fault → Prop
  | level {p : Power} {t : Token} : FailsExpr 0 p [] t (.tooDeep nestingLimit)
  | operand {n : Nat} {p : Power} {t : Token} : standard.operand t.kind = none →
      FailsExpr (n + 1) p [] t (.noOperand t.kind)
  | number {n : Nat} {p : Power} {t : Token} : t.kind = .integer →
      Numeral.value? t.literal = none → FailsExpr (n + 1) p [] t (.badInteger t.literal)
  | unary {n : Nat} {p : Power} {u t : Token} {ts : List Token} {f : Fault} (op : UnaryOp) :
      u.kind = op.kind → FailsExpr n .unary ts t f → FailsExpr (n + 1) p (u :: ts) t f
  | group {n : Nat} {p : Power} {o t : Token} {ts : List Token} {f : Fault} :
      o.kind = .openParen → FailsExpr n .lowest ts t f → FailsExpr (n + 1) p (o :: ts) t f
  | closing {n : Nat} {p : Power} {o t : Token} {g : Grouped} : o.kind = .openParen →
      g.WellShaped → g.levels ≤ n → standard.continuation? .lowest t.kind = none →
      t.kind ≠ .closeParen →
      FailsExpr (n + 1) p (o :: g.tokens) t (.unexpected .closeParen t.kind)
  | right {n : Nat} {p : Power} {l : Grouped} {u t : Token} {ts : List Token} {f : Fault}
      (op : BinaryOp) : l.WellShaped → l.levels ≤ n + 1 → (∀ q ∈ l.top?, op.power ≤ q) →
      u.kind = op.kind → p < op.power → FailsExpr n op.power ts t f →
      FailsExpr (n + 1) p (l.tokens ++ u :: ts) t f

/-- An expression that a token of kind `k` has to follow fails at `t`: inside, or because another
token follows it. -/
inductive FailsValue (n : Nat) (k : TokenKind) : List Token → Token → Fault → Prop
  | inside {ts : List Token} {t : Token} {f : Fault} : FailsExpr n .lowest ts t f →
      FailsValue n k ts t f
  | behind {g : Grouped} {t : Token} : g.WellShaped → g.levels ≤ n →
      standard.continuation? .lowest t.kind = none → t.kind ≠ k →
      FailsValue n k g.tokens t (.unexpected k t.kind)

namespace FailsExpr

/-- What `nested` fails on is an expression of at most `n` levels that fails. -/
def Sound (nested : Power → Step σ Expr) (n : Nat) : Prop :=
  ∀ p w d v, (nested p).run w = (.error d, v) →
    ∃ ts t, FailsExpr n p ts t d.fault ∧ w.FailsBehind ts t d v

variable {α : Type} {nested : Power → Step σ Expr} {left : Expr}

theorem exists_of_readInteger (p : Power) (n : Nat) (hk : w.current.kind = .integer)
    (h : (OperandRule.readInteger : Step σ Expr).run w = (.error d, v)) :
    ∃ ts t, FailsExpr (n + 1) p ts t d.fault ∧ w.FailsBehind ts t d v := by
  cases hv : Numeral.value? w.current.literal with
  | some i =>
    cases (OperandRule.run_readInteger_eq_ok_iff.mpr ⟨i, hv, rfl, rfl⟩).symm.trans h
  | none =>
    rw [OperandRule.run_readInteger_of_eq_none hv] at h
    cases h
    exact ⟨[], w.current, .number hk hv, Window.failsBehind_current rfl⟩

theorem exists_of_readUnary (p : Power) (hn : Sound nested n) {op : UnaryOp}
    (hk : w.current.kind = op.kind)
    (h : (OperandRule.readUnary nested).run w = (.error d, v)) :
    ∃ ts t, FailsExpr (n + 1) p ts t d.fault ∧ w.FailsBehind ts t d v := by
  rw [OperandRule.run_readUnary_of_kind hk, run_bind_eq_error_iff] at h
  rcases h with h | ⟨x, u, -, h⟩
  · obtain ⟨ts, t, hf, hw⟩ := hn _ _ _ _ h
    exact ⟨w.current :: ts, t, .unary op hk hf, hw.cons⟩
  · cases h

theorem exists_of_value {k : TokenKind} {r : Expr → α} (hn : Sound nested n)
    (hg : Grouped.Sound nested n)
    (h : (nested .lowest >>= fun e => expect k >>= fun _ => pure (r e)).run w = (.error d, v)) :
    ∃ ts t, FailsValue n k ts t d.fault ∧ w.FailsBehind ts t d v := by
  rw [run_bind_eq_error_iff] at h
  rcases h with h | ⟨e, u, he, h⟩
  · obtain ⟨ts, t, hf, hw⟩ := hn _ _ _ _ h
    exact ⟨ts, t, .inside hf, hw⟩
  · obtain ⟨g, hr, -, hl⟩ := hg _ _ _ _ he
    rw [run_bind_eq_error_iff] at h
    rcases h with h | ⟨c, x, -, h⟩
    · obtain ⟨hc, rfl, rfl⟩ := run_expect_eq_error_iff.mp h
      exact ⟨g.tokens, v.peek, .behind hr.shaped hl hr.stops hc, hr.covers.failsBehind_peek⟩
    · cases h

theorem exists_of_readGroup (p : Power) (hn : Sound nested n) (hg : Grouped.Sound nested n)
    (hk : w.current.kind = .openParen)
    (h : (OperandRule.readGroup nested).run w = (.error d, v)) :
    ∃ ts t, FailsExpr (n + 1) p ts t d.fault ∧ w.FailsBehind ts t d v := by
  unfold OperandRule.readGroup at h
  rw [run_advance_bind] at h
  obtain ⟨ts, t, hf, hw⟩ := exists_of_value hn hg h
  refine ⟨w.current :: ts, t, ?_, hw.cons⟩
  generalize d.fault = f at hf
  cases hf with
  | inside hf => exact .group hk hf
  | behind hg hl hs hc => exact .closing hk hg hl hs hc

theorem exists_of_readOperand (p : Power) (hn : Sound nested n) (hg : Grouped.Sound nested n)
    (h : (standard.readOperand nested).run w = (.error d, v)) :
    ∃ ts t, FailsExpr (n + 1) p ts t d.fault ∧ w.FailsBehind ts t d v := by
  cases hr : standard.operand w.current.kind with
  | none =>
    rw [run_readOperand_of_eq_none hr] at h
    cases h
    exact ⟨[], w.current, .operand hr, Window.failsBehind_current rfl⟩
  | some rule =>
    rw [run_readOperand_of_eq_some hr] at h
    have hk := standard_operand_eq_some_iff.mp hr
    cases rule with
    | identifier => cases h
    | integer => exact exists_of_readInteger p n hk h
    | boolean => cases h
    | unary =>
      obtain ⟨op, hop⟩ := hk
      exact exists_of_readUnary p hn hop h
    | group => exact exists_of_readGroup p hn hg hk h

/-- The operator loop fails at the right operand of an operator that goes on from what was read. -/
theorem exists_of_foldOperators (hn : Sound nested n) (hs : Grouped.Grows standard nested n)
    {g : Grouped} (hg : g.Growing standard p w u) (hl : g.levels ≤ n + 1)
    (h : standard.foldOperators nested p left u = (.error d, v)) :
    ∃ ts t, FailsExpr (n + 1) p ts t d.fault ∧ w.FailsBehind ts t d v := by
  fun_induction foldOperators standard nested p left u generalizing g with
  | case1 left u hnone => cases h
  | case2 left u q hq d' v' hr =>
    cases h
    obtain ⟨op, hk, rfl, hlt⟩ := standard_continuation?_eq_some_iff.mp hq
    have hshaped : g.WellShaped := Grouped.respects_standard_iff.mp hg.respects
    have hleft : ∀ q ∈ g.top?, op.power ≤ q := by
      intro q hq
      have hstop := hg.stops_top q (g.power?_standard ▸ hq)
      rwa [hk, standard_continuation?_kind_eq_none_iff] at hstop
    rw [run_readBinary_of_kind hk, run_bind_eq_error_iff] at hr
    rcases hr with hr | ⟨e, x, -, hr⟩
    · obtain ⟨ts, t, hf, hw⟩ := hn _ _ _ _ hr
      exact ⟨g.tokens ++ u.peek :: ts, t, .right op hshaped hl hleft hk hlt hf,
        .append hg.covers hw.cons⟩
    · cases hr
  | case3 left u q hq x u' hr ih =>
    obtain ⟨op, r, hk, hnested, rfl⟩ := run_readBinary_eq_ok_iff.mp hr
    obtain ⟨r, hgr, hstop, -, hlr⟩ := hs _ _ _ _ hnested
    exact ih (hg.binary hq hk hgr hstop) (Nat.max_le.mpr ⟨hl, Nat.succ_le_succ hlr⟩) h

theorem sound_readExpr (n : Nat) : Sound (σ := σ) (standard.readExpr n) n := by
  induction n with
  | zero =>
    intro p w d v h
    cases h
    exact ⟨[], w.current, .level, Window.failsBehind_current rfl⟩
  | succ n ih =>
    intro p w d v h
    rw [run_readExpr_succ, run_bind_eq_error_iff] at h
    rcases h with h | ⟨left, u, hleft, hfold⟩
    · exact exists_of_readOperand p ih (Grouped.sound_readExpr n) h
    · have hgrows : Grouped.Grows (σ := σ) standard (standard.readExpr n) n :=
        Grouped.grows_readExpr rfl n
      obtain ⟨g, hg, -, hl⟩ := Grouped.growing_of_readOperand rfl hgrows hleft
      exact exists_of_foldOperators ih hgrows hg hl hfold

theorem run_value_of_behind {k : TokenKind} {r : Expr → α} {g : Grouped} (hg : g.WellShaped)
    (hl : g.levels ≤ n) (hs : standard.continuation? .lowest t.kind = none) (hk : t.kind ≠ k)
    (hw : w.Starts (g.tokens ++ [t])) :
    ∃ v, (standard.readExpr n .lowest >>= fun e => expect k >>= fun _ => pure (r e)).run w =
      (.error ⟨.unexpected k t.kind, t.span.start⟩, v) := by
  obtain ⟨hg', ht⟩ := Window.starts_append_iff.mp hw
  obtain ⟨u, hu⟩ := hg'.covers g.tokens_ne_nil
  rw [hu.after_length] at ht
  obtain ⟨rfl, -⟩ := Window.starts_cons_iff.mp ht
  have hr := run_readExpr_eq_ok_iff.mpr ⟨g, ⟨hg, hu, g.lowest_lt_top, hs⟩, rfl, hl⟩
  refine ⟨u, (run_bind_of_ok hr _).trans ?_⟩
  exact run_bind_of_error (run_expect_eq_error_iff.mpr ⟨hk, rfl, rfl⟩) _

/-- Where the same tokens come first, reading fails in the same way. -/
theorem exists_run (h : FailsExpr n p ts t f) (hw : w.Starts (ts ++ [t])) :
    ∃ v, (standard.readExpr n p).run w = (.error ⟨f, t.span.start⟩, v) := by
  induction h generalizing w with
  | level =>
    obtain ⟨rfl, -⟩ := Window.starts_cons_iff.mp hw
    exact ⟨w, rfl⟩
  | operand hk =>
    obtain ⟨rfl, -⟩ := Window.starts_cons_iff.mp hw
    exact ⟨w, run_bind_of_error (run_readOperand_of_eq_none hk) _⟩
  | number hk hv =>
    obtain ⟨rfl, -⟩ := Window.starts_cons_iff.mp hw
    have hrule : standard.operand w.current.kind = some .integer := by
      rw [hk]
      rfl
    refine ⟨w, run_bind_of_error ((run_readOperand_of_eq_some hrule).trans ?_) _⟩
    exact OperandRule.run_readInteger_of_eq_none hv
  | unary op hk _ ih =>
    obtain ⟨rfl, hnext⟩ := Window.starts_cons_iff.mp hw
    obtain ⟨v, hv⟩ := ih hnext
    exact ⟨v, run_bind_of_error (run_standard_readOperand_of_error (.inl ⟨op, hk, rfl⟩) hv) _⟩
  | group hk _ ih =>
    obtain ⟨rfl, hnext⟩ := Window.starts_cons_iff.mp hw
    obtain ⟨v, hv⟩ := ih hnext
    exact ⟨v, run_bind_of_error (run_standard_readOperand_of_error (.inr ⟨hk, rfl⟩) hv) _⟩
  | @closing n p o t g hk hg hl hs hc =>
    obtain ⟨rfl, hnext⟩ := Window.starts_cons_iff.mp hw
    obtain ⟨u, hu⟩ := run_value_of_behind hg hl hs hc hnext
    have hrule : standard.operand w.current.kind = some .group := by
      rw [hk]
      rfl
    exact ⟨u, run_bind_of_error ((run_readOperand_of_eq_some hrule).trans hu) _⟩
  | @right n p l u t ts f op hg hl hlt hk hp _ ih =>
    rw [List.append_assoc] at hw
    obtain ⟨hl', hop⟩ := Window.starts_append_iff.mp hw
    obtain ⟨x, hx⟩ := hl'.covers l.tokens_ne_nil
    rw [hx.after_length] at hop
    obtain ⟨rfl, hnext⟩ := Window.starts_cons_iff.mp hop
    obtain ⟨v, hv⟩ := ih hnext
    rw [Window.current_advance] at hk
    have hlp : ∀ q ∈ l.top?, p < q := fun q hq => Nat.lt_of_lt_of_le hp (hlt q hq)
    have hstop : ∀ q ∈ l.top?, standard.continuation? q x.peek.kind = none := by
      intro q hq
      rw [hk]
      exact (standard_continuation?_kind_eq_none_iff op).mpr (hlt q hq)
    have hcont : standard.continuation? p x.peek.kind = some op.power :=
      standard_continuation?_eq_some_iff.mpr ⟨op, hk, rfl, hp⟩
    have hleft := (l.complete n p w x hg hx hlp hstop).run_eq (Grouped.blocked?_eq_none_iff.mpr hl)
    exact ⟨v, hleft.trans (foldOperators_of_error hcont (run_readBinary_of_error hk hv))⟩

/-- What comes before the token at fault is the start of an expression that is read, unless the
levels ran out. A name stands in for a missing operand. -/
theorem exists_completion (h : FailsExpr n p ts t f) (hf : f ≠ .tooDeep nestingLimit) :
    ∃ (g : Grouped) (us : List Token), g.tokens = ts ++ us ∧ g.WellShaped ∧
      (∀ q ∈ g.top?, p < q) ∧ g.levels ≤ n ∧ (ts = [] → g.head.kind = .identifier) := by
  have hname : ∀ {n : Nat} {p : Power}, ∃ (g : Grouped) (us : List Token), g.tokens = [] ++ us ∧
      g.WellShaped ∧ (∀ q ∈ g.top?, p < q) ∧ g.levels ≤ n + 1 ∧
      (([] : List Token) = [] → g.head.kind = .identifier) := by
    intro n p
    exact ⟨.atom (.unplaced .identifier "x") _ rfl, _, rfl, trivial, by simp [Grouped.top?],
      Nat.le_add_left 1 n, fun _ => rfl⟩
  induction h with
  | level => exact absurd rfl hf
  | operand hk => exact hname
  | number hk hv => exact hname
  | @unary n p u t ts f op hk _ ih =>
    obtain ⟨g, us, hg, hw, ht, hl, -⟩ := ih hf
    have htop : g.top? = none := Grouped.top?_eq_none_iff.mpr ht
    exact ⟨.unary u op hk g, us, by simp [Grouped.tokens, hg], ⟨hw, htop⟩, by simp [Grouped.top?],
      Nat.succ_le_succ hl, by simp⟩
  | @group n p o t ts f hk _ ih =>
    obtain ⟨g, us, hg, hw, -, hl, -⟩ := ih hf
    exact ⟨.group o hk g (.unplaced .closeParen ")") rfl, us ++ [.unplaced .closeParen ")"],
      by simp [Grouped.tokens, hg], hw, by simp [Grouped.top?], Nat.succ_le_succ hl, by simp⟩
  | @closing n p o t g hk hg hl _ _ =>
    exact ⟨.group o hk g (.unplaced .closeParen ")") rfl, [.unplaced .closeParen ")"],
      by simp [Grouped.tokens], hg, by simp [Grouped.top?], Nat.succ_le_succ hl, by simp⟩
  | @right n p l u t ts f op hg hl hlt hk hp _ ih =>
    obtain ⟨r, us, hr, hw, ht, hlr, -⟩ := ih hf
    refine ⟨.binary l u op hk r, us, by simp [Grouped.tokens, hr], ⟨hg, hw, hlt, ht⟩, ?_,
      Nat.max_le.mpr ⟨hl, Nat.succ_le_succ hlr⟩, by simp⟩
    intro q hq
    obtain rfl : op.power = q := Option.some.inj hq
    exact hp

theorem kind_of_mem (h : FailsExpr n p ts t f) : ∀ u ∈ ts, u.kind ≠ .eof ∧ u.kind ≠ .semicolon := by
  have hgrouped : ∀ (g : Grouped), ∀ u ∈ g.tokens, u.kind ≠ .eof ∧ u.kind ≠ .semicolon :=
    fun g u hu => ⟨(g.kind_of_mem_tokens hu).1, (g.kind_of_mem_tokens hu).2.1⟩
  induction h with
  | level | operand | number => simp
  | unary op hk _ ih =>
    refine List.forall_mem_cons.mpr ⟨?_, ih⟩
    rw [hk]
    cases op <;> decide
  | group hk _ ih => exact List.forall_mem_cons.mpr ⟨by simp [hk], ih⟩
  | closing hk => exact List.forall_mem_cons.mpr ⟨by simp [hk], hgrouped _⟩
  | right op _ _ _ hk _ _ ih =>
    refine List.forall_mem_append.mpr ⟨hgrouped _, List.forall_mem_cons.mpr ⟨?_, ih⟩⟩
    rw [hk]
    cases op <;> decide

end FailsExpr

namespace FailsValue

variable {α : Type} {k : TokenKind}

theorem exists_run {r : Expr → α} (h : FailsValue n k ts t f) (hw : w.Starts (ts ++ [t])) :
    ∃ v, (standard.readExpr n .lowest >>= fun e => expect k >>= fun _ => pure (r e)).run w =
      (.error ⟨f, t.span.start⟩, v) := by
  cases h with
  | inside h =>
    obtain ⟨v, hv⟩ := h.exists_run hw
    exact ⟨v, run_bind_of_error hv _⟩
  | behind hg hl hs hk => exact FailsExpr.run_value_of_behind hg hl hs hk hw

theorem exists_completion (h : FailsValue n k ts t f) (hf : f ≠ .tooDeep nestingLimit) (c : Token) :
    ∃ (g : Grouped) (us : List Token), g.tokens ++ [c] = ts ++ us ∧ g.WellShaped ∧
      g.levels ≤ n := by
  cases h with
  | inside h =>
    obtain ⟨g, us, hg, hw, -, hl, -⟩ := h.exists_completion hf
    exact ⟨g, us ++ [c], by simp [hg], hw, hl⟩
  | @behind g t hg hl => exact ⟨g, [c], rfl, hg, hl⟩

theorem kind_of_mem (h : FailsValue n k ts t f) :
    ∀ u ∈ ts, u.kind ≠ .eof ∧ u.kind ≠ .semicolon := by
  cases h with
  | inside h => exact h.kind_of_mem
  | behind => exact fun u hu =>
      ⟨(Grouped.kind_of_mem_tokens hu).1, (Grouped.kind_of_mem_tokens hu).2.1⟩

end FailsValue

/-- With `n` levels left, a statement starts with `ts`, and reading it fails at the token `t`. -/
inductive FailsStmt (n : Nat) : List Token → Token → Fault → Prop
  | name {k t : Token} : k.kind = .kwLet → t.kind ≠ .identifier →
      FailsStmt n [k] t (.unexpected .identifier t.kind)
  | equals {k a t : Token} : k.kind = .kwLet → a.kind = .identifier → t.kind ≠ .assign →
      FailsStmt n [k, a] t (.unexpected .assign t.kind)
  | binding {k a q t : Token} {ts : List Token} {f : Fault} : k.kind = .kwLet →
      a.kind = .identifier → q.kind = .assign → FailsValue n .semicolon ts t f →
      FailsStmt n (k :: a :: q :: ts) t f
  | ret {k t : Token} {ts : List Token} {f : Fault} : k.kind = .kwReturn →
      FailsValue n .semicolon ts t f → FailsStmt n (k :: ts) t f
  | expr {t : Token} {ts : List Token} {f : Fault} :
      standard.statement (ts.headD t).kind = none → FailsExpr n .lowest ts t f →
      FailsStmt n ts t f

theorem Window.Starts.current_eq_headD (h : w.Starts (ts ++ [t])) : w.current = ts.headD t := by
  cases ts with
  | nil => exact (starts_cons_iff.mp h).1
  | cons u ts => exact (starts_cons_iff.mp h).1

theorem Grammar.standard_statement_eq_none_iff {k : TokenKind} :
    standard.statement k = none ↔ k ≠ .kwLet ∧ k ≠ .kwReturn := by
  cases k <;> simp [standard]

namespace FailsStmt

theorem exists_of_readBinding (hk : w.current.kind = .kwLet)
    (h : (StmtRule.readBinding (standard.readExpr n)).run w = (.error d, v)) :
    ∃ ts t, FailsStmt n ts t d.fault ∧ w.FailsBehind ts t d v := by
  by_cases hn : w.peek.kind = .identifier
  · by_cases ha : w.advance.peek.kind = .assign
    · rw [StmtRule.run_readBinding_of_kinds hn ha] at h
      obtain ⟨ts, t, hf, hw⟩ :=
        FailsExpr.exists_of_value (FailsExpr.sound_readExpr n) (Grouped.sound_readExpr n) h
      exact ⟨_, t, .binding hk hn ha hf, hw.cons.cons.cons⟩
    · unfold StmtRule.readBinding at h
      rw [run_current_bind, run_bind_of_ok (run_expect_eq_ok_iff.mpr ⟨hn, rfl, rfl⟩),
        run_bind_of_error (run_expect_eq_error_iff.mpr ⟨ha, rfl, rfl⟩)] at h
      cases h
      exact ⟨_, _, .equals hk hn ha, (Window.covers_current w).snoc.failsBehind_peek⟩
  · unfold StmtRule.readBinding at h
    rw [run_current_bind,
      run_bind_of_error (run_expect_eq_error_iff.mpr ⟨hn, rfl, rfl⟩)] at h
    cases h
    exact ⟨_, _, .name hk hn, (Window.covers_current _).failsBehind_peek⟩

theorem exists_of_readRet (hk : w.current.kind = .kwReturn)
    (h : (StmtRule.readRet (standard.readExpr n)).run w = (.error d, v)) :
    ∃ ts t, FailsStmt n ts t d.fault ∧ w.FailsBehind ts t d v := by
  unfold StmtRule.readRet at h
  rw [run_current_bind, run_advance_bind] at h
  obtain ⟨ts, t, hf, hw⟩ :=
    FailsExpr.exists_of_value (FailsExpr.sound_readExpr n) (Grouped.sound_readExpr n) h
  exact ⟨_, t, .ret hk hf, hw.cons⟩

theorem exists_of_readExprStmt (hk : standard.statement w.current.kind = none)
    (h : (StmtRule.readExprStmt (standard.readExpr n)).run w = (.error d, v)) :
    ∃ ts t, FailsStmt n ts t d.fault ∧ w.FailsBehind ts t d v := by
  unfold StmtRule.readExprStmt at h
  rw [run_current_bind, run_bind_eq_error_iff] at h
  rcases h with h | ⟨e, u, -, h⟩
  · obtain ⟨ts, t, hf, hw⟩ := FailsExpr.sound_readExpr n _ _ _ _ h
    exact ⟨ts, t, .expr (hw.starts.current_eq_headD ▸ hk) hf, hw⟩
  · rw [run_peek_bind] at h
    by_cases hs : u.peek.kind = .semicolon
    · rw [if_pos hs] at h
      cases h
    · rw [if_neg hs] at h
      cases h

theorem exists_of_readStmt (h : (standard.readStmt (standard.readExpr n)).run w = (.error d, v)) :
    ∃ ts t, FailsStmt n ts t d.fault ∧ w.FailsBehind ts t d v := by
  rw [run_readStmt] at h
  by_cases hl : w.current.kind = .kwLet
  · rw [hl] at h
    exact exists_of_readBinding hl h
  by_cases hr : w.current.kind = .kwReturn
  · rw [hr] at h
    exact exists_of_readRet hr h
  rw [standard_statement_of_ne hl hr] at h
  exact exists_of_readExprStmt (standard_statement_eq_none_iff.mpr ⟨hl, hr⟩) h

theorem exists_run (h : FailsStmt n ts t f) (hw : w.Starts (ts ++ [t])) :
    ∃ v, (standard.readStmt (standard.readExpr n)).run w = (.error ⟨f, t.span.start⟩, v) := by
  rw [run_readStmt]
  cases h with
  | name hk hn =>
    obtain ⟨rfl, h1⟩ := Window.starts_cons_iff.mp hw
    obtain ⟨rfl, -⟩ := Window.starts_cons_iff.mp h1
    rw [hk]
    exact ⟨w, run_bind_of_error (run_expect_eq_error_iff.mpr ⟨hn, rfl, rfl⟩) _⟩
  | equals hk hn ha =>
    obtain ⟨rfl, h1⟩ := Window.starts_cons_iff.mp hw
    obtain ⟨rfl, h2⟩ := Window.starts_cons_iff.mp h1
    obtain ⟨rfl, -⟩ := Window.starts_cons_iff.mp h2
    rw [hk]
    refine ⟨w.advance, (run_bind_of_ok (run_expect_eq_ok_iff.mpr ⟨hn, rfl, rfl⟩) _).trans ?_⟩
    exact run_bind_of_error (run_expect_eq_error_iff.mpr ⟨ha, rfl, rfl⟩) _
  | binding hk hn ha hf =>
    obtain ⟨rfl, h1⟩ := Window.starts_cons_iff.mp hw
    obtain ⟨rfl, h2⟩ := Window.starts_cons_iff.mp h1
    obtain ⟨rfl, h3⟩ := Window.starts_cons_iff.mp h2
    obtain ⟨v, hv⟩ := hf.exists_run h3
    rw [hk]
    exact ⟨v, (StmtRule.run_readBinding_of_kinds hn ha).trans hv⟩
  | ret hk hf =>
    obtain ⟨rfl, h1⟩ := Window.starts_cons_iff.mp hw
    obtain ⟨v, hv⟩ := hf.exists_run h1
    rw [hk]
    exact ⟨v, hv⟩
  | expr hk hf =>
    obtain ⟨v, hv⟩ := hf.exists_run hw
    rw [hw.current_eq_headD, hk]
    exact ⟨v, run_bind_of_error hv _⟩

/-- What comes before the token at fault is the start of a statement that is read, unless the levels
ran out. -/
theorem exists_completion (h : FailsStmt n ts t f) (hf : f ≠ .tooDeep nestingLimit) (hn : 0 < n) :
    ∃ (y : Sentence) (us : List Token), y.tokens = ts ++ us ∧ y.value.WellShaped ∧
      y.value.levels ≤ n ∧ (∀ k, y.StopsBefore k) ∧
      (ts = [] → y.head.kind = .identifier) := by
  let semicolon : Token := .unplaced .semicolon ";"
  let equals : Token := .unplaced .assign "="
  let name : Token := .unplaced .identifier "x"
  let g : Grouped := .atom name (.ident ⟨name, "x"⟩) rfl
  cases h with
  | @name k t hk _ =>
    exact ⟨.binding k name equals g semicolon hk rfl rfl rfl, [name, equals, name, semicolon],
      rfl, trivial, hn, fun _ => trivial, by simp⟩
  | @equals k a t hk ha _ =>
    exact ⟨.binding k a equals g semicolon hk ha rfl rfl, [equals, name, semicolon], rfl, trivial,
      hn, fun _ => trivial, by simp⟩
  | @binding k a q t ts f hk ha hq hv =>
    obtain ⟨g, us, hg, hw, hl⟩ := hv.exists_completion hf semicolon
    exact ⟨.binding k a q g semicolon hk ha hq rfl, us, by simp [Sentence.tokens, hg], hw, hl,
      fun _ => trivial, by simp⟩
  | @ret k t ts f hk hv =>
    obtain ⟨g, us, hg, hw, hl⟩ := hv.exists_completion hf semicolon
    exact ⟨.ret k g semicolon hk rfl, us, by simp [Sentence.tokens, hg], hw, hl,
      fun _ => trivial, by simp⟩
  | expr hk hv =>
    obtain ⟨g, us, hg, hw, -, hl, hhead⟩ := hv.exists_completion hf
    exact ⟨.expr g (some semicolon) (by simp [semicolon, Token.unplaced]), us ++ [semicolon],
      by simp [Sentence.tokens, hg], hw, hl, fun _ => trivial, hhead⟩

theorem kind_of_mem (h : FailsStmt n ts t f) : ∀ u ∈ ts, u.kind ≠ .eof ∧ u.kind ≠ .semicolon := by
  cases h with
  | name hk => simp [hk]
  | equals hk ha => simp [hk, ha]
  | binding hk ha hq hf => simpa [hk, ha, hq] using hf.kind_of_mem
  | ret hk hf => simpa [hk] using hf.kind_of_mem
  | expr _ hf => exact hf.kind_of_mem

end FailsStmt
end MonkeySyntax
