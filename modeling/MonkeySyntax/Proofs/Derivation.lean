import MonkeySyntax.Proofs.Sentence

/-! The grammar of programs without powers. It is ambiguous, but each of its expressions has a
well shaped reading, and each of its programs can be cut into statements that none of the next
ones extends. So reading as far as possible never loses a program. -/
namespace MonkeySyntax

open Grammar

/-- Expressions: names, truth values, integers in range, and what operators and parentheses make
of them. -/
inductive DerivesExpr : List Token → Prop
  | name {t : Token} : t.kind = .identifier → DerivesExpr [t]
  | truth {t : Token} : t.kind = .kwTrue ∨ t.kind = .kwFalse → DerivesExpr [t]
  | number {t : Token} : t.kind = .integer → (Numeral.value? t.literal).isSome → DerivesExpr [t]
  | unary {t : Token} {ts : List Token} (op : UnaryOp) : t.kind = op.kind → DerivesExpr ts →
      DerivesExpr (t :: ts)
  | group {o c : Token} {ts : List Token} : o.kind = .openParen → DerivesExpr ts →
      c.kind = .closeParen → DerivesExpr (o :: (ts ++ [c]))
  | binary {t : Token} {ls rs : List Token} (op : BinaryOp) : DerivesExpr ls → t.kind = op.kind →
      DerivesExpr rs → DerivesExpr (ls ++ t :: rs)

/-- Statements. Only that of an expression may lack its semicolon. -/
inductive DerivesStmt : List Token → Prop
  | binding {k a q s : Token} {ts : List Token} : k.kind = .kwLet → a.kind = .identifier →
      q.kind = .assign → DerivesExpr ts → s.kind = .semicolon →
      DerivesStmt (k :: a :: q :: (ts ++ [s]))
  | ret {k s : Token} {ts : List Token} : k.kind = .kwReturn → DerivesExpr ts →
      s.kind = .semicolon → DerivesStmt (k :: (ts ++ [s]))
  | terminated {s : Token} {ts : List Token} : DerivesExpr ts → s.kind = .semicolon →
      DerivesStmt (ts ++ [s])
  | bare {ts : List Token} : DerivesExpr ts → DerivesStmt ts

inductive DerivesProgram : List Token → Prop
  | nil : DerivesProgram []
  | cons {ss ps : List Token} : DerivesStmt ss → DerivesProgram ps → DerivesProgram (ss ++ ps)

theorem derivesExpr_of_ofToken? {t : Token} {e : Expr} (h : Expr.ofToken? t = some e) :
    DerivesExpr [t] := by
  cases Expr.ofToken?_eq_some_iff.mp h with
  | name hk => exact .name hk
  | number hk hv => exact .number hk (by simp [hv])
  | truth b hk =>
    cases b
    · exact .truth (.inr hk)
    · exact .truth (.inl hk)

theorem Grouped.derives (g : Grouped) : DerivesExpr g.tokens := by
  induction g with
  | atom t e h => exact derivesExpr_of_ofToken? h
  | unary t op h x ih => exact .unary op h ih
  | binary l t op h r hl hr => exact .binary op hl h hr
  | group o ho x c hc ih => exact .group ho ih hc

theorem Sentence.derives (x : Sentence) : DerivesStmt x.tokens := by
  cases x with
  | binding k a q g s hk ha hq hs => exact .binding hk ha hq g.derives hs
  | ret k g s hk hs => exact .ret hk g.derives hs
  | expr g s hs =>
    cases s with
    | none => simpa [tokens] using DerivesStmt.bare g.derives
    | some s => exact .terminated g.derives (hs s rfl)

theorem Sentence.derives_row (xs : List Sentence) : DerivesProgram (xs.flatMap tokens) := by
  induction xs with
  | nil => exact .nil
  | cons x xs ih => exact .cons x.derives ih

namespace Grouped

variable {t : Token} {op : BinaryOp} {ht : t.kind = op.kind} {g o : Grouped}

/-- Adds an operator and its right operand at the end: below every operator that binds weaker. -/
def push (t : Token) (op : BinaryOp) (ht : t.kind = op.kind) (o : Grouped) : Grouped → Grouped
  | binary l u p hu r =>
    if p.power < op.power then binary l u p hu (push t op ht o r)
    else binary (binary l u p hu r) t op ht o
  | g => binary g t op ht o

/-- Joins two trees by an operator, one operand of the second at a time. -/
def join (g : Grouped) (t : Token) (op : BinaryOp) (ht : t.kind = op.kind) : Grouped → Grouped
  | binary l u p hu r => join (join g t op ht l) u p hu r
  | o => push t op ht o g

def pushUnary (t : Token) (op : UnaryOp) (ht : t.kind = op.kind) : Grouped → Grouped
  | binary l u p hu r => binary (pushUnary t op ht l) u p hu r
  | g => unary t op ht g

theorem tokens_push (g : Grouped) : (push t op ht o g).tokens = g.tokens ++ t :: o.tokens := by
  induction g with
  | binary l u p hu r hl hr =>
    unfold push
    split
    · simp [tokens, hr]
    · rfl
  | _ => rfl

theorem top_push {q : Power} (h : q ∈ (push t op ht o g).top?) : q = op.power ∨ q ∈ g.top? := by
  unfold push at h
  split at h
  · split at h
    · exact .inr h
    · exact .inl (Option.some.inj h).symm
  · exact .inl (Option.some.inj h).symm

theorem wellShaped_push (hg : g.WellShaped) (ho : o.WellShaped) (htop : o.top? = none) :
    (push t op ht o g).WellShaped := by
  induction g with
  | binary l u p hu r hl hr =>
    obtain ⟨hwl, hwr, hlp, hrp⟩ := id hg
    unfold push
    split
    · next hlt =>
      refine ⟨hwl, hr hwr, hlp, ?_⟩
      intro q hq
      rcases top_push hq with rfl | hq
      · exact hlt
      · exact hrp q hq
    · next hlt =>
      refine ⟨hg, ho, ?_, by simp [htop]⟩
      intro q hq
      obtain rfl : p.power = q := Option.some.inj hq
      exact Nat.not_lt.mp hlt
  | _ => exact ⟨hg, ho, by simp [top?], by simp [htop]⟩

theorem tokens_join (g h : Grouped) (t : Token) (op : BinaryOp) (ht : t.kind = op.kind) :
    (join g t op ht h).tokens = g.tokens ++ t :: h.tokens := by
  induction h generalizing g t op with
  | binary l u p hu r hl hr => simp [join, tokens, hl, hr]
  | _ => exact tokens_push g

theorem wellShaped_join {h : Grouped} (hg : g.WellShaped) (hh : h.WellShaped) :
    (join g t op ht h).WellShaped := by
  induction h generalizing g t op with
  | binary l u p hu r hl hr => exact hr (hl hg hh.1) hh.2.1
  | _ => exact wellShaped_push hg hh rfl

theorem tokens_pushUnary (t : Token) (op : UnaryOp) (ht : t.kind = op.kind) (g : Grouped) :
    (pushUnary t op ht g).tokens = t :: g.tokens := by
  induction g with
  | binary l u p hu r hl hr => simp [pushUnary, tokens, hl]
  | _ => rfl

theorem wellShaped_pushUnary {t : Token} {op : UnaryOp} {ht : t.kind = op.kind} {g : Grouped}
    (hg : g.WellShaped) : (pushUnary t op ht g).WellShaped := by
  induction g with
  | binary l u p hu r hl hr =>
    obtain ⟨hwl, hwr, hlp, hrp⟩ := hg
    have htop : (pushUnary t op ht l).top? = l.top? := by cases l <;> rfl
    exact ⟨hl hwl, hwr, htop ▸ hlp, hrp⟩
  | _ => exact ⟨hg, rfl⟩

end Grouped

theorem DerivesExpr.exists_wellShaped {ts : List Token} (h : DerivesExpr ts) :
    ∃ g : Grouped, g.WellShaped ∧ g.tokens = ts := by
  induction h with
  | name hk => exact ⟨.atom _ _ (Expr.ofToken?_eq_some_iff.mpr (.name hk)), trivial, rfl⟩
  | truth hk =>
    rcases hk with hk | hk
    · exact ⟨.atom _ _ (Expr.ofToken?_eq_some_iff.mpr (.truth true hk)), trivial, rfl⟩
    · exact ⟨.atom _ _ (Expr.ofToken?_eq_some_iff.mpr (.truth false hk)), trivial, rfl⟩
  | number hk hv =>
    obtain ⟨v, hv⟩ := Option.isSome_iff_exists.mp hv
    exact ⟨.atom _ _ (Expr.ofToken?_eq_some_iff.mpr (.number hk hv)), trivial, rfl⟩
  | unary op hk _ ih =>
    obtain ⟨g, hg, rfl⟩ := ih
    exact ⟨_, Grouped.wellShaped_pushUnary hg, Grouped.tokens_pushUnary _ op hk g⟩
  | group ho _ hc ih =>
    obtain ⟨g, hg, rfl⟩ := ih
    exact ⟨.group _ ho g _ hc, hg, rfl⟩
  | binary op _ hk _ ihl ihr =>
    obtain ⟨l, hl, rfl⟩ := ihl
    obtain ⟨r, hr, rfl⟩ := ihr
    exact ⟨_, Grouped.wellShaped_join hl hr, Grouped.tokens_join l r _ op hk⟩

theorem Grouped.derives_tail {g : Grouped} {op : BinaryOp} {ts : List Token}
    (ho : g.head.kind = op.kind) (hts : g.tokens = g.head :: ts) : DerivesExpr ts := by
  induction g generalizing ts with
  | atom t e h =>
    have hc : (Expr.ofToken? t).isSome := by simp [h]
    have hk : t.kind = op.kind := ho
    cases op <;> simp [Expr.ofToken?, hk, BinaryOp.kind] at hc
  | unary t o h x ih =>
    obtain rfl := (List.cons.inj hts).2
    exact x.derives
  | binary l u p hu r hl hr =>
    obtain ⟨ls, hls⟩ := l.tokens_eq_head_cons
    have hsplit : l.head :: (ls ++ u :: r.tokens) = l.head :: ts := by
      simpa [tokens, head, hls] using hts
    obtain rfl := (List.cons.inj hsplit).2
    exact .binary p (hl ho hls) hu r.derives
  | group o hop x c hc ih =>
    have hk : o.kind = op.kind := ho
    rw [hop] at hk
    cases op <;> cases hk

namespace Sentence

theorem head_kind_ne_semicolon (x : Sentence) : x.head.kind ≠ .semicolon := by
  cases x with
  | binding k a q g s hk => simp [head, hk]
  | ret k g s hk => simp [head, hk]
  | expr g s hs => exact (Grouped.kind_of_mem_tokens g.head_mem_tokens).2.1

/-- Only the statement of an expression starts with a binary operator. -/
theorem exists_of_head_operator {x : Sentence} {op : BinaryOp} (h : x.head.kind = op.kind) :
    ∃ g s hs, x = expr g s hs ∧ g.head.kind = op.kind := by
  cases x with
  | binding k a q g s hk =>
    have hop : op.kind = .kwLet := h.symm.trans hk
    cases op <;> cases hop
  | ret k g s hk =>
    have hop : op.kind = .kwReturn := h.symm.trans hk
    cases op <;> cases hop
  | expr g s hs => exact ⟨g, s, hs, rfl, h⟩

/-- An expression in front of a row either is a statement of its own or goes on into the first
statement of the row. -/
theorem exists_separated_cons {ts : List Token} {xs : List Sentence} (h : DerivesExpr ts)
    (hx : Separated xs) :
    ∃ ys : List Sentence, Separated ys ∧ ys.flatMap tokens = ts ++ xs.flatMap tokens := by
  by_cases hc : standard.continuation? .lowest (firstKind xs) = none
  · obtain ⟨g, hg, rfl⟩ := h.exists_wellShaped
    have hsemi : firstKind xs ≠ .semicolon := by
      cases xs with
      | nil => decide
      | cons x xs => exact x.head_kind_ne_semicolon
    exact ⟨expr g none (by simp) :: xs, ⟨hg, ⟨hsemi, hc⟩, hx⟩, by simp [tokens]⟩
  · obtain ⟨q, hq⟩ := Option.ne_none_iff_exists'.mp hc
    obtain ⟨op, hop, -, -⟩ := standard_continuation?_eq_some_iff.mp hq
    cases xs with
    | nil => cases op <;> cases hop
    | cons x xs =>
      obtain ⟨g, s, hs, rfl, hg⟩ := exists_of_head_operator hop
      obtain ⟨us, hus⟩ := g.tokens_eq_head_cons
      have hjoin : DerivesExpr (ts ++ g.head :: us) := .binary op h hg (g.derives_tail hg hus)
      obtain ⟨g', hg', ht'⟩ := hjoin.exists_wellShaped
      refine ⟨expr g' s hs :: xs, ⟨hg', ?_, hx.2.2⟩, by simp [tokens, ht', hus]⟩
      cases s with
      | none => exact hx.2.1
      | some s => trivial

end Sentence

theorem DerivesProgram.exists_separated {ts : List Token} (h : DerivesProgram ts) :
    ∃ xs : List Sentence, Sentence.Separated xs ∧ xs.flatMap Sentence.tokens = ts := by
  induction h with
  | nil => exact ⟨[], trivial, rfl⟩
  | cons hs _ ih =>
    obtain ⟨xs, hx, rfl⟩ := ih
    cases hs with
    | binding hk ha hq he hsemi =>
      obtain ⟨g, hg, rfl⟩ := he.exists_wellShaped
      exact ⟨.binding _ _ _ g _ hk ha hq hsemi :: xs, ⟨hg, trivial, hx⟩, by simp [Sentence.tokens]⟩
    | ret hk he hsemi =>
      obtain ⟨g, hg, rfl⟩ := he.exists_wellShaped
      exact ⟨.ret _ g _ hk hsemi :: xs, ⟨hg, trivial, hx⟩, by simp [Sentence.tokens]⟩
    | terminated he hsemi =>
      obtain ⟨g, hg, rfl⟩ := he.exists_wellShaped
      exact ⟨.expr g (some _) (by simpa using hsemi) :: xs, ⟨hg, trivial, hx⟩,
        by simp [Sentence.tokens]⟩
    | bare he => exact Sentence.exists_separated_cons he hx

variable {σ : Type} [TokenSource σ]

/-- Unless levels run out, a program is read without a diagnostic exactly if it can be derived. -/
theorem parse_isOk_iff_derives {s : σ} {ts : List Token} {e : Token}
    (hs : TokenSource.Gives s ts e) (hts : ∀ t ∈ ts, t.kind ≠ .eof) (he : e.kind = .eof)
    (hd : ∀ d ∈ (parse s).diagnostics, ∀ n, d.fault ≠ .tooDeep n) :
    (parse s).isOk ↔ DerivesProgram ts := by
  constructor
  · intro hok
    rw [Parsed.isOk_iff, parse_outcomes] at hok
    obtain ⟨xs, -, rfl, -, -⟩ := Sentence.exists_separated hs.shows he hts hok
    exact Sentence.derives_row xs
  · intro hder
    obtain ⟨xs, hx, rfl⟩ := hder.exists_separated
    have hlev : ∀ x ∈ xs, x.value.levels ≤ nestingLimit := by
      intro x hmem
      apply Nat.not_lt.mp
      intro hlt
      obtain ⟨d, herr, hf⟩ := Sentence.exists_tooDeep_of_separated hx hs.shows he ⟨x, hmem, hlt⟩
      exact hd d (Parsed.mem_diagnostics_iff.mpr herr) _ hf
    have hall := Sentence.readAll_of_separated hx hs.shows he hlev
    rw [Parsed.isOk_iff, parse_outcomes, hall]
    intro o ho
    obtain ⟨x, -, rfl⟩ := List.mem_map.mp ho
    exact ⟨x.stmt, rfl⟩

/-- In `a -b` the minus sign continues the first expression, though a program may also end there:
two statements are derived, one is read, and nothing is lost. -/
theorem parse_isOk_iff_derives_difference :
    let a : Token := .unplaced .identifier "a"
    let minus : Token := .unplaced .minus "-"
    let b : Token := .unplaced .identifier "b"
    (parse (Replay.ofList ([a, minus, b] ++ [.endAt .unknown]))).isOk ∧
      DerivesStmt [a] ∧ DerivesStmt [minus, b] := by
  intro a minus b
  have h1 : DerivesStmt [a] := .bare (.name rfl)
  have h2 : DerivesStmt [minus, b] := .bare (.unary .neg rfl (.name rfl))
  have hts : ∀ t ∈ [a, minus, b], t.kind ≠ .eof := by decide
  have hd : (parse (Replay.ofList ([a, minus, b] ++ [.endAt .unknown]))).diagnostics = [] := by
    decide +kernel
  have hder : DerivesProgram ([a] ++ ([minus, b] ++ [])) := .cons h1 (.cons h2 .nil)
  have hnone : ∀ d ∈ (parse (Replay.ofList ([a, minus, b] ++ [.endAt .unknown]))).diagnostics,
      ∀ n, d.fault ≠ .tooDeep n := by
    rw [hd]
    simp
  exact ⟨(parse_isOk_iff_derives (TokenSource.gives_replay hts rfl) hts rfl hnone).mpr hder,
    h1, h2⟩

end MonkeySyntax
