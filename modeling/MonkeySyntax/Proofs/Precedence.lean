import Mathlib.Logic.ExistsUnique
import MonkeySyntax.Proofs.Powers
import MonkeySyntax.Proofs.Unambiguous

/-! The standard grammar reads an expression exactly where a well shaped tree is written, and what
it gives is that tree without its parentheses. -/
namespace MonkeySyntax

open Grammar Step

variable {σ : Type} [TokenSource σ] {w u v : Window σ}

namespace Grouped

/-- The tree is written from the current token of `w` to that of `v`, its operators bind tighter
than `p`, and no such operator follows. -/
structure Reading (g : Grouped) (p : Power) (w v : Window σ) : Prop where
  shaped : g.WellShaped
  covers : w.Covers g.tokens v
  tighter : ∀ q ∈ g.top?, p < q
  stops : standard.continuation? p v.peek.kind = none

theorem Reading.current_eq_head {g : Grouped} {p : Power} (h : g.Reading p w v) :
    w.current = g.head := by
  obtain ⟨ts, hts⟩ := g.tokens_eq_head_cons
  exact (hts ▸ h.covers).current_eq

/-- Whatever `nested` reads is a tree of at most `n` levels. -/
def Sound (nested : Power → Step σ Expr) (n : Nat) : Prop :=
  ∀ p w e v, (nested p).run w = (.ok e, v) →
    ∃ g : Grouped, g.Reading p w v ∧ g.expr = e ∧ g.levels ≤ n

variable {p : Power}

theorem power?_standard (g : Grouped) : g.power? standard = g.top? := by
  cases g with
  | binary l t op h r =>
    rw [power?, h, standard_power_kind]
    rfl
  | _ => rfl

theorem respects_standard_iff {g : Grouped} : g.Respects standard ↔ g.WellShaped := by
  induction g with
  | atom t e h => exact Iff.rfl
  | unary t op h x ih =>
    rw [Respects, WellShaped, ih, power?_standard, top?_eq_none_iff]
  | binary l t op h r hl hr =>
    have hedge : op.power ≤ .unary := by cases op <;> decide
    rw [Respects, WellShaped, hl, hr, power?_standard, power?_standard, h, standard_power_kind]
    simp [hedge]
  | group o ho x c hc ih => exact ih

theorem Growing.reading {g : Grouped} (h : g.Growing standard p w v)
    (hs : standard.continuation? p v.peek.kind = none) : g.Reading p w v :=
  ⟨respects_standard_iff.mp h.respects, h.covers, power?_standard g ▸ h.tighter, hs⟩

theorem sound_readExpr (n : Nat) : Sound (σ := σ) (standard.readExpr n) n := by
  intro p w e v h
  obtain ⟨g, hg, hs, rfl, hl⟩ := grows_readExpr rfl n p w e v h
  exact ⟨g, hg.reading hs, rfl, hl⟩

/-- Reading with `n` levels left gives `result`, or it fails where the levels run out. -/
structure ReadsAs (g : Grouped) (n : Nat) (p : Power) (w : Window σ)
    (result : Except Diagnostic Expr × Window σ) : Prop where
  run_eq : g.blocked? n = none → (standard.readExpr n p).run w = result
  tooDeep : ∀ t, g.blocked? n = some t →
    ∃ v, (standard.readExpr n p).run w = (.error ⟨.tooDeep nestingLimit, t.span.start⟩, v)

/-- Reading a tree comes down to folding the operators that follow it into the tree. -/
def Complete (σ : Type) [TokenSource σ] (g : Grouped) : Prop :=
  ∀ (n : Nat) (p : Power) (w v : Window σ), g.WellShaped → w.Covers g.tokens v →
    (∀ q ∈ g.top?, p < q) → (∀ q ∈ g.top?, standard.continuation? q v.peek.kind = none) →
    g.ReadsAs (n + 1) p w (standard.foldOperators (standard.readExpr n) p g.expr v)

theorem Complete.readsAs {g : Grouped} (hg : Complete σ g) (h : g.Reading p w v) (n : Nat) :
    g.ReadsAs n p w (.ok g.expr, v) := by
  cases n with
  | zero =>
    have hb : g.blocked? 0 = some w.current := by rw [blocked?, h.current_eq_head]
    constructor
    · intro hn
      rw [hb] at hn
      cases hn
    · intro t ht
      obtain rfl := Option.some.inj (hb.symm.trans ht)
      exact ⟨w, rfl⟩
  | succ n =>
    have hs : ∀ q ∈ g.top?, standard.continuation? q v.peek.kind = none := fun q hq =>
      continuation?_eq_none_of_le (Nat.le_of_lt (h.tighter q hq)) h.stops
    have hr := hg n p w v h.shaped h.covers h.tighter hs
    rwa [foldOperators_of_none h.stops] at hr

private theorem readsAs_of_operand {g x : Grouped} {q : Power} {u : Window σ}
    (hb : g.blocked? (n + 1) = x.blocked? n)
    (hk : (∃ op : UnaryOp, w.current.kind = op.kind ∧ q = .unary) ∨
      (w.current.kind = .openParen ∧ q = .lowest))
    (hx : x.ReadsAs n q w.advance (.ok x.expr, u))
    (hok : (standard.readExpr n q).run w.advance = (.ok x.expr, u) →
      (standard.readOperand (standard.readExpr n)).run w = (.ok g.expr, v)) :
    g.ReadsAs (n + 1) p w (standard.foldOperators (standard.readExpr n) p g.expr v) := by
  constructor
  · intro hn
    exact run_bind_of_ok (hok (hx.run_eq (hb.symm.trans hn))) _
  · intro t ht
    obtain ⟨z, hz⟩ := hx.tooDeep t (hb.symm.trans ht)
    exact ⟨z, run_bind_of_error (run_standard_readOperand_of_error hk hz) _⟩

theorem complete_atom (t : Token) (e : Expr) (h : Expr.ofToken? t = some e) :
    Complete σ (atom t e h) := by
  intro n p w v _ hc _ _
  obtain ⟨rfl, rfl⟩ := hc.eq_of_singleton
  constructor
  · intro _
    exact run_bind_of_ok (run_standard_readOperand_eq_ok_iff.mpr (.inl ⟨h, rfl⟩)) _
  · intro t ht
    cases ht

theorem complete_unary {x : Grouped} (t : Token) (op : UnaryOp) (h : t.kind = op.kind)
    (hx : Complete σ x) : Complete σ (unary t op h x) := by
  rintro n p w v ⟨hw, htop⟩ hc - -
  obtain rfl := hc.current_eq
  have hread : x.Reading .unary w.advance v :=
    ⟨hw, hc.tail x.tokens_ne_nil, by simp [htop], standard_continuation?_unary _⟩
  apply readsAs_of_operand rfl (.inl ⟨op, h, rfl⟩) (hx.readsAs hread n)
  intro hr
  exact run_standard_readOperand_eq_ok_iff.mpr (.inr (.inl ⟨op, x.expr, h, hr, rfl⟩))

theorem complete_group {x : Grouped} (o c : Token) (ho : o.kind = .openParen)
    (hcl : c.kind = .closeParen) (hx : Complete σ x) : Complete σ (group o ho x c hcl) := by
  intro n p w v hw hc _ _
  obtain rfl := hc.current_eq
  have htail : w.advance.Covers (x.tokens ++ [c]) v := hc.tail (by simp)
  obtain ⟨u, hu, rfl, rfl⟩ := htail.init x.tokens_ne_nil
  have hread : x.Reading .lowest w.advance u :=
    ⟨hw, hu, x.lowest_lt_top, by rw [hcl]; rfl⟩
  apply readsAs_of_operand rfl (.inr ⟨ho, rfl⟩) (hx.readsAs hread n)
  intro hr
  exact run_standard_readOperand_eq_ok_iff.mpr (.inr (.inr ⟨ho, u, hr, hcl, rfl⟩))

theorem complete_binary {l r : Grouped} (t : Token) (op : BinaryOp) (h : t.kind = op.kind)
    (hl : Complete σ l) (hr : Complete σ r) : Complete σ (binary l t op h r) := by
  rintro n p w v ⟨hwl, hwr, hlt, hrt⟩ hc hp hs
  obtain ⟨u, hu, huv⟩ := hc.split l.tokens_ne_nil (by simp)
  obtain rfl : u.peek = t := huv.current_eq
  have hlp : ∀ q ∈ l.top?, p < q := fun q hq => Nat.lt_of_lt_of_le (hp op.power rfl) (hlt q hq)
  have hls : ∀ q ∈ l.top?, standard.continuation? q u.peek.kind = none := by
    intro q hq
    rw [standard_continuation?_eq_none_iff]
    intro o ho
    obtain rfl := BinaryOp.kind_injective (h.symm.trans ho)
    exact Nat.not_lt.mpr (hlt q hq)
  have hleft := hl n p w u hwl hu hlp hls
  have hright := hr.readsAs ⟨hwr, huv.tail r.tokens_ne_nil, hrt, hs op.power rfl⟩ n
  have hcont : standard.continuation? p u.peek.kind = some op.power :=
    standard_continuation?_eq_some_iff.mpr ⟨op, h, rfl, hp op.power rfl⟩
  constructor
  · intro hn
    obtain ⟨hnl, hnr⟩ := Option.or_eq_none_iff.mp hn
    have hstep : (readBinary (standard.readExpr n) l.expr op.power).run u.advance =
        (.ok (.binary u.peek op l.expr r.expr), v) :=
      run_readBinary_eq_ok_iff.mpr ⟨op, r.expr, h, hright.run_eq hnr, rfl⟩
    exact (hleft.run_eq hnl).trans (foldOperators_of_ok hcont hstep)
  · intro t ht
    rcases Option.or_eq_some_iff.mp ht with ht | ⟨hnl, ht⟩
    · exact hleft.tooDeep t ht
    · obtain ⟨z, hz⟩ := hright.tooDeep t ht
      have hstep : (readBinary (standard.readExpr n) l.expr op.power).run u.advance =
          (.error ⟨.tooDeep nestingLimit, t.span.start⟩, z) := run_readBinary_of_error h hz
      exact ⟨z, (hleft.run_eq hnl).trans (foldOperators_of_error hcont hstep)⟩

theorem complete (g : Grouped) : Complete σ g := by
  induction g with
  | atom t e h => exact complete_atom t e h
  | unary t op h x hx => exact complete_unary t op h hx
  | binary l t op h r hl hr => exact complete_binary t op h hl hr
  | group o ho x c hc hx => exact complete_group o c ho hc hx

end Grouped

/-- Reading an expression succeeds exactly on well shaped trees for which the levels suffice. -/
theorem run_readExpr_eq_ok_iff {n : Nat} {p : Power} {e : Expr} :
    (standard.readExpr n p).run w = (.ok e, v) ↔
      ∃ g : Grouped, g.Reading p w v ∧ g.expr = e ∧ g.levels ≤ n := by
  constructor
  · exact Grouped.sound_readExpr n p w e v
  · rintro ⟨g, hg, rfl, hn⟩
    exact (g.complete.readsAs hg n).run_eq (Grouped.blocked?_eq_none_iff.mpr hn)

theorem run_readExpr_of_lt_levels {n : Nat} {p : Power} {g : Grouped} (hg : g.Reading p w v)
    (hn : n < g.levels) : ∃ d u, (standard.readExpr n p).run w = (.error d, u) ∧
      d.fault = .tooDeep nestingLimit := by
  cases hb : g.blocked? n with
  | none => exact absurd (Grouped.blocked?_eq_none_iff.mp hb) (Nat.not_le.mpr hn)
  | some t =>
    obtain ⟨u, hu⟩ := (g.complete.readsAs hg n).tooDeep t hb
    exact ⟨_, u, hu, rfl⟩

theorem standard_stops_iff {p : Power} {k : TokenKind} :
    standard.continuation? p k = none ↔ ¬ ∃ op : BinaryOp, k = op.kind ∧ p < op.power := by
  rw [standard_continuation?_eq_none_iff]
  simp only [not_exists, not_and]

/-- What a parser with the standard grammar reads as an expression is the one well shaped tree
that is written there, and it goes as far as operators follow. Wherever such a tree is written, it
is read, unless it needs more levels than there are. -/
theorem Parser.expr_exact (q : Power) (p : Parser σ) (hp : p.grammar = .standard) :
    (∀ e p', p.expr q = (.ok e, p') →
      (∃! g : Grouped, g.WellShaped ∧ p.window.Covers g.tokens p'.window ∧
        (∀ r ∈ g.top?, q < r) ∧ g.expr = e) ∧
      ¬ ∃ op : BinaryOp, p'.peek.kind = op.kind ∧ q < op.power) ∧
    ∀ (g : Grouped) (v : Window σ), g.WellShaped → p.window.Covers g.tokens v →
      (∀ r ∈ g.top?, q < r) → (¬ ∃ op : BinaryOp, v.peek.kind = op.kind ∧ q < op.power) →
      (p.depth + g.levels ≤ nestingLimit → p.expr q = (.ok g.expr, { p with window := v })) ∧
      (nestingLimit < p.depth + g.levels →
        ∃ d p', p.expr q = (.error d, p') ∧ d.fault = .tooDeep nestingLimit) := by
  have hrun : p.exprStep q = standard.readExpr (nestingLimit - p.depth) q := by
    rw [exprStep, hp]
  constructor
  · intro e p' h
    obtain ⟨he, rfl⟩ := Prod.mk.inj h
    have hr : (standard.readExpr (nestingLimit - p.depth) q).run p.window =
        (.ok e, ((p.exprStep q).run p.window).2) := by
      rw [← hrun, ← he]
    obtain ⟨g, hg, rfl, -⟩ := run_readExpr_eq_ok_iff.mp hr
    refine ⟨⟨g, ⟨hg.shaped, hg.covers, hg.tighter, rfl⟩, ?_⟩, standard_stops_iff.mp hg.stops⟩
    rintro h ⟨hw, hc, -⟩
    exact Grouped.tokens_injective hw hg.shaped (hc.tokens_eq hg.covers)
  · intro g v hw hc ht hx
    have hg : g.Reading q p.window v := ⟨hw, hc, ht, standard_stops_iff.mpr hx⟩
    have hpos := g.levels_pos
    constructor
    · intro hl
      have hlev : g.levels ≤ nestingLimit - p.depth := by omega
      have hr := run_readExpr_eq_ok_iff.mpr ⟨g, hg, rfl, hlev⟩
      rw [expr, run, hrun, hr]
    · intro hl
      have hlev : nestingLimit - p.depth < g.levels := by omega
      obtain ⟨d, u, hr, hd⟩ := run_readExpr_of_lt_levels hg hlev
      exact ⟨d, { p with window := u }, by rw [expr, run, hrun, hr], hd⟩

/-- In `a - b * c;` the product is read first. -/
theorem Parser.expr_exact_difference :
    let name (s : String) : Token := .unplaced .identifier s
    let minus : Token := .unplaced .minus "-"
    let times : Token := .unplaced .asterisk "*"
    let p := Parser.ofSource (Replay.ofList
      [name "a", minus, name "b", times, name "c", .unplaced .semicolon ";"])
    p.expr .lowest = (.ok (.binary minus .sub (.ident ⟨name "a", "a"⟩)
      (.binary times .mul (.ident ⟨name "b", "b"⟩) (.ident ⟨name "c", "c"⟩))),
      { p with window := p.window.after 4 }) := by
  intro name minus times p
  let atom (s : String) : Grouped := .atom (name s) (.ident ⟨name s, s⟩) rfl
  let g : Grouped := .binary (atom "a") minus .sub rfl
    (.binary (atom "b") times .mul rfl (atom "c"))
  have hw : g.WellShaped := by simp [g, atom, Grouped.WellShaped, Grouped.top?]; decide
  have ht : ∀ r ∈ g.top?, Power.lowest < r := g.lowest_lt_top
  have hx : ¬ ∃ op : BinaryOp,
      (p.window.after 4).peek.kind = op.kind ∧ Power.lowest < op.power := by
    rintro ⟨op, ho, -⟩
    cases op <;> cases ho
  exact ((Parser.expr_exact .lowest p rfl).2 g (p.window.after 4) hw ⟨4, rfl, rfl⟩ ht hx).1
    (by decide)

end MonkeySyntax
