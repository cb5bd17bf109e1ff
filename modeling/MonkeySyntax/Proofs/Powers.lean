import MonkeySyntax.Proofs.Inversion
import MonkeySyntax.Proofs.Stretch

/-! Whatever powers a grammar gives to which kinds of tokens, an expression is grouped by them. Only
the rules for operands are those of the standard grammar here. -/
namespace MonkeySyntax

open Grammar Step

variable {σ : Type} [TokenSource σ] {gr : Grammar} {w u v : Window σ}

namespace Grammar

theorem power_of_continuation? {p q : Power} {k : TokenKind}
    (h : gr.continuation? p k = some q) : gr.power k = q := by
  obtain ⟨-, hk, -⟩ := continuation?_eq_some_iff.mp h
  rw [power, hk]
  rfl

theorem power_le_of_continuation? {p q r : Power} {k : TokenKind}
    (h : gr.continuation? p k = some q) (hr : gr.continuation? r k = none) : gr.power k ≤ r := by
  obtain ⟨hk, -⟩ := continuation?_eq_some_iff.mp h
  exact (continuation?_eq_none_iff.mp hr).resolve_left hk

theorem readOperand_congr {g : Grammar} (h : gr.operand = g.operand) :
    gr.readOperand = g.readOperand (σ := σ) := by
  unfold readOperand
  rw [h]

end Grammar

namespace Grouped

/-- The power that a grammar gives to the operator that stands outside of all parentheses, if the
tree is a binary operation. -/
def power? (gr : Grammar) : Grouped → Option Power
  | binary _ t _ _ _ => some (gr.power t.kind)
  | _ => none

/-- The last operand outside of all parentheses belongs to a unary operator. -/
def EndsUnary : Grouped → Prop
  | unary .. => True
  | binary _ _ _ _ r => r.EndsUnary
  | _ => False

/-- No operand binds weaker than its operator, nor a right one or that of a unary operator as weak.
An operator that binds tighter than the unary ones does not follow one of them. -/
def Respects (gr : Grammar) : Grouped → Prop
  | atom .. => True
  | unary _ _ _ x => x.Respects gr ∧ ∀ q ∈ x.power? gr, Power.unary < q
  | binary l t _ _ r =>
    l.Respects gr ∧ r.Respects gr ∧ (∀ q ∈ l.power? gr, gr.power t.kind ≤ q) ∧
      (∀ q ∈ r.power? gr, gr.power t.kind < q) ∧ (l.EndsUnary → gr.power t.kind ≤ .unary)
  | group _ _ x _ _ => x.Respects gr

/-- The tree is written from the current token of `w` to that of `v`, and its operators bind tighter
than `p`. Its last operand, be it that of a binary or of a unary operator, does not go on with the
token behind it. -/
structure Growing (gr : Grammar) (g : Grouped) (p : Power) (w v : Window σ) : Prop where
  respects : g.Respects gr
  covers : w.Covers g.tokens v
  tighter : ∀ q ∈ g.power? gr, p < q
  stops_top : ∀ q ∈ g.power? gr, gr.continuation? q v.peek.kind = none
  stops_unary : g.EndsUnary → gr.continuation? .unary v.peek.kind = none

theorem Growing.of_power?_eq_none {g : Grouped} {p : Power} (hr : g.Respects gr)
    (hc : w.Covers g.tokens v) (hg : g.power? gr = none)
    (hu : g.EndsUnary → gr.continuation? .unary v.peek.kind = none) : g.Growing gr p w v := by
  refine ⟨hr, hc, ?_, ?_, hu⟩
  all_goals
    rw [hg]
    intro q hq
    cases hq

theorem Growing.binary {g r : Grouped} {p q : Power} {op : BinaryOp} (hg : g.Growing gr p w u)
    (hq : gr.continuation? p u.peek.kind = some q) (hk : u.peek.kind = op.kind)
    (hr : r.Growing gr q u.advance.advance v) (hv : gr.continuation? q v.peek.kind = none) :
    (Grouped.binary g u.peek op hk r).Growing gr p w v := by
  obtain ⟨-, -, hlt⟩ := continuation?_eq_some_iff.mp hq
  have hpow : gr.power u.peek.kind = q := power_of_continuation? hq
  have hleft : ∀ s ∈ g.power? gr, gr.power u.peek.kind ≤ s := fun s hs =>
    power_le_of_continuation? hq (hg.stops_top s hs)
  have hedge : g.EndsUnary → gr.power u.peek.kind ≤ .unary := fun he =>
    power_le_of_continuation? hq (hg.stops_unary he)
  have hright : ∀ s ∈ r.power? gr, gr.power u.peek.kind < s := by
    rw [hpow]
    exact hr.tighter
  have htail : u.advance.Covers (u.peek :: r.tokens) v := hr.covers.cons
  refine ⟨⟨hg.respects, hr.respects, hleft, hright, hedge⟩, hg.covers.append htail, ?_, ?_,
    hr.stops_unary⟩
  · intro s hs
    obtain rfl : gr.power u.peek.kind = s := Option.some.inj hs
    rwa [hpow]
  · intro s hs
    obtain rfl : gr.power u.peek.kind = s := Option.some.inj hs
    rwa [hpow]

/-- Whatever `nested` reads is a tree of at most `n` levels that goes as far as operators follow. -/
def Grows (gr : Grammar) (nested : Power → Step σ Expr) (n : Nat) : Prop :=
  ∀ p w e v, (nested p).run w = (.ok e, v) →
    ∃ g : Grouped, g.Growing gr p w v ∧ gr.continuation? p v.peek.kind = none ∧ g.expr = e ∧
      g.levels ≤ n

variable {nested : Power → Step σ Expr} {n : Nat} {p : Power} {e : Expr}

theorem growing_of_readOperand (hop : gr.operand = standard.operand) (hn : Grows gr nested n)
    (h : (gr.readOperand nested).run w = (.ok e, v)) :
    ∃ g : Grouped, g.Growing gr p w v ∧ g.expr = e ∧ g.levels ≤ n + 1 := by
  rw [readOperand_congr hop] at h
  rcases run_standard_readOperand_eq_ok_iff.mp h with
    ⟨he, rfl⟩ | ⟨op, x, hk, hx, rfl⟩ | ⟨hk, u, hx, hc, rfl⟩
  · exact ⟨.atom v.current e he,
      .of_power?_eq_none trivial (Window.covers_current v) rfl False.elim, rfl,
      Nat.le_add_left 1 n⟩
  · obtain ⟨g, hg, hs, rfl, hl⟩ := hn _ _ _ _ hx
    exact ⟨.unary w.current op hk g,
      .of_power?_eq_none ⟨hg.respects, hg.tighter⟩ hg.covers.cons rfl fun _ => hs, rfl,
      Nat.succ_le_succ hl⟩
  · obtain ⟨g, hg, -, rfl, hl⟩ := hn _ _ _ _ hx
    exact ⟨.group w.current hk g u.peek hc,
      .of_power?_eq_none hg.respects hg.covers.snoc.cons rfl False.elim, rfl,
      Nat.succ_le_succ hl⟩

theorem growing_of_foldOperators (hn : Grows gr nested n) {g : Grouped} (hg : g.Growing gr p w u)
    (hl : g.levels ≤ n + 1) (h : gr.foldOperators nested p g.expr u = (.ok e, v)) :
    ∃ g' : Grouped, g'.Growing gr p w v ∧ gr.continuation? p v.peek.kind = none ∧ g'.expr = e ∧
      g'.levels ≤ n + 1 := by
  generalize hx : g.expr = left at h
  fun_induction foldOperators gr nested p left u generalizing g with
  | case1 left u hnone =>
    cases h
    exact ⟨g, hg, hnone, hx, hl⟩
  | case2 left u q hq d v' hd => cases h
  | case3 left u q hq x u' hr ih =>
    subst hx
    obtain ⟨op, r, hk, hnested, rfl⟩ := run_readBinary_eq_ok_iff.mp hr
    obtain ⟨r, hgr, hs, rfl, hlr⟩ := hn _ _ _ _ hnested
    exact ih (hg.binary hq hk hgr hs) (Nat.max_le.mpr ⟨hl, Nat.succ_le_succ hlr⟩) rfl h

theorem grows_readExpr (hop : gr.operand = standard.operand) (n : Nat) :
    Grows (σ := σ) gr (gr.readExpr n) n := by
  induction n with
  | zero =>
    intro p w e v h
    cases h
  | succ n ih =>
    intro p w e v h
    rw [run_readExpr_succ, run_bind_eq_ok_iff] at h
    obtain ⟨left, u, hleft, hfold⟩ := h
    obtain ⟨g, hg, rfl, hl⟩ := growing_of_readOperand hop ih hleft
    exact growing_of_foldOperators ih hg hl hfold

end Grouped
end MonkeySyntax
