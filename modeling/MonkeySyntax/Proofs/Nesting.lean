import MonkeySyntax.Proofs.Levels
import MonkeySyntax.Proofs.Precedence

/-! When the levels run out: which trees need more of them than there are, and where reading such a
tree stops. -/
namespace MonkeySyntax

namespace Grouped

/-- The tokens in the order of the source, those at which an expression opens with its level. The
tree itself opens at level `n`, and so does a left operand along with its operation. -/
def openings : Grouped → Nat → List (Token × Option Nat)
  | atom t _ _, n => [(t, some n)]
  | unary t _ _ x, n => (t, some n) :: x.openings (n + 1)
  | binary l t _ _ r, n => l.openings n ++ (t, none) :: r.openings (n + 1)
  | group o _ x c _, n => (o, some n) :: (x.openings (n + 1) ++ [(c, none)])

theorem map_fst_openings (g : Grouped) (n : Nat) : (g.openings n).map Prod.fst = g.tokens := by
  induction g generalizing n with
  | atom => rfl
  | unary t op h x ih => rw [openings, tokens, List.map_cons, ih]
  | binary l t op h r hl hr => rw [openings, tokens, List.map_append, List.map_cons, hl, hr]
  | group o ho x c hc ih => rw [openings, tokens, List.map_cons, List.map_append, ih]; rfl

def firstAt? (g : Grouped) (n m : Nat) : Option Token :=
  ((g.openings n).find? fun o => o.2 = some m).map Prod.fst

theorem openings_eq_head_cons (g : Grouped) (n : Nat) :
    ∃ os, g.openings n = (g.head, some n) :: os := by
  induction g with
  | binary l t op h r hl hr =>
    obtain ⟨os, hos⟩ := hl
    exact ⟨os ++ (t, none) :: r.openings (n + 1), by rw [openings, hos]; rfl⟩
  | _ => exact ⟨_, rfl⟩

theorem firstAt?_self (g : Grouped) (n : Nat) : g.firstAt? n n = some g.head := by
  obtain ⟨os, hos⟩ := g.openings_eq_head_cons n
  rw [firstAt?, hos, List.find?_cons_of_pos (by simp)]
  rfl

theorem blocked?_eq_firstAt? (g : Grouped) (n m : Nat) : g.blocked? m = g.firstAt? n (n + m) := by
  induction g generalizing n m with
  | atom t e h =>
    cases m with
    | zero => exact (firstAt?_self _ n).symm
    | succ m => simp [blocked?, firstAt?, openings]
  | unary t op h x ih =>
    cases m with
    | zero => exact (firstAt?_self _ n).symm
    | succ m =>
      rw [blocked?, ih (n + 1), Nat.add_right_comm, Nat.add_assoc]
      simp [firstAt?, openings]
  | group o ho x c hc ih =>
    cases m with
    | zero => exact (firstAt?_self _ n).symm
    | succ m =>
      rw [blocked?, ih (n + 1), Nat.add_right_comm, Nat.add_assoc]
      simp [firstAt?, openings]
  | binary l t op h r hl hr =>
    cases m with
    | zero =>
      rw [blocked?]
      exact (firstAt?_self _ n).symm
    | succ m =>
      rw [blocked?, hl n, hr (n + 1), Nat.add_right_comm, Nat.add_assoc]
      simp [firstAt?, openings, Option.map_or]

end Grouped

variable {σ : Type} [TokenSource σ]

/-- An expression that is followed by no operator is read exactly if the levels it needs are left.
If not, reading stops at the first token, in the order of the source, at which one level too many
would open. Either way the parser has as many levels open as before: it closes what it opens. -/
theorem Parser.expr_levels (p : Parser σ) (g : Grouped) (v : Window σ) (hp : p.grammar = .standard)
    (hd : p.depth ≤ nestingLimit) (hg : g.WellShaped) (hc : p.window.Covers g.tokens v)
    (hv : ∀ op : BinaryOp, v.peek.kind ≠ op.kind) :
    (p.depth + g.levels ≤ nestingLimit → p.expr .lowest = (.ok g.expr, { p with window := v })) ∧
    (nestingLimit < p.depth + g.levels → ∃ (t : Token) (w : Window σ),
      g.firstAt? (p.depth + 1) (nestingLimit + 1) = some t ∧
      p.expr .lowest = (.error ⟨.tooDeep nestingLimit, t.span.start⟩, { p with window := w })) ∧
    (g.openings (p.depth + 1)).map Prod.fst = g.tokens ∧
    ∀ (r : Except Diagnostic Expr) (q : Parser σ),
      Performs TokenSource.next (.expr .lowest) p r q ↔ p.expr .lowest = (r, q) := by
  have hread : g.Reading .lowest p.window v :=
    ⟨hg, hc, g.lowest_lt_top, standard_stops_iff.mpr fun ⟨op, hk, _⟩ => hv op hk⟩
  have hrun : p.exprStep .lowest = Grammar.standard.readExpr (nestingLimit - p.depth) .lowest := by
    rw [exprStep, hp]
  have hr := g.complete.readsAs hread (nestingLimit - p.depth)
  refine ⟨?_, ?_, g.map_fst_openings _, fun r q => performs_iff⟩
  · intro hl
    have hn : g.blocked? (nestingLimit - p.depth) = none :=
      Grouped.blocked?_eq_none_iff.mpr (by omega)
    rw [expr, run, hrun, hr.run_eq hn]
  · intro hl
    cases hb : g.blocked? (nestingLimit - p.depth) with
    | none =>
      have := Grouped.blocked?_eq_none_iff.mp hb
      omega
    | some t =>
      have hfirst : p.depth + 1 + (nestingLimit - p.depth) = nestingLimit + 1 := by omega
      obtain ⟨w, hw⟩ := hr.tooDeep t hb
      refine ⟨t, w, ?_, ?_⟩
      · rw [← hb, ← hfirst, g.blocked?_eq_firstAt?]
      · rw [expr, run, hrun, hw]

/-- With 127 levels open a name is read, and the operand of a minus is one level too deep. -/
theorem Parser.expr_levels_minus :
    let minus : Token := .unplaced .minus "-"
    let name : Token := ⟨.identifier, "a", ⟨⟨1, "f"⟩, ⟨2, "f"⟩⟩⟩
    let p : Parser Replay :=
      { ofSource (Replay.ofList [minus, name]) with depth := 127 }
    ∃ w, p.expr .lowest = (.error ⟨.tooDeep 128, ⟨1, "f"⟩⟩, { p with window := w }) := by
  intro minus name p
  let g : Grouped := .unary minus .neg rfl (.atom name (.ident ⟨name, "a"⟩) rfl)
  have hw : g.WellShaped := ⟨trivial, rfl⟩
  have hv : ∀ op : BinaryOp, (p.window.after 1).peek.kind ≠ op.kind := by
    intro op
    cases op <;> decide
  obtain ⟨-, hdeep, -⟩ := expr_levels p g (p.window.after 1) rfl (by decide) hw ⟨1, rfl, rfl⟩ hv
  obtain ⟨t, w, ht, hr⟩ := hdeep (by decide)
  obtain rfl : name = t := Option.some.inj ht
  exact ⟨w, hr⟩

end MonkeySyntax
