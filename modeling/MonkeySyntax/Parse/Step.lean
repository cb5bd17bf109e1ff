import MonkeySyntax.Diagnostic
import MonkeySyntax.Token.Replay

/-! Steps of a parser. They look at a window on the source, which shows the current token and the
one after it, move it on, and give a value or a diagnostic. Moving on ends: it uses up a measure
that stays at zero only when both tokens are end tokens for good. -/
namespace MonkeySyntax

open TokenSource (next horizon)

/-- Two tokens of a source and the source behind them; `pulled` counts the tokens that were pulled
so far. -/
structure Window (σ : Type) where
  source : σ
  current : Token
  peek : Token
  pulled : Nat

namespace Window

variable {σ : Type} [TokenSource σ]

def ofSource (s : σ) : Window σ :=
  let first := next s
  let second := next first.2
  ⟨second.2, first.1, second.1, 2⟩

/-- Moves on by one token. -/
def advance (w : Window σ) : Window σ :=
  let pull := next w.source
  ⟨pull.2, w.peek, pull.1, w.pulled + 1⟩

/-- One window comes from another by moving on. -/
inductive Reaches : Window σ → Window σ → Prop
  | refl (w : Window σ) : Reaches w w
  | next {w v : Window σ} : Reaches w v → Reaches w v.advance

/-- How often a window can move on before it shows end tokens only. -/
def pending (w : Window σ) : Nat :=
  if horizon w.source ≠ 0 then horizon w.source + 2
  else if w.peek.kind ≠ .eof then 2
  else if w.current.kind ≠ .eof then 1
  else 0

@[simp] theorem current_advance (w : Window σ) : w.advance.current = w.peek := rfl

@[simp] theorem pulled_advance (w : Window σ) : w.advance.pulled = w.pulled + 1 := rfl

theorem pending_pos_of_current {w : Window σ} (h : w.current.kind ≠ .eof) : 0 < w.pending := by
  unfold pending
  grind

theorem pending_pos_of_peek {w : Window σ} (h : w.peek.kind ≠ .eof) : 0 < w.pending := by
  unfold pending
  grind

theorem pending_advance_lt {w : Window σ} (h : 0 < w.pending) : w.advance.pending < w.pending := by
  have := TokenSource.horizon_next w.source
  have := TokenSource.kind_next w.source
  unfold pending advance at *
  grind

theorem pending_advance_le (w : Window σ) : w.advance.pending ≤ w.pending := by
  have := TokenSource.horizon_next w.source
  have := TokenSource.kind_next w.source
  unfold pending advance
  grind

/-- Moving on from a window no further back leaves less to come. -/
theorem pending_advance_lt_of_le {v w : Window σ} (hw : 0 < w.pending)
    (h : v.pending ≤ w.pending) : v.advance.pending < w.pending := by
  rcases Nat.eq_zero_or_pos v.pending with hv | hv
  · have := pending_advance_le v
    omega
  · exact Nat.lt_of_lt_of_le (pending_advance_lt hv) h

namespace Reaches

theorem advance (w : Window σ) : w.Reaches w.advance := .next (.refl w)

theorem trans {u v w : Window σ} (huv : u.Reaches v) (hvw : v.Reaches w) : u.Reaches w := by
  induction hvw with
  | refl => exact huv
  | next _ ih => exact .next ih

theorem pending_le {w v : Window σ} (h : w.Reaches v) : v.pending ≤ w.pending := by
  induction h with
  | refl => exact Nat.le_refl _
  | next _ ih => exact Nat.le_trans (pending_advance_le _) ih

end Reaches
end Window

/-- A step never moves back, whether it succeeds or fails. -/
structure Step (σ : Type) [TokenSource σ] (α : Type) where
  run : Window σ → Except Diagnostic α × Window σ
  forward : ∀ w : Window σ, w.Reaches (run w).2

namespace Step

variable {σ : Type} [TokenSource σ] {α β : Type}

instance : Monad (Step σ) where
  pure a := ⟨fun w => (.ok a, w), .refl⟩
  bind x f :=
    { run := fun w =>
        match x.run w with
        | (.ok a, v) => (f a).run v
        | (.error d, v) => (.error d, v)
      forward := fun w => by
        have hx := x.forward w
        split <;> simp_all only
        · exact hx.trans ((f _).forward _) }

def current : Step σ Token := ⟨fun w => (.ok w.current, w), .refl⟩

def peek : Step σ Token := ⟨fun w => (.ok w.peek, w), .refl⟩

def advance : Step σ Unit := ⟨fun w => (.ok (), w.advance), .advance⟩

/-- Fails at the current token. -/
def fail (f : Fault) : Step σ α := ⟨fun w => (.error ⟨f, w.current.span.start⟩, w), .refl⟩

/-- Moves on to a token of kind `k`. If the next token is of another kind, it fails there and does
not move. -/
def expect (k : TokenKind) : Step σ Token where
  run w :=
    if w.peek.kind = k then (.ok w.peek, w.advance)
    else (.error ⟨.unexpected k w.peek.kind, w.peek.span.start⟩, w)
  forward w := by
    split
    · exact .advance w
    · exact .refl w

theorem run_pure (a : α) (w : Window σ) : (pure a : Step σ α).run w = (.ok a, w) := rfl

theorem run_bind (x : Step σ α) (f : α → Step σ β) (w : Window σ) :
    (x >>= f).run w =
      match x.run w with
      | (.ok a, v) => (f a).run v
      | (.error d, v) => (.error d, v) := rfl

theorem run_bind_of_ok {x : Step σ α} {w v : Window σ} {a : α} (h : x.run w = (.ok a, v))
    (f : α → Step σ β) : (x >>= f).run w = (f a).run v := by
  rw [run_bind, h]

theorem run_bind_of_error {x : Step σ α} {w v : Window σ} {d : Diagnostic}
    (h : x.run w = (.error d, v)) (f : α → Step σ β) : (x >>= f).run w = (.error d, v) := by
  rw [run_bind, h]

/-- A step in sequence succeeds exactly if both of its parts do. -/
theorem run_bind_eq_ok_iff {x : Step σ α} {f : α → Step σ β} {w v : Window σ} {b : β} :
    (x >>= f).run w = (.ok b, v) ↔ ∃ a u, x.run w = (.ok a, u) ∧ (f a).run u = (.ok b, v) := by
  rw [run_bind]
  split
  · next h => simp [h, and_assoc]
  · next h => simp [h]

end Step
end MonkeySyntax
