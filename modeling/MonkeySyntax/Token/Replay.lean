import MonkeySyntax.Token.Basic

/-! Sources of tokens, pulled one token at a time. A source never runs dry: at its end it goes on
giving end tokens, and it comes to that after a known number of pulls. A list of tokens is such a
source: the list up to its first end token, then that token again and again. -/
namespace MonkeySyntax

/-- A source gives nothing but end tokens after `horizon` pulls. -/
class TokenSource (σ : Type) where
  next : σ → Token × σ
  horizon : σ → Nat
  horizon_next : ∀ s, horizon (next s).2 ≤ horizon s - 1
  kind_next : ∀ s, horizon s = 0 → (next s).1.kind = .eof

namespace TokenSource

variable {σ : Type} [TokenSource σ]

def take : Nat → σ → List Token
  | 0, _ => []
  | n + 1, s => (next s).1 :: take n (next s).2

/-- The tokens up to the first end token, which is the last of the list. -/
def toList (s : σ) : List Token :=
  let p := next s
  if p.1.kind = .eof then [p.1] else p.1 :: toList p.2
termination_by horizon s
decreasing_by
  have := horizon_next s
  have := kind_next s
  grind

end TokenSource

/-- The tokens ahead, and the end token that follows them. -/
structure Replay where
  ahead : List Token
  last : Token
  last_kind : last.kind = .eof

namespace Replay

/-- A list without an end token gets one where its last token stops. -/
def endOf (ts : List Token) : Token :=
  .endAt (match ts.getLast? with
    | some t => t.span.stop
    | none => .unknown)

theorem kind_endOf (ts : List Token) : (endOf ts).kind = .eof := rfl

def ofList (ts : List Token) : Replay := ⟨ts, endOf ts, kind_endOf ts⟩

/-- After an end token nothing of the list is read any more. -/
def next : Replay → Token × Replay
  | ⟨[], last, h⟩ => (last, ⟨[], last, h⟩)
  | ⟨t :: ts, last, h⟩ => if ht : t.kind = .eof then (t, ⟨[], t, ht⟩) else (t, ⟨ts, last, h⟩)

instance : TokenSource Replay where
  next := next
  horizon r := r.ahead.length
  horizon_next r := by
    rcases r with ⟨_ | ⟨t, ts⟩, last, h⟩
    · simp [next]
    · by_cases ht : t.kind = .eof <;> simp [next, ht]
  kind_next r hr := by
    rcases r with ⟨_ | ⟨t, ts⟩, last, h⟩
    · exact h
    · simp at hr

end Replay
end MonkeySyntax
