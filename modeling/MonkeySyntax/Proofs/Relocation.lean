import MonkeySyntax.Proofs.Precedence

/-! The same tokens at other places. Two windows on them are read side by side: where they show the
same tokens up to a semicolon, both are moved by the same number of tokens, none of them past that
semicolon, and the trees and diagnostics differ in their places only. -/
namespace MonkeySyntax

open Grammar Step

variable {σ τ : Type} [TokenSource σ] [TokenSource τ] {α β : Type} {φ : Position → Position}

def Span.relocate (φ : Position → Position) (s : Span) : Span := ⟨φ s.start, φ s.stop⟩

def Token.relocate (φ : Position → Position) (t : Token) : Token :=
  ⟨t.kind, t.literal, t.span.relocate φ⟩

def Expr.relocate (φ : Position → Position) : Expr → Expr
  | ident x => ident ⟨x.token.relocate φ, x.value⟩
  | int t v => int (t.relocate φ) v
  | bool t b => bool (t.relocate φ) b
  | unary t op e => unary (t.relocate φ) op (e.relocate φ)
  | binary t op l r => binary (t.relocate φ) op (l.relocate φ) (r.relocate φ)

def Stmt.relocate (φ : Position → Position) : Stmt → Stmt
  | binding t x e => binding (t.relocate φ) ⟨x.token.relocate φ, x.value⟩ (e.relocate φ)
  | ret t e => ret (t.relocate φ) (e.relocate φ)
  | expr t e => expr (t.relocate φ) (e.relocate φ)

def Diagnostic.relocate (φ : Position → Position) (d : Diagnostic) : Diagnostic :=
  ⟨d.fault, φ d.position⟩

/-- A result at other places; `f` is what becomes of a value. -/
def relocateResult (φ : Position → Position) (f : α → α) : Except Diagnostic α → Except Diagnostic α
  | .ok a => .ok (f a)
  | .error d => .error (d.relocate φ)

/-- Forgets a place. -/
def Position.forget (_ : Position) : Position := .unknown

/-- The token without its place. -/
def Token.bare (t : Token) : Token := t.relocate Position.forget

@[simp] theorem Token.kind_relocate (t : Token) : (t.relocate φ).kind = t.kind := rfl

@[simp] theorem Token.literal_relocate (t : Token) : (t.relocate φ).literal = t.literal := rfl

@[simp] theorem Expr.relocate_id (e : Expr) : e.relocate id = e := by
  induction e with
  | ident x => rfl
  | int t v => rfl
  | bool t b => rfl
  | unary t op e ih => rw [relocate, ih]; rfl
  | binary t op l r ihl ihr => rw [relocate, ihl, ihr]; rfl

@[simp] theorem Stmt.relocate_id (s : Stmt) : s.relocate id = s := by
  cases s <;> rw [relocate, Expr.relocate_id] <;> rfl

theorem relocateResult_id (r : Except Diagnostic Stmt) :
    relocateResult id (Stmt.relocate id) r = r := by
  cases r with
  | ok s => rw [relocateResult, Stmt.relocate_id]
  | error d => rfl

namespace Window

/-- Up to the first semicolon, `w'` shows the tokens of `w` at other places. -/
def Mirrors (φ : Position → Position) (w : Window σ) (w' : Window τ) : Prop :=
  ∀ i, (∀ j < i, (w.nth j).kind ≠ .semicolon) → w'.nth i = (w.nth i).relocate φ

/-- Both windows were moved by the same number of tokens, and past no semicolon. -/
def Abreast (w v : Window σ) (w' v' : Window τ) : Prop :=
  ∃ n, v = w.after n ∧ v' = w'.after n ∧ ∀ j < n, (w.nth j).kind ≠ .semicolon

variable {w v u : Window σ} {w' v' u' : Window τ}

theorem Mirrors.current_eq (h : Mirrors φ w w') : w'.current = w.current.relocate φ :=
  h 0 fun _ hj => absurd hj (Nat.not_lt_zero _)

theorem Mirrors.peek_eq (h : Mirrors φ w w') (hw : w.current.kind ≠ .semicolon) :
    w'.peek = w.peek.relocate φ := by
  apply h 1
  intro j hj
  obtain rfl : j = 0 := by omega
  exact hw

theorem Abreast.refl (w : Window σ) (w' : Window τ) : Abreast w w w' w' :=
  ⟨0, rfl, rfl, fun _ hj => absurd hj (Nat.not_lt_zero _)⟩

theorem Abreast.advance (hw : w.current.kind ≠ .semicolon) (w' : Window τ) :
    Abreast w w.advance w' w'.advance := by
  refine ⟨1, rfl, rfl, fun j hj => ?_⟩
  obtain rfl : j = 0 := by omega
  exact hw

theorem Abreast.trans (h : Abreast w v w' v') (h' : Abreast v u v' u') : Abreast w u w' u' := by
  obtain ⟨m, rfl, rfl, hm⟩ := h
  obtain ⟨n, rfl, rfl, hn⟩ := h'
  refine ⟨m + n, by rw [after_add], by rw [after_add], fun j hj => ?_⟩
  by_cases hjm : j < m
  · exact hm j hjm
  · have hk := hn (j - m) (by omega)
    rw [nth_after] at hk
    rwa [show m + (j - m) = j by omega] at hk

theorem Mirrors.of_abreast (h : Mirrors φ w w') (hv : Abreast w v w' v') : Mirrors φ v v' := by
  obtain ⟨n, rfl, rfl, hn⟩ := hv
  intro i hi
  rw [nth_after, nth_after]
  apply h
  intro j hj
  by_cases hjn : j < n
  · exact hn j hjn
  · have hk := hi (j - n) (by omega)
    rw [nth_after] at hk
    rwa [show n + (j - n) = j by omega] at hk

theorem Mirrors.advance (h : Mirrors φ w w') (hw : w.current.kind ≠ .semicolon) :
    Mirrors φ w.advance w'.advance :=
  h.of_abreast (.advance hw w')

theorem abreast_skipStatement (h : Mirrors φ w w') :
    Abreast w w.skipStatement w' w'.skipStatement := by
  fun_induction skipStatement w generalizing w' with
  | case1 w hk =>
    have hk' : w'.current.kind = .semicolon ∨ w'.current.kind = .eof := by
      rw [h.current_eq]
      exact hk
    rw [skipStatement, if_pos hk']
    exact .refl w w'
  | case2 w hk ih =>
    have hs : w.current.kind ≠ .semicolon := fun hs => hk (.inl hs)
    have hk' : ¬(w'.current.kind = .semicolon ∨ w'.current.kind = .eof) := by
      rw [h.current_eq]
      exact hk
    rw [skipStatement.eq_def w', if_neg hk']
    exact (Abreast.advance hs w').trans (ih (h.advance hs))

end Window

open Window

/-- Two runs from `w` and `w'` stay abreast, and the second gives what the first one gives, at other
places. -/
structure Agree (φ : Position → Position) (f : α → α) (w : Window σ) (w' : Window τ)
    (r : Except Diagnostic α × Window σ) (r' : Except Diagnostic α × Window τ) : Prop where
  abreast : Abreast w r.2 w' r'.2
  result : r'.1 = relocateResult φ f r.1

variable {w v : Window σ} {w' v' : Window τ} {f : α → α} {g : β → β}

namespace Agree

theorem ok (w : Window σ) (w' : Window τ) (a : α) : Agree φ f w w' (.ok a, w) (.ok (f a), w') :=
  ⟨.refl w w', rfl⟩

theorem fail (h : Mirrors φ w w') (x : Fault) :
    Agree φ f w w' ((Step.fail x : Step σ α).run w) ((Step.fail x : Step τ α).run w') := by
  refine ⟨.refl w w', ?_⟩
  change Except.error _ = relocateResult φ f (Except.error _)
  rw [h.current_eq]
  rfl

theorem expect (h : Mirrors φ w w') (hw : w.current.kind ≠ .semicolon) (k : TokenKind) :
    Agree φ (Token.relocate φ) w w' ((Step.expect k).run w) ((Step.expect k).run w') := by
  have hp := h.peek_eq hw
  unfold Step.expect
  by_cases hk : w.peek.kind = k
  · simp only [hp, Token.kind_relocate, hk, if_true]
    exact ⟨.advance hw w', rfl⟩
  · simp only [hp, Token.kind_relocate, hk, if_false]
    exact ⟨.refl w w', rfl⟩

theorem trans_abreast {r : Except Diagnostic α × Window σ} {r' : Except Diagnostic α × Window τ}
    (h : Abreast w v w' v') (hr : Agree φ f v v' r r') : Agree φ f w w' r r' :=
  ⟨h.trans hr.abreast, hr.result⟩

/-- Runs in sequence agree if both of their parts do. -/
theorem bind {x : Step σ α} {x' : Step τ α} {k : α → Step σ β} {k' : α → Step τ β}
    (h : Mirrors φ w w') (hx : Agree φ f w w' (x.run w) (x'.run w'))
    (hk : ∀ a v v', x.run w = (.ok a, v) → Mirrors φ v v' →
      Agree φ g v v' ((k a).run v) ((k' (f a)).run v')) :
    Agree φ g w w' ((x >>= k).run w) ((x' >>= k').run w') := by
  obtain ⟨ha, hr⟩ := hx
  rcases hrun : x.run w with ⟨r, v⟩
  rcases hrun' : x'.run w' with ⟨r', v'⟩
  rw [hrun, hrun'] at ha hr
  cases r with
  | ok a =>
    obtain rfl : r' = .ok (f a) := hr
    rw [run_bind_of_ok hrun, run_bind_of_ok hrun']
    exact trans_abreast ha (hk a v v' hrun (h.of_abreast ha))
  | error d =>
    obtain rfl : r' = .error (d.relocate φ) := hr
    rw [run_bind_of_error hrun, run_bind_of_error hrun']
    exact ⟨ha, rfl⟩

end Agree

end MonkeySyntax
