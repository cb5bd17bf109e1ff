import MonkeySyntax.Proofs.Failure
import MonkeySyntax.Proofs.Lockstep

/-! The pieces of a program: each turn of the loop over its statements takes a run of tokens, and
the runs one after the other are all the tokens there are. -/
namespace MonkeySyntax

open Grammar Step Window

variable {σ : Type} [TokenSource σ] {w v u : Window σ} {n : Nat} {stmt : Step σ Stmt}
  {d : Diagnostic} {ts : List Token} {e : Token}

/-- The tokens that a turn of the loop takes, and what they gave. -/
structure Piece where
  tokens : List Token
  outcome : Except Diagnostic Stmt

def Piece.isOpen : Piece → Bool
  | ⟨_, .ok _⟩ => false
  | ⟨ts, .error _⟩ => ts.all fun t => t.kind ≠ .semicolon

/-- A turn of the loop takes a piece at `w` and goes on at `v`. What is read as a statement has no
semicolon but as its last token. A malformed statement is left where it fails, and its piece goes on
up to the next semicolon, the first one in it, or to the end. -/
inductive Turn (stmt : Step σ Stmt) (w : Window σ) : Piece → Window σ → Prop
  | statement {ts : List Token} {s : Stmt} {v : Window σ} : stmt.run w = (.ok s, v) →
      w.Covers ts v → (∀ t ∈ ts.dropLast, t.kind ≠ .semicolon) →
      Turn stmt w ⟨ts, .ok s⟩ v.advance
  | terminated {ts : List Token} {t : Token} {d : Diagnostic} {v : Window σ} :
      stmt.run w = (.error d, v) → w.Covers (ts ++ [t]) v.skipStatement →
      (∀ u ∈ ts, u.kind ≠ .semicolon) → t.kind = .semicolon →
      Turn stmt w ⟨ts ++ [t], .error d⟩ v.skipStatement.advance
  | unterminated {ts : List Token} {d : Diagnostic} {v : Window σ} :
      stmt.run w = (.error d, v) → w.Starts ts → w.after ts.length = v.skipStatement →
      (∀ u ∈ ts, u.kind ≠ .semicolon) → v.skipStatement.current.kind = .eof →
      Turn stmt w ⟨ts, .error d⟩ v.skipStatement.advance

/-- The loop takes the given pieces from `w` on, and ends at `v`. -/
inductive Turns (stmt : Step σ Stmt) : Window σ → List Piece → Window σ → Prop
  | done {w : Window σ} : w.current.kind = .eof → Turns stmt w [] w
  | turn {w v u : Window σ} {p : Piece} {ps : List Piece} : w.current.kind ≠ .eof →
      Turn stmt w p v → Turns stmt v ps u → Turns stmt w (p :: ps) u

namespace Turn

variable {p : Piece}

theorem readPiece_eq (h : Turn stmt w p v) : readPiece stmt w = (p.outcome, v) := by
  unfold readPiece
  cases h with
  | statement hr => rw [hr]
  | terminated hr => rw [hr]
  | unterminated hr => rw [hr]

theorem pulled_eq (h : Turn stmt w p v) :
    v.pulled = w.pulled + p.tokens.length + if p.isOpen then 1 else 0 := by
  cases h with
  | statement _ hc =>
    rw [← hc.after_length, pulled_after]
    rfl
  | @terminated ts t d v _ hc _ ht =>
    have hopen : Piece.isOpen ⟨ts ++ [t], .error d⟩ = false := by simp [Piece.isOpen, ht]
    rw [← hc.after_length, pulled_after, hopen]
    rfl
  | @unterminated ts d v _ _ ha hs =>
    have hopen : Piece.isOpen ⟨ts, .error d⟩ = true := by simpa [Piece.isOpen] using hs
    rw [pulled_advance, ← ha, pulled_after, hopen]
    rfl

end Turn

theorem Window.exists_skipStatement (w : Window σ) :
    ∃ k, w.skipStatement = w.after k ∧
      (∀ j < k, (w.nth j).kind ≠ .eof ∧ (w.nth j).kind ≠ .semicolon) ∧
      ((w.nth k).kind = .semicolon ∨ (w.nth k).kind = .eof) := by
  fun_induction skipStatement w with
  | case1 w h => exact ⟨0, rfl, by simp, h⟩
  | case2 w h ih =>
    obtain ⟨k, hk, hbefore, hat⟩ := ih
    obtain ⟨hs, he⟩ := not_or.mp h
    refine ⟨k + 1, hk, ?_, hat⟩
    intro j hj
    cases j with
    | zero => exact ⟨he, hs⟩
    | succ j => exact hbefore j (Nat.lt_of_succ_lt_succ hj)

/-- From the start of a malformed statement the loop goes on to the first semicolon or to the end,
wherever in between the statement failed. -/
theorem exists_skipStatement_of_error
    (h : (standard.readStmt (standard.readExpr n)).run w = (.error d, v)) :
    ∃ m, v.skipStatement = w.after m ∧
      (∀ i < m, (w.nth i).kind ≠ .eof ∧ (w.nth i).kind ≠ .semicolon) ∧
      ((w.nth m).kind = .semicolon ∨ (w.nth m).kind = .eof) := by
  obtain ⟨ts, t, hf, hb⟩ := FailsStmt.exists_of_readStmt h
  obtain ⟨j, rfl⟩ : ∃ j, w.after j = v := by
    have hfwd := (standard.readStmt (standard.readExpr n)).forward w
    rw [h] at hfwd
    exact hfwd.exists_after
  obtain ⟨k, hk, hbefore, hat⟩ := (w.after j).exists_skipStatement
  have hj : j ≤ ts.length := by
    have hlen := hb.window
    rw [← after_add] at hlen
    rw [after_injective hlen]
    exact Nat.le_add_right j _
  refine ⟨j + k, by rw [hk, after_add], ?_, by rwa [nth_after] at hat⟩
  intro i hi
  by_cases hij : i < j
  · exact hf.kind_of_mem _ (hb.starts.of_append.nth_mem (Nat.lt_of_lt_of_le hij hj))
  · have := hbefore (i - j) (by omega)
    rwa [nth_after, Nat.add_sub_cancel' (Nat.not_lt.mp hij)] at this

/-- A turn takes the first of the tokens ahead and leaves `rest`. It takes all of them if it misses
a semicolon. -/
structure Takes (stmt : Step σ Stmt) (w : Window σ) (ts : List Token) (e : Token) (p : Piece)
    (rest : List Token) (v : Window σ) : Prop where
  turn : Turn stmt w p v
  ne_nil : p.tokens ≠ []
  tokens_eq : ts = p.tokens ++ rest
  shows : v.Shows rest e
  rest_eq_nil : p.isOpen → rest = []

section OneTurn

variable (hw : w.Shows ts e) (he : e.kind = .eof) (hts : ∀ t ∈ ts, t.kind ≠ .eof)

include hw he

theorem exists_takes_of_ok {s : Stmt}
    (hr : (standard.readStmt (standard.readExpr n)).run w = (.ok s, v)) :
    ∃ p rest u, Takes (standard.readStmt (standard.readExpr n)) w ts e p rest u := by
  obtain ⟨x, hx, -, -⟩ := Sentence.exists_of_readStmt hr
  obtain ⟨rest, hrest, hv⟩ := hw.exists_eq_append he hx.covers
    fun _ => Sentence.kind_ne_eof_of_mem_tokens
  have hturn : Turn (standard.readStmt (standard.readExpr n)) w ⟨x.tokens, .ok s⟩ v.advance :=
    .statement hr hx.covers fun _ => Sentence.kind_ne_semicolon_of_mem_dropLast
  exact ⟨_, rest, _, hturn, x.tokens_ne_nil, hrest, hv, by simp [Piece.isOpen]⟩

include hts

theorem exists_takes_of_error (hne : ts ≠ [])
    (hr : (standard.readStmt (standard.readExpr n)).run w = (.error d, v)) :
    ∃ p rest u, Takes (standard.readStmt (standard.readExpr n)) w ts e p rest u := by
  obtain ⟨m, hm, hbefore, hat⟩ := exists_skipStatement_of_error hr
  have hsemi : ∀ t ∈ w.take m, t.kind ≠ .semicolon := by
    intro t ht
    rw [take_eq_map] at ht
    obtain ⟨i, hi, rfl⟩ := List.mem_map.mp ht
    exact (hbefore i (List.mem_range.mp hi)).2
  have hv : v.skipStatement.advance.Shows (ts.drop (m + 1)) e := by
    rw [hm, ← after_succ]
    exact hw.after (m + 1)
  by_cases hk : (w.nth m).kind = .eof
  · have hle : ts.length ≤ m := (hw.kind_nth_eq_eof_iff he hts).mp hk
    have hge : m ≤ ts.length := Nat.not_lt.mp fun hlt =>
      (hbefore _ hlt).1 ((hw.kind_nth_eq_eof_iff he hts).mpr (Nat.le_refl _))
    obtain rfl : m = ts.length := Nat.le_antisymm hge hle
    have htake : w.take ts.length = ts := by rw [hw.take_eq (Nat.le_refl _), List.take_length]
    rw [htake] at hsemi
    rw [List.drop_eq_nil_of_le (Nat.le_succ _)] at hv
    have hturn : Turn (standard.readStmt (standard.readExpr n)) w ⟨ts, .error d⟩
        v.skipStatement.advance := .unterminated hr htake hm.symm hsemi (by rw [hm]; exact hk)
    exact ⟨_, [], _, hturn, hne, (List.append_nil ts).symm, hv, fun _ => rfl⟩
  · have hlt : m < ts.length := Nat.not_le.mp (mt (hw.kind_nth_eq_eof_iff he hts).mpr hk)
    have hksemi : (w.nth m).kind = .semicolon := hat.resolve_right hk
    have htake : w.take m ++ [w.nth m] = ts.take (m + 1) := by
      rw [← hw.take_eq hlt, take_succ_eq_append]
    have hcov : w.Covers (w.take m ++ [w.nth m]) v.skipStatement :=
      ⟨m, hm, (take_succ_eq_append m w).symm⟩
    have hturn : Turn (standard.readStmt (standard.readExpr n)) w
        ⟨w.take m ++ [w.nth m], .error d⟩ v.skipStatement.advance :=
      .terminated hr hcov hsemi hksemi
    refine ⟨_, ts.drop (m + 1), _, hturn, by simp, ?_, hv, by simp [Piece.isOpen, hksemi]⟩
    rw [htake, List.take_append_drop]

theorem exists_takes (hne : ts ≠ []) :
    ∃ p rest u, Takes (standard.readStmt (standard.readExpr n)) w ts e p rest u := by
  rcases hr : (standard.readStmt (standard.readExpr n)).run w with ⟨r, v⟩
  cases r with
  | ok s => exact exists_takes_of_ok hw he hr
  | error d => exact exists_takes_of_error hw he hts hne hr

end OneTurn

theorem Turns.readAll_eq {ps : List Piece} (h : Turns stmt w ps v) :
    readAll stmt w = (ps.map Piece.outcome, v) := by
  induction h with
  | done hw => rw [readAll_of_eof hw, List.map_nil]
  | turn hw hp _ ih => rw [readAll_of_ne_eof hw, hp.readPiece_eq, ih, List.map_cons]

theorem exists_turns (hw : w.Shows ts e) (he : e.kind = .eof) (hts : ∀ t ∈ ts, t.kind ≠ .eof) :
    ∃ ps v, Turns (standard.readStmt (standard.readExpr n)) w ps v ∧
      ps.flatMap Piece.tokens = ts ∧ (∀ p ∈ ps, p.tokens ≠ []) ∧
      v.pulled = w.pulled + ts.length + if ps.getLast?.any Piece.isOpen then 1 else 0 := by
  induction hl : ts.length using Nat.strongRecOn generalizing ts w with
  | _ k ih =>
    have hk : w.current.kind = .eof ↔ ts.length ≤ 0 := hw.kind_nth_eq_eof_iff he hts (n := 0)
    by_cases hne : ts = []
    · subst hne
      exact ⟨[], w, .done (hk.mpr (Nat.le_refl 0)), rfl, by simp, by simp [← hl]⟩
    have hcur : w.current.kind ≠ .eof := by
      rw [Ne, hk, Nat.le_zero, List.length_eq_zero_iff]
      exact hne
    obtain ⟨p, rest, v, hp, hpne, rfl, hv, hopen⟩ := exists_takes (n := n) hw he hts hne
    have hlen : rest.length < k := by
      have := List.length_pos_iff.mpr hpne
      rw [← hl, List.length_append]
      omega
    obtain ⟨ps, u, hturns, rfl, hpsne, hu⟩ := ih _ hlen hv
      (fun t ht => hts t (List.mem_append_right _ ht)) rfl
    refine ⟨p :: ps, u, .turn hcur hp hturns, rfl, List.forall_mem_cons.mpr ⟨hpne, hpsne⟩, ?_⟩
    rw [hu, hp.pulled_eq, ← hl, List.length_append]
    cases ps with
    | nil => cases h : p.isOpen <;> simp [h]
    | cons q qs =>
      have hclosed : p.isOpen = false := by
        apply Bool.eq_false_iff.mpr
        intro h
        exact hpsne q List.mem_cons_self (List.append_eq_nil_iff.mp (hopen h)).1
      rw [hclosed, List.getLast?_cons_cons]
      simp only [Bool.false_eq_true, if_false]
      omega

/-- The loop over a program takes every token exactly once. The tokens before the end are the runs
that its turns take, one after the other, none of them empty, and each turn gives a statement or a
diagnostic. As many tokens are pulled as there are, with the end token and one more behind it, and
yet another one if the last statement is malformed and has no semicolon. -/
theorem parse_turns {s : σ} (hs : TokenSource.Gives s ts e) (hts : ∀ t ∈ ts, t.kind ≠ .eof)
    (he : e.kind = .eof) :
    ∃ ps v, Turns (standard.readStmt (standard.readExpr nestingLimit)) (.ofSource s) ps v ∧
      ps.flatMap Piece.tokens = ts ∧ (∀ p ∈ ps, p.tokens ≠ []) ∧
      ps.map Piece.outcome = (parse s).outcomes ∧
      (parse s).program.statements.length + (parse s).diagnostics.length = ps.length ∧
      (parse s).pulled = ts.length + if ps.getLast?.any Piece.isOpen then 3 else 2 := by
  obtain ⟨ps, v, hturns, hflat, hne, hv⟩ := exists_turns (n := nestingLimit) hs.shows he hts
  have hall := hturns.readAll_eq
  have hout : (parse s).outcomes = ps.map Piece.outcome := by
    rw [parse_outcomes, hall]
  have hpulled : (parse s).pulled = v.pulled := congrArg (fun r => r.2.pulled) hall
  refine ⟨ps, v, hturns, hflat, hne, hout.symm, ?_, ?_⟩
  · rw [Parsed.length_statements_add_length_diagnostics, hout, List.length_map]
  · rw [hpulled, hv]
    change 2 + ts.length + _ = _
    split <;> omega

/-- In `a; let; return b` the last semicolon is missed. -/
theorem parse_turns_open :
    let name (s : String) : Token := .unplaced .identifier s
    let semicolon : Token := .unplaced .semicolon ";"
    let ts := [name "a", semicolon, .unplaced .kwLet "let", semicolon, .unplaced .kwReturn "return",
      name "b"]
    let s := Replay.ofList (ts ++ [.endAt .unknown])
    ∃ ps v, Turns (standard.readStmt (standard.readExpr nestingLimit)) (.ofSource s) ps v ∧
      ps.flatMap Piece.tokens = ts ∧ ps.length = 3 ∧ ps.getLast?.any Piece.isOpen := by
  intro name semicolon ts s
  have hts : ∀ t ∈ ts, t.kind ≠ .eof := by decide
  have hs : TokenSource.Gives s ts (.endAt .unknown) := TokenSource.gives_replay hts rfl
  obtain ⟨ps, v, hturns, hflat, -, -, hlen, hpulled⟩ := parse_turns hs hts rfl
  have h3 : (parse s).program.statements.length + (parse s).diagnostics.length = 3 := by
    decide +kernel
  have h9 : (parse s).pulled = 9 := by decide +kernel
  refine ⟨ps, v, hturns, hflat, hlen.symm.trans h3, ?_⟩
  by_cases hopen : ps.getLast?.any Piece.isOpen
  · exact hopen
  · rw [if_neg hopen, h9] at hpulled
    cases hpulled

end MonkeySyntax
