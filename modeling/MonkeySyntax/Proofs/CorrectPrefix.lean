import MonkeySyntax.Proofs.Failure

/-! Diagnostics come as early as they can: up to the token at fault everything could still become a
program, and with that token nothing can. -/
namespace MonkeySyntax

open Grammar Step TokenSource

variable {σ τ : Type} [TokenSource σ] [TokenSource τ] {w v : Window σ} {n : Nat} {d : Diagnostic}
  {ts : List Token} {t : Token} {f : Fault}

/-- Some program that is read without a diagnostic starts with the tokens `ts`. -/
def ViablePrefix (ts : List Token) : Prop :=
  ∃ us, (∀ t ∈ ts ++ us, t.kind ≠ .eof) ∧ ∀ {τ : Type} [TokenSource τ] (a : τ) (e : Token),
    Gives a (ts ++ us) e → e.kind = .eof → (parse a).isOk

/-- Whatever starts with the tokens `ts` is read with a diagnostic. -/
def DeadPrefix (ts : List Token) : Prop :=
  ∀ {τ : Type} [TokenSource τ] (a : τ), take ts.length a = ts → ¬ (parse a).isOk

/-- Read from `w` on, the first statement that is malformed is left in the window `v`, with the
diagnostic `d`. -/
inductive FirstFault (stmt : Step σ Stmt) : Window σ → Diagnostic → Window σ → Prop
  | here {w v : Window σ} {d : Diagnostic} : w.current.kind ≠ .eof → stmt.run w = (.error d, v) →
      FirstFault stmt w d v
  | later {w v u : Window σ} {s : Stmt} {d : Diagnostic} : w.current.kind ≠ .eof →
      stmt.run w = (.ok s, v) → FirstFault stmt v.advance d u → FirstFault stmt w d u

theorem FirstFault.exists_of_head? {stmt : Step σ Stmt} {k : Nat}
    (h : (Parsed.mk (readAll stmt w).1 k).diagnostics.head? = some d) :
    ∃ v, FirstFault stmt w d v := by
  induction hm : w.pending using Nat.strongRecOn generalizing w with
  | _ m ih =>
    by_cases hw : w.current.kind = .eof
    · rw [readAll_of_eof hw] at h
      cases h
    have hpos := Window.pending_pos_of_current hw
    have hle := (stmt.forward w).pending_le
    rcases hr : stmt.run w with ⟨r, v⟩
    cases r with
    | error d' =>
      rw [readAll_of_error hw hr] at h
      cases h
      exact ⟨v, .here hw hr⟩
    | ok s =>
      rw [readAll_of_ok hw hr] at h
      rw [hr] at hle
      have hlt := Window.pending_advance_lt_of_le hpos hle
      obtain ⟨u, hu⟩ := ih _ (hm ▸ hlt) h rfl
      exact ⟨u, .later hw hr hu⟩

/-- With `n` levels for each statement, a program starts with `ts`, and its first malformed
statement fails at the token `t`. -/
inductive FailsProgram (n : Nat) : List Token → Token → Fault → Prop
  | here {ts : List Token} {t : Token} {f : Fault} : (ts.headD t).kind ≠ .eof →
      FailsStmt n ts t f → FailsProgram n ts t f
  | later {x : Sentence} {ts : List Token} {t : Token} {f : Fault} : x.value.WellShaped →
      x.value.levels ≤ n → x.StopsBefore (ts.headD t).kind → FailsProgram n ts t f →
      FailsProgram n (x.tokens ++ ts) t f

namespace FailsProgram

theorem exists_of_firstFault
    (h : FirstFault (standard.readStmt (standard.readExpr n)) w d v) :
    ∃ ts t, FailsProgram n ts t d.fault ∧ w.FailsBehind ts t d v := by
  induction h with
  | here hw hr =>
    obtain ⟨ts, t, hf, hb⟩ := FailsStmt.exists_of_readStmt hr
    exact ⟨ts, t, .here (hb.starts.current_eq_headD ▸ hw) hf, hb⟩
  | later hw hr _ ih =>
    obtain ⟨ts, t, hf, hb⟩ := ih
    obtain ⟨x, hx, -, hn⟩ := Sentence.exists_of_readStmt hr
    have hstop := hx.stops
    rw [← Window.current_advance, hb.starts.current_eq_headD] at hstop
    exact ⟨x.tokens ++ ts, t, .later hx.shaped hn hstop hf, .append hx.covers hb⟩

theorem exists_error_mem (h : FailsProgram n ts t f) (hw : w.Starts (ts ++ [t])) :
    ∃ d, .error d ∈ (readAll (standard.readStmt (standard.readExpr n)) w).1 := by
  induction h generalizing w with
  | @here ts t f ht hf =>
    obtain ⟨v, hv⟩ := hf.exists_run hw
    rw [readAll_of_error (hw.current_eq_headD ▸ ht) hv]
    exact ⟨_, List.mem_cons_self⟩
  | @later x ts t f hg hn hs _ ih =>
    rw [List.append_assoc, Window.starts_append_iff] at hw
    obtain ⟨v, hc⟩ := hw.1.covers x.tokens_ne_nil
    have hrest := hw.2
    rw [hc.after_length] at hrest
    have hx : x.Reading w v := ⟨hg, hc, by
      rw [← Window.current_advance, hrest.current_eq_headD]
      exact hs⟩
    obtain ⟨d, hd⟩ := ih hrest
    rw [readAll_of_ok hx.kind_current_ne_eof (Sentence.run_readStmt_of_reading hx hn)]
    exact ⟨d, List.mem_cons_of_mem _ hd⟩

theorem firstKind_of_flatMap {xs : List Sentence}
    (h : xs.flatMap Sentence.tokens = t :: ts) : Sentence.firstKind xs = t.kind := by
  cases xs with
  | nil => cases h
  | cons x xs =>
    obtain ⟨us, hus⟩ := x.tokens_eq_head_cons
    rw [List.flatMap_cons, hus, List.cons_append] at h
    exact congrArg Token.kind (List.cons.inj h).1

theorem stopsBefore_identifier (x : Sentence) : x.StopsBefore .identifier := by
  cases x with
  | expr g s hs =>
    cases s with
    | none => exact ⟨by decide, rfl⟩
    | some s => trivial
  | _ => trivial

theorem exists_completion (h : FailsProgram n ts t f) (hf : f ≠ .tooDeep nestingLimit)
    (hn : 0 < n) :
    ∃ (xs : List Sentence) (us : List Token), xs.flatMap Sentence.tokens = ts ++ us ∧
      Sentence.Separated xs ∧ (∀ x ∈ xs, x.value.levels ≤ n) ∧
      (ts = [] → Sentence.firstKind xs = .identifier) := by
  induction h with
  | here _ h =>
    obtain ⟨y, us, hy, hw, hl, hs, hhead⟩ := h.exists_completion hf hn
    exact ⟨[y], us, by simpa using hy, ⟨hw, hs _, trivial⟩, by simpa using hl, hhead⟩
  | @later x ts t f hg hlx hs _ ih =>
    obtain ⟨xs, us, hxs, hsep, hl, hhead⟩ := ih hf
    have hstop : x.StopsBefore (Sentence.firstKind xs) := by
      cases ts with
      | nil =>
        rw [hhead rfl]
        exact stopsBefore_identifier x
      | cons u ts =>
        rw [firstKind_of_flatMap hxs]
        exact hs
    refine ⟨x :: xs, us, by simp [hxs], ⟨hg, hstop, hsep⟩, List.forall_mem_cons.mpr ⟨hlx, hl⟩, ?_⟩
    intro hnil
    exact absurd (List.append_eq_nil_iff.mp hnil).1 x.tokens_ne_nil

theorem viablePrefix (h : FailsProgram nestingLimit ts t f) (hf : f ≠ .tooDeep nestingLimit) :
    ViablePrefix ts := by
  obtain ⟨xs, us, hxs, hsep, hl, -⟩ := h.exists_completion hf (by decide)
  refine ⟨us, ?_, ?_⟩
  · intro u hu
    rw [← hxs] at hu
    obtain ⟨x, -, hx⟩ := List.mem_flatMap.mp hu
    exact Sentence.kind_ne_eof_of_mem_tokens hx
  · intro τ _ a e ha he
    rw [← hxs] at ha
    have hall := Sentence.readAll_of_separated hsep ha.shows he hl
    rw [Parsed.isOk_iff, parse_outcomes, hall]
    intro o ho
    obtain ⟨x, -, rfl⟩ := List.mem_map.mp ho
    exact ⟨x.stmt, rfl⟩

theorem deadPrefix (h : FailsProgram nestingLimit ts t f) : DeadPrefix (ts ++ [t]) := by
  intro τ _ a ha hok
  rw [← take_ofSource] at ha
  obtain ⟨d, hd⟩ := h.exists_error_mem ha
  rw [Parsed.isOk_iff, parse_outcomes] at hok
  obtain ⟨s, hs⟩ := hok _ hd
  cases hs

end FailsProgram

/-- The first diagnostic of a source, if it is not about levels, is raised on the first token with
which the source stops being the start of a program: the next token where another one had to
follow, the current token otherwise. -/
theorem parse_first_diagnostic {s : σ} (hd : (parse s).diagnostics.head? = some d)
    (hdeep : ∀ n, d.fault ≠ .tooDeep n) :
    ∃ v i, FirstFault (standard.readStmt (standard.readExpr nestingLimit)) (.ofSource s) d v ∧
      (Window.ofSource s).after i = v.after d.fault.ahead ∧
      d.position = (nth i s).span.start ∧
      ViablePrefix (take i s) ∧ DeadPrefix (take (i + 1) s) := by
  obtain ⟨v, hv⟩ := FirstFault.exists_of_head? (k := (parse s).pulled) hd
  obtain ⟨ts, t, hf, hb⟩ := FailsProgram.exists_of_firstFault hv
  have hall : take (ts.length + 1) s = ts ++ [t] := by
    have hs : (Window.ofSource s).take (ts ++ [t]).length = ts ++ [t] := hb.starts
    rw [take_ofSource, List.length_append] at hs
    exact hs
  have hsplit := hall
  rw [take_eq_map, List.range_succ, List.map_append, ← take_eq_map] at hsplit
  obtain ⟨hts, ht⟩ := List.append_inj' hsplit rfl
  obtain rfl : nth ts.length s = t := List.head_eq_of_cons_eq ht
  refine ⟨v, ts.length, hv, hb.window, hb.position, ?_, ?_⟩
  · rw [hts]
    exact hf.viablePrefix (hdeep _)
  · rw [hall]
    exact hf.deadPrefix

/-- In `let x = (a; b` the parenthesis is missed at the semicolon, up to which a program could go
on. -/
theorem parse_first_diagnostic_group :
    let name (s : String) : Token := .unplaced .identifier s
    let s := Replay.ofList [.unplaced .kwLet "let", name "x", .unplaced .assign "=",
      .unplaced .openParen "(", name "a", .unplaced .semicolon ";", name "b", .endAt .unknown]
    let d : Diagnostic := ⟨.unexpected .closeParen .semicolon, .unknown⟩
    (parse s).diagnostics.head? = some d ∧ (∀ n, d.fault ≠ .tooDeep n) ∧
      ∃ v i, FirstFault (standard.readStmt (standard.readExpr nestingLimit)) (.ofSource s) d v ∧
        (Window.ofSource s).after i = v.advance ∧
        ViablePrefix (take i s) ∧ DeadPrefix (take (i + 1) s) := by
  intro name s d
  have hd : (parse s).diagnostics.head? = some d := by decide +kernel
  have hdeep : ∀ n, d.fault ≠ .tooDeep n := by simp [d]
  obtain ⟨v, i, hv, hi, -, hviable, hdead⟩ := parse_first_diagnostic hd hdeep
  exact ⟨hd, hdeep, v, i, hv, hi, hviable, hdead⟩

end MonkeySyntax
