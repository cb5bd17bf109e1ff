import Mathlib.Data.List.Induction
import Mathlib.Data.Nat.Digits.Defs
import MonkeySyntax.Proofs.MaximalMunch
import MonkeySyntax.Proofs.Pieces

/-! Integers are exact. The value of a literal is the number that its digits stand for in decimal
notation, with its sign, or it is rejected because that number does not fit into 64 bits. -/
namespace MonkeySyntax

open Grammar Text

namespace Numeral

/-- The number that a row of digits stands for in decimal notation. -/
def decimal (ds : List Char) : Nat :=
  Nat.ofDigits 10 (ds.reverse.map fun d => d.toNat - '0'.toNat)

structure IsDigits (ds : List Char) : Prop where
  ne_nil : ds ≠ []
  isDigit : ∀ d ∈ ds, d.isDigit

/-- A numeral is a row of digits with at most one sign before it. -/
inductive Denotes : List Char → Int → Prop
  | unsigned {ds : List Char} : IsDigits ds → Denotes ds (decimal ds)
  | plus {ds : List Char} : IsDigits ds → Denotes ('+' :: ds) (decimal ds)
  | minus {ds : List Char} : IsDigits ds → Denotes ('-' :: ds) (-decimal ds)

/-- The literal denotes `v`, and `v` fits into 64 bits. -/
structure Valued (literal : String) (v : Int) : Prop where
  denotes : Denotes literal.toList v
  lower : -2 ^ 63 ≤ v
  upper : v ≤ 2 ^ 63 - 1

variable {ds cs : List Char} {d : Char} {n : Nat} {v : Int} {s : String}

theorem isDigits_iff : IsDigits ds ↔ ds ≠ [] ∧ ds.all Char.isDigit := by
  rw [List.all_eq_true]
  exact ⟨fun h => ⟨h.ne_nil, h.isDigit⟩, fun h => ⟨h.1, h.2⟩⟩

instance (ds : List Char) : Decidable (IsDigits ds) := decidable_of_iff _ isDigits_iff.symm

theorem decimal_concat (ds : List Char) (d : Char) :
    decimal (ds ++ [d]) = (d.toNat - '0'.toNat) + 10 * decimal ds := by
  rw [decimal, List.reverse_concat, List.map_cons, Nat.ofDigits_cons, decimal]

theorem digitsValue_concat (ds : List Char) (d : Char) :
    digitsValue (ds ++ [d]) = 10 * digitsValue ds + (d.toNat - '0'.toNat) := by
  rw [digitsValue, List.foldl_append, digitsValue, List.foldl_cons, List.foldl_nil]

/-- Digits are counted from the first to the last, and their places from the last to the first. -/
theorem digitsValue_eq_decimal (ds : List Char) : digitsValue ds = decimal ds := by
  induction ds using List.reverseRecOn with
  | nil => rfl
  | append_singleton ds d ih => rw [digitsValue_concat, decimal_concat, ih, Nat.add_comm]

theorem natural?_eq_some_iff : natural? ds = some n ↔ IsDigits ds ∧ n = decimal ds := by
  rw [natural?, Option.ite_none_right_eq_some, isDigits_iff, digitsValue_eq_decimal,
    Option.some.injEq]
  exact and_congr_right' eq_comm

theorem IsDigits.natural? (h : IsDigits ds) : natural? ds = some (decimal ds) :=
  natural?_eq_some_iff.mpr ⟨h, rfl⟩

theorem IsDigits.signed? (h : IsDigits ds) : signed? ds = some (decimal ds : Int) := by
  have hmap : (Numeral.natural? ds).map Int.ofNat = some (decimal ds : Int) := by
    rw [h.natural?]
    rfl
  unfold Numeral.signed?
  split
  · exact absurd (h.isDigit '+' List.mem_cons_self) (by decide)
  · exact absurd (h.isDigit '-' List.mem_cons_self) (by decide)
  · exact hmap

theorem signed?_eq_some_iff : signed? cs = some v ↔ Denotes cs v := by
  constructor
  · intro h
    unfold signed? at h
    split at h <;> obtain ⟨n, hn, rfl⟩ := Option.map_eq_some_iff.mp h <;>
      obtain ⟨hds, rfl⟩ := natural?_eq_some_iff.mp hn
    · exact .plus hds
    · exact .minus hds
    · exact .unsigned hds
  · intro h
    cases h with
    | unsigned h => exact h.signed?
    | plus h => rw [signed?, h.natural?]; rfl
    | minus h => rw [signed?, h.natural?]; rfl

theorem value?_eq_some_iff_valued : value? s = some v ↔ Valued s v := by
  rw [value?_eq_some_iff, signed?_eq_some_iff]
  constructor
  · rintro ⟨h, hlo, hhi⟩
    exact ⟨h, hlo, hhi⟩
  · rintro ⟨h, hlo, hhi⟩
    exact ⟨h, hlo, hhi⟩

theorem value?_eq_none_iff : value? s = none ↔ ¬∃ v, Valued s v := by
  rw [Option.eq_none_iff_forall_ne_some, not_exists]
  exact forall_congr' fun v => not_congr value?_eq_some_iff_valued

/-- Of a literal without a sign only the size matters. -/
theorem IsDigits.value?_eq_some (h : IsDigits s.toList) (hle : decimal s.toList ≤ 2 ^ 63 - 1) :
    value? s = some (decimal s.toList : Int) :=
  value?_eq_some_iff_valued.mpr ⟨.unsigned h, by omega, by omega⟩

theorem IsDigits.value?_eq_none (h : IsDigits s.toList) (hlt : 2 ^ 63 - 1 < decimal s.toList) :
    value? s = none := by
  rw [Option.eq_none_iff_forall_ne_some]
  intro v hv
  obtain ⟨hsigned, -, hhi⟩ := value?_eq_some_iff.mp hv
  obtain rfl : (decimal s.toList : Int) = v := Option.some.inj (h.signed?.symm.trans hsigned)
  omega

end Numeral

open Numeral

namespace Parser

variable {σ : Type} [TokenSource σ] {p q : Parser σ} {v : Int} {e : Expr} {d : Diagnostic}

theorem operand_integer_of_eq_some (h : value? p.current.literal = some v) :
    p.operand .integer = (.ok (.int p.current v), p) := by
  have hr := OperandRule.run_readInteger_eq_ok_iff.mpr ⟨v, h, rfl, rfl⟩
  rw [operand, run, OperandRule.read, hr]
  rfl

theorem operand_integer_of_eq_none (h : value? p.current.literal = none) :
    p.operand .integer = (.error ⟨.badInteger p.current.literal, p.position⟩, p) := by
  have hr := OperandRule.run_readInteger_of_eq_none h
  rw [operand, run, OperandRule.read, hr]
  rfl

theorem operand_integer_eq_ok_iff :
    p.operand .integer = (.ok e, q) ↔
      q = p ∧ ∃ v, Valued p.current.literal v ∧ e = .int p.current v := by
  constructor
  · intro h
    cases hv : value? p.current.literal with
    | none =>
      rw [operand_integer_of_eq_none hv] at h
      cases h
    | some v =>
      rw [operand_integer_of_eq_some hv] at h
      cases h
      exact ⟨rfl, v, value?_eq_some_iff_valued.mp hv, rfl⟩
  · rintro ⟨rfl, v, hv, rfl⟩
    exact operand_integer_of_eq_some (value?_eq_some_iff_valued.mpr hv)

theorem operand_integer_eq_error_iff :
    p.operand .integer = (.error d, q) ↔
      q = p ∧ (¬∃ v, Valued p.current.literal v) ∧
        d = ⟨.badInteger p.current.literal, p.position⟩ := by
  constructor
  · intro h
    cases hv : value? p.current.literal with
    | none =>
      rw [operand_integer_of_eq_none hv] at h
      cases h
      exact ⟨rfl, value?_eq_none_iff.mp hv, rfl⟩
    | some v =>
      rw [operand_integer_of_eq_some hv] at h
      cases h
  · rintro ⟨rfl, hv, rfl⟩
    exact operand_integer_of_eq_none (value?_eq_none_iff.mpr hv)

end Parser

section Digits

variable {σ : Type} [TokenSource σ] {s : σ} {t e : Token} {text file : String} {v : Int}

theorem Scanner.lexemes_of_isDigits (h : IsDigits text.toList) :
    (ofText text file).lexemes =
      [⟨.integer, text, .ofBytes file 0 (utf8Length text.toList)⟩] := by
  cases hcs : text.toList with
  | nil => exact absurd hcs h.ne_nil
  | cons c cs =>
    rw [hcs] at h
    obtain ⟨hc, hrest⟩ := List.forall_mem_cons.mp h.isDigit
    have hhead : Scan.headToken c cs = (.integer, cs.length) := by
      rw [Scan.headToken_of_digit (Scan.not_isWordStart_of_isDigit hc) hc,
        List.takeWhile_eq_self_iff.mpr hrest]
    have htext : String.ofList (c :: cs) = text := by rw [← hcs, String.ofList_toList]
    rw [ofText, hcs, lexemes_token (Scan.not_isBlank_of_isDigit hc), hhead, List.take_length,
      List.drop_length, lexemes_nil, htext]

/-- A source of one integer alone is a program of one statement. -/
theorem parse_of_integer (hs : TokenSource.Gives s [t] e) (he : e.kind = .eof)
    (hk : t.kind = .integer) (hv : value? t.literal = some v) :
    (parse s).program.statements = [.expr t (.int t v)] ∧ (parse s).diagnostics = [] := by
  let x : Sentence := .expr (.atom t (.int t v) (Expr.ofToken?_eq_some_iff.mpr (.number hk hv)))
    none (by simp)
  have hx : Sentence.Separated [x] := ⟨trivial, ⟨by decide, by decide⟩, trivial⟩
  have hlevels : x.value.levels ≤ nestingLimit := by
    change 1 ≤ nestingLimit
    decide
  obtain ⟨hprogram, hnone⟩ :=
    Sentence.parse_of_separated hx hs he (List.forall_mem_singleton.mpr hlevels)
  exact ⟨congrArg Program.statements hprogram, hnone⟩

theorem parse_of_badInteger (hs : TokenSource.Gives s [t] e) (he : e.kind = .eof)
    (hk : t.kind = .integer) (hv : value? t.literal = none) :
    (parse s).program.statements = [] ∧
      (parse s).diagnostics = [⟨.badInteger t.literal, t.span.start⟩] := by
  have hw := hs.shows
  have hcurrent : (Window.ofSource s).current = t := hw.current_eq
  have hfails : FailsStmt nestingLimit [] t (.badInteger t.literal) :=
    .expr (by rw [List.headD_nil, hk]; rfl) (.number hk hv)
  obtain ⟨u, hu⟩ := hfails.exists_run (Window.starts_cons_iff.mpr ⟨hcurrent, Window.starts_nil _⟩)
  obtain ⟨m, hm, -⟩ := exists_skipStatement_of_error hu
  -- The statement is left at the end token, which comes again behind it.
  have hlast : u.skipStatement.advance.current.kind = .eof := by
    have hnext : (Window.ofSource s).nth (m + 1) = e := hw (m + 1)
    rw [hm, ← Window.after_succ]
    exact (congrArg Token.kind hnext).trans he
  have houtcomes : (parse s).outcomes = [.error ⟨.badInteger t.literal, t.span.start⟩] := by
    rw [parse_outcomes, readAll_of_error (by rw [hcurrent, hk]; decide) hu, readAll_of_eof hlast]
  rw [Parsed.program, Parsed.diagnostics, houtcomes]
  exact ⟨rfl, rfl⟩

end Digits

/-- An integer is read at the current token exactly if its literal is a numeral, with at most one
sign, whose value fits into 64 bits. It has that value, it is written as the literal, and otherwise
the literal is at fault; the parser stays as it is. So a text of digits is one statement with their
number or, from `2 ^ 63` on, one diagnostic. -/
theorem integers_exact :
    (∀ {σ : Type} [TokenSource σ] (p q : Parser σ),
      (∀ e, p.operand .integer = (.ok e, q) ↔
        q = p ∧ ∃ v, Valued p.current.literal v ∧ e = .int p.current v) ∧
      (∀ d, p.operand .integer = (.error d, q) ↔
        q = p ∧ (¬∃ v, Valued p.current.literal v) ∧
          d = ⟨.badInteger p.current.literal, p.position⟩) ∧
      ∀ e, p.operand .integer = (.ok e, q) → e.render = p.current.literal) ∧
    ∀ text file : String, IsDigits text.toList →
      let t : Token := ⟨.integer, text, .ofBytes file 0 (utf8Length text.toList)⟩
      (decimal text.toList ≤ 2 ^ 63 - 1 →
        (parseText text file).program.statements = [.expr t (.int t (decimal text.toList))] ∧
          (parseText text file).diagnostics = []) ∧
      (2 ^ 63 - 1 < decimal text.toList →
        (parseText text file).program.statements = [] ∧
          (parseText text file).diagnostics = [⟨.badInteger text, ⟨0, file⟩⟩]) := by
  constructor
  · intro σ _ p q
    refine ⟨fun e => Parser.operand_integer_eq_ok_iff, fun d => Parser.operand_integer_eq_error_iff,
      fun e he => ?_⟩
    obtain ⟨-, v, -, rfl⟩ := Parser.operand_integer_eq_ok_iff.mp he
    rfl
  · intro text file h t
    have hs := Scanner.gives_lexemes (Scanner.ofText text file)
    rw [Scanner.lexemes_of_isDigits h] at hs
    exact ⟨fun hle => parse_of_integer hs rfl rfl (h.value?_eq_some hle),
      fun hlt => parse_of_badInteger hs rfl rfl (h.value?_eq_none hlt)⟩

/-- At both ends of the range: the largest integer, with zeros before it, the number after it, and
the smallest integer, which no text has as one token. -/
theorem integers_exact_limits :
    let largest := "009223372036854775807"
    let above := "9223372036854775808"
    let t : Token := ⟨.integer, largest, .ofBytes "f" 0 21⟩
    let p := Parser.ofSource
      (Replay.ofList [.unplaced .minus "-9223372036854775808", .endAt .unknown])
    IsDigits largest.toList ∧
      (parseText largest "f").program.statements = [.expr t (.int t 9223372036854775807)] ∧
      IsDigits above.toList ∧
      (parseText above "f").diagnostics = [⟨.badInteger above, ⟨0, "f"⟩⟩] ∧
      p.operand .integer = (.ok (.int p.current (-9223372036854775808)), p) := by
  intro largest above t p
  have hl : IsDigits largest.toList := by decide
  have hb : IsDigits above.toList := by decide
  have hlargest : decimal largest.toList = 9223372036854775807 := by decide +kernel
  have habove : decimal above.toList = 9223372036854775808 := by decide +kernel
  have hlength : utf8Length largest.toList = 21 := by decide +kernel
  have hliteral : p.current.literal.toList = '-' :: above.toList := by decide +kernel
  have hstatement := ((integers_exact.2 largest "f" hl).1 (Nat.le_of_eq hlargest)).1
  rw [hlargest, hlength] at hstatement
  have hdiagnostic := ((integers_exact.2 above "f" hb).2 (by omega)).2
  have hvalued : Valued p.current.literal (-decimal above.toList) :=
    ⟨by rw [hliteral]; exact .minus hb, by omega, by omega⟩
  have hsmallest := ((integers_exact.1 p p).1 _).mpr ⟨rfl, _, hvalued, rfl⟩
  rw [habove] at hsmallest
  exact ⟨hl, hstatement, hb, hdiagnostic, hsmallest⟩

end MonkeySyntax
