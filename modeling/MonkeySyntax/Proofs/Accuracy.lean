import Mathlib.Data.List.Forall2
import Mathlib.Data.List.GetD
import Mathlib.Data.List.Perm.Subperm
import MonkeySyntax.Proofs.MaximalMunch
import MonkeySyntax.Proofs.Pieces

/-! Diagnostics say what is wrong with a token, and they come in the order of the source, no two of
them from one segment of it. A segment ends with its semicolon, the last one with the source. -/
namespace MonkeySyntax

open Grammar Text Window

open TokenSource (Gives nth)

variable {σ : Type} [TokenSource σ] {w v : Window σ} {n : Nat} {p : Power} {ts : List Token}
  {t e : Token} {f : Fault} {d : Diagnostic}

/-- What the fault says is true of the token. -/
def Fault.TrueOf : Fault → Token → Prop
  | unexpected expected found, t => found = t.kind ∧ expected ≠ t.kind ∧
    expected ∈ [.identifier, .assign, .semicolon, .closeParen]
  | noOperand kind, t => kind = t.kind ∧
    kind ∉ [.identifier, .integer, .kwTrue, .kwFalse, .bang, .minus, .openParen]
  | noOperator _, _ => False
  | badInteger literal, t => literal = t.literal ∧ t.kind = .integer ∧
    Numeral.value? literal = none
  | tooDeep limit, _ => limit = 128

theorem Grammar.standard_operand_eq_none_iff {k : TokenKind} :
    standard.operand k = none ↔
      k ∉ [.identifier, .integer, .kwTrue, .kwFalse, .bang, .minus, .openParen] := by
  cases k <;> simp [standard]

theorem FailsExpr.trueOf (h : FailsExpr n p ts t f) : f.TrueOf t := by
  induction h with
  | level => rfl
  | operand hk => exact ⟨rfl, standard_operand_eq_none_iff.mp hk⟩
  | number hk hv => exact ⟨rfl, hk, hv⟩
  | unary _ _ _ ih => exact ih
  | group _ _ ih => exact ih
  | closing _ _ _ _ hc => exact ⟨rfl, hc.symm, by decide⟩
  | right _ _ _ _ _ _ _ ih => exact ih

theorem FailsValue.trueOf {k : TokenKind} (hk : k ∈ [.identifier, .assign, .semicolon, .closeParen])
    (h : FailsValue n k ts t f) : f.TrueOf t := by
  cases h with
  | inside h => exact h.trueOf
  | behind _ _ _ hne => exact ⟨rfl, hne.symm, hk⟩

theorem FailsStmt.trueOf (h : FailsStmt n ts t f) : f.TrueOf t := by
  cases h with
  | name _ hn => exact ⟨rfl, hn.symm, by decide⟩
  | equals _ _ ha => exact ⟨rfl, ha.symm, by decide⟩
  | binding _ _ _ hf => exact hf.trueOf (by decide)
  | ret _ hf => exact hf.trueOf (by decide)
  | expr _ hf => exact hf.trueOf

/-- The number of the segment that token number `i` is in: that of the semicolons before it. -/
def segment (ts : List Token) (i : Nat) : Nat :=
  (ts.take i).countP fun t => t.kind = .semicolon

theorem segment_le_countP (ts : List Token) (i : Nat) :
    segment ts i ≤ ts.countP fun t => t.kind = .semicolon :=
  (List.take_sublist i ts).countP_le

theorem segment_lt_segment {i j m : Nat} (him : i ≤ m) (hmj : m < j) (hm : ts[m]? = some t)
    (ht : t.kind = .semicolon) : segment ts i < segment ts j := by
  have hsplit : ts.take j = ts.take i ++ (ts.drop i).take (j - i) := by
    rw [← List.take_add, Nat.add_sub_cancel' (by omega)]
  have hmem : t ∈ (ts.drop i).take (j - i) := by
    apply List.mem_of_getElem? (i := m - i)
    rw [List.getElem?_take_of_lt (by omega), List.getElem?_drop, Nat.add_sub_cancel' him, hm]
  have hpos : 0 < ((ts.drop i).take (j - i)).countP fun t => t.kind = .semicolon :=
    List.countP_pos_iff.mpr ⟨t, hmem, by simp [ht]⟩
  unfold segment
  rw [hsplit, List.countP_append]
  omega

theorem length_le_of_pairwise_lt {l : List Nat} (h : l.Pairwise (· < ·)) (hn : ∀ i ∈ l, i ≤ n) :
    l.length ≤ n + 1 := by
  have hsub : l ⊆ List.range (n + 1) := fun i hi =>
    List.mem_range.mpr (Nat.lt_succ_of_le (hn i hi))
  have hle := (List.subperm_of_subset (h.imp Nat.ne_of_lt) hsub).length_le
  rwa [List.length_range] at hle

namespace Window

theorem FailsBehind.nth_eq (h : w.FailsBehind ts t d v) : w.nth ts.length = t :=
  (starts_cons_iff.mp (starts_append_iff.mp h.starts).2).1

/-- Come to token number `o` of those ahead, the loop over statements raises the diagnostics `ds` on
the tokens with the given numbers. A malformed statement is left at a semicolon or at the end, which
is not before the token at fault. -/
inductive Raises (w : Window σ) : Nat → List Diagnostic → List Nat → Prop
  | done {o : Nat} : (w.nth o).kind = .eof → Raises w o [] []
  | statement {o m : Nat} {ds : List Diagnostic} {places : List Nat} : (w.nth o).kind ≠ .eof →
      o < m → Raises w m ds places → Raises w o ds places
  | fault {o i m : Nat} {d : Diagnostic} {ds : List Diagnostic} {places : List Nat} :
      (w.nth o).kind ≠ .eof → o ≤ i → i ≤ m → (∀ j, o ≤ j → j < m → (w.nth j).kind ≠ .eof) →
      (w.nth m).kind = .semicolon ∨ (w.nth m).kind = .eof →
      d.position = (w.nth i).span.start → d.fault.TrueOf (w.nth i) →
      Raises w (m + 1) ds places → Raises w o (d :: ds) (i :: places)

end Window

/-- A malformed statement that starts at token number `o` fails at a token up to its semicolon. -/
theorem exists_fault {o : Nat}
    (h : (standard.readStmt (standard.readExpr n)).run (w.after o) = (.error d, v)) :
    ∃ i m, v.skipStatement.advance = w.after (m + 1) ∧ o ≤ i ∧ i ≤ m ∧
      (∀ j, o ≤ j → j < m → (w.nth j).kind ≠ .eof) ∧
      ((w.nth m).kind = .semicolon ∨ (w.nth m).kind = .eof) ∧
      d.position = (w.nth i).span.start ∧ d.fault.TrueOf (w.nth i) := by
  obtain ⟨ts, t, hf, hb⟩ := FailsStmt.exists_of_readStmt h
  obtain ⟨m, hm, hbefore, hat⟩ := exists_skipStatement_of_error h
  have ht : w.nth (o + ts.length) = t := by
    rw [← nth_after, hb.nth_eq]
  have hle : ts.length ≤ m := by
    apply Nat.not_lt.mp
    intro hlt
    have hk := hf.kind_of_mem _ (hb.starts.of_append.nth_mem hlt)
    exact hat.elim hk.2 hk.1
  refine ⟨o + ts.length, o + m, ?_, Nat.le_add_right _ _, Nat.add_le_add_left hle o, ?_, ?_, ?_, ?_⟩
  · rw [hm, ← after_add, ← after_succ]
  · intro j hoj hj
    have hk := (hbefore (j - o) (by omega)).1
    rwa [nth_after, Nat.add_sub_cancel' hoj] at hk
  · rwa [nth_after] at hat
  · rw [ht, hb.position]
  · rw [ht]
    exact hf.trueOf

theorem exists_raises (n : Nat) (w : Window σ) (o k : Nat) :
    ∃ places, w.Raises o
      (Parsed.mk (readAll (standard.readStmt (standard.readExpr n)) (w.after o)).1 k).diagnostics
      places := by
  -- Each turn of the loop leaves less to come.
  induction hm : (w.after o).pending using Nat.strongRecOn generalizing o with
  | _ _ ih =>
    by_cases hw : (w.after o).current.kind = .eof
    · rw [readAll_of_eof hw]
      exact ⟨[], .done hw⟩
    have hlt := pending_readPiece_lt (standard.readStmt (standard.readExpr n)) hw
    have hfwd := (standard.readStmt (standard.readExpr n)).forward (w.after o)
    unfold readPiece at hlt
    rcases hr : (standard.readStmt (standard.readExpr n)).run (w.after o) with ⟨r, v⟩
    rw [hr] at hlt hfwd
    cases r with
    | ok s =>
      obtain ⟨j, rfl⟩ := hfwd.exists_after
      have hnext : ((w.after o).after j).advance = w.after (o + j + 1) := by
        rw [← after_add, ← after_succ]
      rw [readAll_of_ok hw hr, hnext]
      simp only [hnext, hm] at hlt
      obtain ⟨places, hplaces⟩ := ih _ hlt (o + j + 1) rfl
      exact ⟨places, .statement hw (by omega) hplaces⟩
    | error d =>
      obtain ⟨i, m, hnext, hoi, him, hbefore, hat, hpos, htrue⟩ := exists_fault hr
      rw [readAll_of_error hw hr, hnext]
      simp only [hnext, hm] at hlt
      obtain ⟨places, hplaces⟩ := ih _ hlt (m + 1) rfl
      exact ⟨i :: places, .fault hw hoi him hbefore hat hpos htrue hplaces⟩

namespace Window.Raises

variable {o : Nat} {ds : List Diagnostic} {places : List Nat}

theorem forall₂ (h : w.Raises o ds places) :
    List.Forall₂ (fun d i => d.position = (w.nth i).span.start ∧ d.fault.TrueOf (w.nth i))
      ds places := by
  induction h with
  | done => exact .nil
  | statement _ _ _ ih => exact ih
  | fault _ _ _ _ _ hpos htrue _ ih => exact .cons ⟨hpos, htrue⟩ ih

theorem exists_of_mem (h : w.Raises o ds places) (hd : d ∈ ds) :
    ∃ i ∈ places, d.position = (w.nth i).span.start ∧ d.fault.TrueOf (w.nth i) := by
  induction h with
  | done => cases hd
  | statement _ _ _ ih => exact ih hd
  | @fault o i m d' ds places _ _ _ _ _ hpos htrue _ ih =>
    rcases List.mem_cons.mp hd with rfl | hd
    · exact ⟨i, List.mem_cons_self, hpos, htrue⟩
    · obtain ⟨j, hj, hfound⟩ := ih hd
      exact ⟨j, List.mem_cons_of_mem i hj, hfound⟩

theorem map_position (h : w.Raises o ds places) :
    ds.map Diagnostic.position = places.map fun i => (w.nth i).span.start := by
  induction h with
  | done => rfl
  | statement _ _ _ ih => exact ih
  | fault _ _ _ _ _ hpos _ _ ih => rw [List.map_cons, List.map_cons, hpos, ih]

theorem length_eq (h : w.Raises o ds places) : ds.length = places.length :=
  h.forall₂.length_eq

theorem le_of_mem (h : w.Raises o ds places) : ∀ i ∈ places, o ≤ i := by
  induction h with
  | done => simp
  | statement _ hlt _ ih => exact fun i hi => Nat.le_trans (Nat.le_of_lt hlt) (ih i hi)
  | fault _ hoi him _ _ _ _ _ ih =>
    refine List.forall_mem_cons.mpr ⟨hoi, fun j hj => ?_⟩
    have := ih j hj
    omega

section Shows

variable (hw : w.Shows ts e) (he : e.kind = .eof) (hts : ∀ t ∈ ts, t.kind ≠ .eof)

include hw he hts

theorem eq_nil (h : w.Raises o ds places) (ho : ts.length ≤ o) : places = [] := by
  have hend : (w.nth o).kind = .eof := (hw.kind_nth_eq_eof_iff he hts).mpr ho
  cases h with
  | done => rfl
  | statement hk => exact absurd hend hk
  | fault hk => exact absurd hend hk

theorem le_length (h : w.Raises o ds places) : ∀ i ∈ places, i ≤ ts.length := by
  induction h with
  | done => simp
  | statement _ _ _ ih => exact ih
  | @fault o i m d ds places ho hoi him hbefore _ _ _ _ ih =>
    refine List.forall_mem_cons.mpr ⟨Nat.le_trans him (Nat.not_lt.mp fun hlt => ?_), ih⟩
    have hle : o ≤ ts.length :=
      Nat.le_of_not_le fun hle => ho ((hw.kind_nth_eq_eof_iff he hts).mpr hle)
    exact hbefore _ hle hlt ((hw.kind_nth_eq_eof_iff he hts).mpr (Nat.le_refl _))

/-- Between two tokens at fault there is a semicolon, which may be the first of them. -/
theorem pairwise (h : w.Raises o ds places) :
    places.Pairwise fun i j => ∃ m, i ≤ m ∧ m < j ∧ (w.nth m).kind = .semicolon := by
  induction h with
  | done => exact .nil
  | statement _ _ _ ih => exact ih
  | @fault o i m d ds places _ _ him _ hat _ _ hlater ih =>
    refine .cons (fun j hj => ?_) ih
    rcases hat with hsemi | hend
    · exact ⟨m, him, hlater.le_of_mem j hj, hsemi⟩
    · have hle := (hw.kind_nth_eq_eof_iff he hts).mp hend
      rw [hlater.eq_nil hw he hts (Nat.le_succ_of_le hle)] at hj
      cases hj

theorem pairwise_lt (h : w.Raises o ds places) : places.Pairwise (· < ·) :=
  (h.pairwise hw he hts).imp fun ⟨_, him, hmj, _⟩ => Nat.lt_of_le_of_lt him hmj

theorem pairwise_segment (h : w.Raises o ds places) :
    (places.map (segment ts)).Pairwise (· < ·) := by
  rw [List.pairwise_map]
  refine (h.pairwise hw he hts).imp fun {i j} ⟨m, him, hmj, hm⟩ => ?_
  have hlt : m < ts.length := by
    apply Nat.not_le.mp
    intro hle
    rw [(hw.kind_nth_eq_eof_iff he hts).mpr hle] at hm
    cases hm
  rw [hw m, List.getD_eq_getElem _ _ hlt] at hm
  exact segment_lt_segment him hmj (List.getElem?_eq_getElem hlt) hm

end Shows
end Window.Raises

theorem exists_parse_raises (s : σ) :
    ∃ places, (Window.ofSource s).Raises 0 (parse s).diagnostics places :=
  exists_raises nestingLimit (.ofSource s) 0 (parse s).pulled

theorem Scanner.start_nth_lt {text file : String} (h : utf8Length text.toList ≤ maxOffset)
    {i j : Nat} (hij : i < j) (hj : j ≤ (ofText text file).lexemes.length) :
    (nth i (ofText text file)).span.start.offset <
      (nth j (ofText text file)).span.start.offset := by
  have hmax : 0 + utf8Length text.toList ≤ maxOffset := by rwa [Nat.zero_add]
  have htok : Tokenized file 0 text.toList (ofText text file).lexemes :=
    (tokenized_iff hmax).mpr rfl
  have hi : i < (ofText text file).lexemes.length := Nat.lt_of_lt_of_le hij hj
  have hmem := List.getElem_mem hi
  have hpos := htok.nonempty _ hmem
  rw [gives_lexemes _ i, gives_lexemes _ j, List.getD_eq_getElem _ _ hi]
  rcases Nat.lt_or_eq_of_le hj with hlt | rfl
  · rw [List.getD_eq_getElem _ _ hlt]
    exact Nat.lt_of_lt_of_le hpos (List.pairwise_iff_getElem.mp htok.ordered i j hi hlt hij)
  · have hend : (ofText text file).finish.span.start.offset = 0 + utf8Length text.toList :=
      clampOffset_of_le hmax
    rw [List.getD_eq_default _ _ (Nat.le_refl _), hend]
    exact Nat.lt_of_lt_of_le hpos (htok.placed _ hmem).stop_le

/-- Every diagnostic of a source is raised where a token starts, and what it says is true of that
token. The tokens at fault come one behind the other, each in a later segment, so there are not more
diagnostics than segments. In a text of less than four gigabytes their offsets go up. -/
theorem parse_diagnostics_accurate :
    (∀ {σ : Type} [TokenSource σ] (s : σ) (ts : List Token) (e : Token), Gives s ts e →
      (∀ t ∈ ts, t.kind ≠ .eof) → e.kind = .eof →
      ∃ places : List Nat, places.Pairwise (· < ·) ∧ (∀ i ∈ places, i ≤ ts.length) ∧
        (places.map (segment ts)).Pairwise (· < ·) ∧
        List.Forall₂ (fun d i => d.position = (nth i s).span.start ∧ d.fault.TrueOf (nth i s))
          (parse s).diagnostics places ∧
        (parse s).diagnostics.length ≤ (ts.countP fun t => t.kind = .semicolon) + 1) ∧
    ∀ text file : String, utf8Length text.toList ≤ maxOffset →
      ((parseText text file).diagnostics.map fun d => d.position.offset).Pairwise (· < ·) := by
  constructor
  · intro σ _ s ts e hs hts he
    obtain ⟨places, h⟩ := exists_parse_raises s
    have hseg := h.pairwise_segment hs.shows he hts
    have hcount : ∀ i ∈ places.map (segment ts), i ≤ ts.countP fun t => t.kind = .semicolon := by
      intro i hi
      obtain ⟨j, -, rfl⟩ := List.mem_map.mp hi
      exact segment_le_countP ts j
    have hlen := length_le_of_pairwise_lt hseg hcount
    rw [List.length_map, ← h.length_eq] at hlen
    refine ⟨places, h.pairwise_lt hs.shows he hts, h.le_length hs.shows he hts, hseg, ?_, hlen⟩
    simpa only [TokenSource.nth_ofSource] using h.forall₂
  · intro text file hmax
    obtain ⟨places, h⟩ := exists_parse_raises (Scanner.ofText text file)
    have hs := (Scanner.gives_lexemes (.ofText text file)).shows
    have heof := Scanner.kind_ne_eof_of_mem_lexemes (.ofText text file)
    have hoffsets := congrArg (List.map Position.offset) h.map_position
    rw [List.map_map, List.map_map] at hoffsets
    change ((parse (Scanner.ofText text file)).diagnostics.map
      (Position.offset ∘ Diagnostic.position)).Pairwise (· < ·)
    rw [hoffsets, List.pairwise_map]
    refine (h.pairwise_lt hs rfl heof).imp_of_mem fun {i j} _ hj hij => ?_
    simp only [Function.comp_apply, TokenSource.nth_ofSource]
    exact Scanner.start_nth_lt hmax hij (h.le_length hs rfl heof j hj)

/-- In `a let; ); 9223372036854775808` there is a fault in each of the three segments, the last one
before the end token. -/
theorem parse_diagnostics_accurate_segments :
    let semicolon : Token := .unplaced .semicolon ";"
    let ts := [.unplaced .identifier "a", .unplaced .kwLet "let", semicolon,
      .unplaced .closeParen ")", semicolon, .unplaced .integer "9223372036854775808"]
    let s := Replay.ofList (ts ++ [.endAt .unknown])
    (parse s).diagnostics.map Diagnostic.fault = [.unexpected .identifier .semicolon,
        .noOperand .closeParen, .badInteger "9223372036854775808"] ∧
      (∃ places : List Nat, (places.map (segment ts)).Pairwise (· < ·) ∧
        List.Forall₂ (fun d i => d.position = (nth i s).span.start ∧ d.fault.TrueOf (nth i s))
          (parse s).diagnostics places) ∧
      ((parseText "a let; ); 9223372036854775808" "f").diagnostics.map
        fun d => d.position.offset).Pairwise (· < ·) := by
  intro semicolon ts s
  have hts : ∀ t ∈ ts, t.kind ≠ .eof := by decide
  have hs : Gives s ts (.endAt .unknown) := TokenSource.gives_replay hts rfl
  obtain ⟨places, -, -, hseg, htrue, -⟩ := parse_diagnostics_accurate.1 s ts _ hs hts rfl
  exact ⟨by decide +kernel, ⟨places, hseg, htrue⟩,
    parse_diagnostics_accurate.2 "a let; ); 9223372036854775808" "f" (by decide +kernel)⟩

end MonkeySyntax
