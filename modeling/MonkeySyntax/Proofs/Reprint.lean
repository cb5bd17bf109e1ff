import MonkeySyntax.Command
import MonkeySyntax.Proofs.Lockstep
import MonkeySyntax.Proofs.Written

/-! Listings are read again as the programs they come from, unless the parentheses of the written
forms take more levels than there are. -/
namespace MonkeySyntax

open Grammar Text

/-- The statement without its places. An expression statement loses its token too; that of its value
stands in for it. -/
def Stmt.bare : Stmt → Stmt
  | binding t x e => (binding t x e).relocate Position.forget
  | ret t e => (ret t e).relocate Position.forget
  | expr _ e => (expr e.token e).relocate Position.forget

def Program.bare (p : Program) : Program := ⟨p.statements.map Stmt.bare⟩

theorem Expr.forget_relocate (φ : Position → Position) (e : Expr) :
    (e.relocate φ).relocate Position.forget = e.relocate Position.forget := by
  induction e with
  | unary t op e ih =>
    rw [relocate, relocate, relocate, ih]
    rfl
  | binary t op l r hl hr =>
    rw [relocate, relocate, relocate, hl, hr]
    rfl
  | _ => rfl

theorem Expr.token_relocate (φ : Position → Position) (e : Expr) :
    (e.relocate φ).token = e.token.relocate φ := by
  cases e <;> rfl

theorem Stmt.forget_relocate (φ : Position → Position) (s : Stmt) :
    (s.relocate φ).relocate Position.forget = s.relocate Position.forget := by
  cases s with
  | binding t x e =>
    rw [relocate, relocate, relocate, Expr.forget_relocate]
    rfl
  | _ =>
    rw [relocate, relocate, relocate, Expr.forget_relocate]
    rfl

theorem Stmt.bare_relocate (φ : Position → Position) (s : Stmt) : (s.relocate φ).bare = s.bare := by
  cases s with
  | expr t e =>
    simp only [relocate, bare, Expr.forget_relocate, Expr.token_relocate]
    rfl
  | _ =>
    simp only [relocate, bare, Expr.forget_relocate]
    rfl

theorem Program.bare_eq_of_forget {p q : Program}
    (h : p.statements.map (Stmt.relocate Position.forget) =
      q.statements.map (Stmt.relocate Position.forget)) : p.bare = q.bare := by
  have hbare : Stmt.bare ∘ Stmt.relocate Position.forget = Stmt.bare :=
    funext (Stmt.bare_relocate Position.forget)
  have hmap := congrArg (List.map Stmt.bare) h
  rw [List.map_map, List.map_map, hbare] at hmap
  exact congrArg Program.mk hmap

theorem Expr.render_relocate (φ : Position → Position) (e : Expr) :
    (e.relocate φ).render = e.render := by
  induction e with
  | unary t op e ih => rw [relocate, render, render, ih]
  | binary t op l r hl hr => rw [relocate, render, render, hl, hr]
  | _ => rfl

theorem Stmt.render_bare (s : Stmt) : s.bare.render = s.render := by
  cases s <;> simp [bare, relocate, render, Expr.render_relocate]

theorem Program.render_bare (p : Program) : p.bare.render = p.render := by
  unfold render bare
  rw [List.map_map]
  congr 2
  funext s
  exact s.render_bare

/-- A listing shows nothing that is lost without places. -/
theorem Program.listing_bare (p : Program) : p.bare.listing = p.listing := by
  unfold listing bare
  rw [List.map_map]
  congr 2
  funext s
  simp [Stmt.render_bare]

theorem Sentence.bare_stmt_written (x : Sentence) : x.written.stmt.bare = x.stmt.bare := by
  cases x <;> simp [written, stmt, Stmt.bare]

theorem Sentence.bare_map_written (xs : List Sentence) :
    Program.bare ⟨(xs.map written).map stmt⟩ = Program.bare ⟨xs.map stmt⟩ := by
  rw [Program.bare, Program.bare, List.map_map, List.map_map, List.map_map]
  congr 2
  funext x
  exact x.bare_stmt_written

/-- A text that is read without a diagnostic is a row of statements. -/
theorem exists_row {text file : String} (h : (parseText text file).isOk) :
    ∃ xs : List Sentence, xs.flatMap Sentence.tokens = (Scanner.ofText text file).lexemes ∧
      (parseText text file).program = ⟨xs.map Sentence.stmt⟩ := by
  have hs := Scanner.gives_lexemes (.ofText text file)
  unfold parseText at h
  rw [Parsed.isOk_iff, parse_outcomes] at h
  obtain ⟨xs, -, htokens, -, hout⟩ :=
    Sentence.exists_separated hs.shows rfl (Scanner.kind_ne_eof_of_mem_lexemes _) h
  exact ⟨xs, htokens, (Parsed.of_outcomes_eq_map hout).1⟩

/-- The statements of a text that is read without a diagnostic, with their tokens. -/
theorem exists_sentences {text file : String} (h : (parseText text file).isOk) :
    ∃ xs : List Sentence, (∀ t ∈ xs.flatMap Sentence.tokens, t.Spelled) ∧
      (parseText text file).program = ⟨xs.map Sentence.stmt⟩ := by
  obtain ⟨xs, htokens, hp⟩ := exists_row h
  refine ⟨xs, ?_, hp⟩
  rw [htokens]
  exact fun t ht => Scanner.spelled_of_mem_lexemes ht

def Sentence.replay (xs : List Sentence) : Replay :=
  .ofList ((xs.map written).flatMap tokens ++ [.endAt .unknown])

theorem Sentence.kind_ne_eof_of_mem_flatMap {xs : List Sentence} :
    ∀ t ∈ xs.flatMap tokens, t.kind ≠ .eof := by
  intro t ht
  obtain ⟨x, -, hx⟩ := List.mem_flatMap.mp ht
  exact kind_ne_eof_of_mem_tokens hx

theorem Sentence.gives_replay (xs : List Sentence) :
    TokenSource.Gives (replay xs) ((xs.map written).flatMap tokens) (.endAt .unknown) :=
  TokenSource.gives_replay kind_ne_eof_of_mem_flatMap rfl

/-- But for places, a text is read as the tokens that it spells. -/
theorem parseText_of_spells {text : String} {ts : List Token} (h : Spells text.toList ts)
    (hts : ∀ t ∈ ts, t.kind ≠ .eof) (file : String) :
    (parseText text file).program.bare =
        (parse (Replay.ofList (ts ++ [.endAt .unknown]))).program.bare ∧
      (parseText text file).diagnostics.map Diagnostic.fault =
        (parse (Replay.ofList (ts ++ [.endAt .unknown]))).diagnostics.map Diagnostic.fault := by
  have hs := Scanner.gives_lexemes (.ofText text file)
  obtain ⟨hp, hd⟩ := parse_of_bare_eq hs
    (TokenSource.gives_replay (e := .endAt .unknown) hts rfl)
    (Scanner.kind_ne_eof_of_mem_lexemes _) rfl (h file 0) rfl
  constructor
  · exact Program.bare_eq_of_forget hp
  · have hfault := congrArg (List.map Diagnostic.fault) hd
    rw [List.map_map, List.map_map] at hfault
    exact hfault

theorem parse_of_spells {xs : List Sentence} {text : String}
    (h : Spells text.toList ((xs.map Sentence.written).flatMap Sentence.tokens)) (file : String) :
    (parseText text file).program.bare = (parse (Sentence.replay xs)).program.bare ∧
      (parseText text file).diagnostics.map Diagnostic.fault =
        (parse (Sentence.replay xs)).diagnostics.map Diagnostic.fault :=
  parseText_of_spells h Sentence.kind_ne_eof_of_mem_flatMap file

theorem parse_listing {xs : List Sentence} (hxs : ∀ t ∈ xs.flatMap Sentence.tokens, t.Spelled)
    (file : String) :
    (parseText (Program.listing ⟨xs.map Sentence.stmt⟩) file).program.bare =
        (parse (Sentence.replay xs)).program.bare ∧
      (parseText (Program.listing ⟨xs.map Sentence.stmt⟩) file).diagnostics.map Diagnostic.fault =
        (parse (Sentence.replay xs)).diagnostics.map Diagnostic.fault :=
  parse_of_spells (Sentence.spells_listing hxs) file

theorem Sentence.levels_written (x : Sentence) :
    x.written.value.levels = x.stmt.value.writtenLevels := by
  rw [value_written, Grouped.levels_written, value_stmt]

theorem Sentence.parse_replay_of_le {xs : List Sentence}
    (h : ∀ s ∈ xs.map stmt, s.value.writtenLevels ≤ nestingLimit) :
    (parse (replay xs)).program.bare = Program.bare ⟨xs.map stmt⟩ ∧
      (parse (replay xs)).diagnostics = [] := by
  have hlev : ∀ x ∈ xs.map written, x.value.levels ≤ nestingLimit := by
    intro x hx
    obtain ⟨y, hy, rfl⟩ := List.mem_map.mp hx
    rw [levels_written]
    exact h y.stmt (List.mem_map_of_mem hy)
  obtain ⟨hp, hd⟩ := parse_of_separated (separated_written xs) (gives_replay xs) rfl hlev
  rw [hp]
  exact ⟨bare_map_written xs, hd⟩

theorem Sentence.exists_tooDeep_of_lt {xs : List Sentence}
    (h : ∃ s ∈ xs.map stmt, nestingLimit < s.value.writtenLevels) :
    ∃ d ∈ (parse (replay xs)).diagnostics, d.fault = .tooDeep nestingLimit := by
  obtain ⟨s, hs, hlt⟩ := h
  obtain ⟨y, hy, rfl⟩ := List.mem_map.mp hs
  rw [← levels_written] at hlt
  obtain ⟨d, hd, hf⟩ := exists_tooDeep_of_separated (separated_written xs)
    (gives_replay xs).shows rfl ⟨y.written, List.mem_map_of_mem hy, hlt⟩
  exact ⟨d, Parsed.mem_diagnostics_iff.mpr hd, hf⟩

/-- What is printed for a text is read again as the same program exactly if the written forms of its
expressions need no more levels than there are. It is then printed in the same way again; otherwise
some expression is nested too deep. -/
theorem parseText_listing {text file : String} (h : (parseText text file).isOk) (file' : String) :
    let p := (parseText text file).program
    let again := parseText p.listing file'
    ((again.isOk ∧ again.program.bare = p.bare) ↔
        ∀ s ∈ p.statements, s.value.writtenLevels ≤ nestingLimit) ∧
      ((∀ s ∈ p.statements, s.value.writtenLevels ≤ nestingLimit) →
        again.program.listing = p.listing) ∧
      ((∃ s ∈ p.statements, nestingLimit < s.value.writtenLevels) →
        ∃ d ∈ again.diagnostics, d.fault = .tooDeep nestingLimit) ∧
      ∀ path, Command.fileName path = file →
        (Command.parseResponse path text).stdout = p.listing := by
  intro p again
  obtain ⟨xs, hspelled, hp⟩ := exists_sentences h
  have hpx : p = ⟨xs.map Sentence.stmt⟩ := hp
  have hstmts : p.statements = xs.map Sentence.stmt := by rw [hpx]
  obtain ⟨hprog, hdiag⟩ : again.program.bare = (parse (Sentence.replay xs)).program.bare ∧
      again.diagnostics.map Diagnostic.fault =
        (parse (Sentence.replay xs)).diagnostics.map Diagnostic.fault := by
    have hl := parse_listing hspelled file'
    rw [← hpx] at hl
    exact hl
  have hshallow : (∀ s ∈ p.statements, s.value.writtenLevels ≤ nestingLimit) →
      again.isOk ∧ again.program.bare = p.bare := by
    intro hle
    rw [hstmts] at hle
    obtain ⟨hr, hnone⟩ := Sentence.parse_replay_of_le hle
    rw [hnone] at hdiag
    have hempty : again.diagnostics = [] := List.map_eq_nil_iff.mp hdiag
    refine ⟨by rw [Parsed.isOk, hempty]; rfl, ?_⟩
    rw [hprog, hr, hpx]
  have hdeep : (∃ s ∈ p.statements, nestingLimit < s.value.writtenLevels) →
      ∃ d ∈ again.diagnostics, d.fault = .tooDeep nestingLimit := by
    intro hlt
    rw [hstmts] at hlt
    obtain ⟨d, hd, hf⟩ := Sentence.exists_tooDeep_of_lt hlt
    have hmem : d.fault ∈ again.diagnostics.map Diagnostic.fault := by
      rw [hdiag]
      exact List.mem_map_of_mem hd
    obtain ⟨d', hd', hf'⟩ := List.mem_map.mp hmem
    exact ⟨d', hd', hf'.trans hf⟩
  refine ⟨⟨?_, hshallow⟩, ?_, hdeep, ?_⟩
  · rintro ⟨hok, -⟩ s hs
    apply Nat.not_lt.mp
    intro hlt
    obtain ⟨d, hd, -⟩ := hdeep ⟨s, hs, hlt⟩
    rw [Parsed.isOk, List.isEmpty_iff] at hok
    rw [hok] at hd
    cases hd
  · intro hle
    rw [← Program.listing_bare, (hshallow hle).2, Program.listing_bare]
  · rintro path rfl
    simp only [Command.parseResponse, Parsed.toExcept, h, if_true]
    rfl

/-- The minus sign of `-a` gets parentheses, and is read again with them. -/
theorem parseText_listing_negation :
    let p := (parseText "-a; b" "f").program
    p.listing = "(-a)\nb\n" ∧ (parseText p.listing "g").isOk ∧
      (parseText p.listing "g").program.bare = p.bare := by
  have hok : (parseText "-a; b" "f").isOk := by decide +kernel
  have hlev : ∀ s ∈ (parseText "-a; b" "f").program.statements,
      s.value.writtenLevels ≤ nestingLimit := by
    decide +kernel
  exact ⟨by decide +kernel, (parseText_listing hok "g").1.mpr hlev⟩

end MonkeySyntax
