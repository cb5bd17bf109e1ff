import Mathlib.Data.List.Chain
import MonkeySyntax.Proofs.MaximalMunch
import MonkeySyntax.Proofs.Reprint

/-! Rendered programs have nothing between their statements. They are read again as the programs
they come from, unless a word or a number runs into the next statement, or the parentheses take more
levels than there are. -/
namespace MonkeySyntax

open Scan Text

def Expr.isWord : Expr → Bool
  | ident _ | bool .. => true
  | _ => false

def Expr.isNumber : Expr → Bool
  | int .. => true
  | _ => false

namespace Stmt

/-- The statement is written as a word and nothing else. -/
def isWord : Stmt → Bool
  | expr _ e => e.isWord
  | _ => false

/-- The statement is written as a number and nothing else. -/
def isNumber : Stmt → Bool
  | expr _ e => e.isNumber
  | _ => false

def startsWithWord : Stmt → Bool
  | expr _ e => e.isWord
  | _ => true

/-- With nothing between them, the end of one statement and the start of the next one are read as a
single token: a word goes on with letters and digits, a number with digits. -/
def runsInto (s t : Stmt) : Bool :=
  s.isWord && (t.startsWithWord || t.isNumber) || s.isNumber && t.isNumber

/-- A character that goes on with the last token of the statement. -/
def goesOn (s : Stmt) (c : Char) : Bool :=
  s.isWord && isWordChar c || s.isNumber && c.isDigit

end Stmt

section Atoms

variable {c : Char} {cs rest : List Char} {k : TokenKind} {t : Token} {ts us : List Token}

theorem Token.Spelled.lexeme (h : t.Spelled) : Lexeme t.kind t.literal.toList := by
  obtain ⟨c, cs, hl, hb, hh⟩ := h
  rw [hl]
  exact lexeme_of_headToken hb hh

theorem Lexeme.exists_word {l : List Char} (h : Lexeme k l) (hs : ¬k.isSymbol)
    (hn : k ≠ .integer) (hu : k ≠ .illegal) :
    ∃ c cs, l = c :: cs ∧ isWordStart c ∧ ∀ x ∈ cs, isWordChar x := by
  cases h with
  | keyword hk => exact TokenKind.reserved_word _ hk
  | name hc hcs => exact ⟨_, _, rfl, hc, hcs⟩
  | number => exact absurd rfl hn
  | symbol hk => exact absurd hk hs
  | unknown => exact absurd rfl hu

theorem Lexeme.exists_number {l : List Char} (h : Lexeme k l) (hk : k = .integer) :
    ∃ c cs, l = c :: cs ∧ c.isDigit ∧ ∀ x ∈ cs, x.isDigit := by
  cases h with
  | keyword hr =>
    have hne : ∀ p ∈ TokenKind.reserved, p.2 ≠ .integer := by decide
    exact absurd hk (hne _ hr)
  | name => cases hk
  | number hc hcs => exact ⟨_, _, rfl, hc, hcs⟩
  | symbol hs =>
    rw [hk] at hs
    cases hs
  | unknown => cases hk

theorem Scan.not_isDigit_of_isWordStart (h : isWordStart c) : c.isDigit = false :=
  Bool.eq_false_iff.mpr fun hd => not_isWordStart_of_isDigit hd h

theorem Token.Spelled.exists_keyword (h : t.Spelled) (hk : t.kind = .kwLet ∨ t.kind = .kwReturn) :
    ∃ c cs, t.literal.toList = c :: cs ∧ isWordStart c ∧ c.isDigit = false := by
  have hkind : ¬t.kind.isSymbol ∧ t.kind ≠ .integer ∧ t.kind ≠ .illegal := by
    rcases hk with hk | hk
    all_goals
      rw [hk]
      decide
  obtain ⟨c, cs, hl, hc, -⟩ := h.lexeme.exists_word hkind.1 hkind.2.1 hkind.2.2
  exact ⟨c, cs, hl, hc, not_isDigit_of_isWordStart hc⟩

theorem Token.Spelled.word_or_number {e : Expr} (h : t.Spelled) (he : Expr.ofToken? t = some e) :
    ∃ c cs, t.literal.toList = c :: cs ∧
      (e.isWord ∧ ¬e.isNumber ∧ isWordStart c ∧ (∀ x ∈ cs, isWordChar x) ∨
        e.isNumber ∧ ¬e.isWord ∧ c.isDigit ∧ ∀ x ∈ cs, x.isDigit) := by
  have hword := h.lexeme.exists_word
  cases Expr.ofToken?_eq_some_iff.mp he with
  | name hk =>
    rw [hk] at hword
    obtain ⟨c, cs, hl, hc⟩ := hword (by decide) (by decide) (by decide)
    exact ⟨c, cs, hl, .inl ⟨rfl, by simp [Expr.isNumber], hc⟩⟩
  | number hk _ =>
    obtain ⟨c, cs, hl, hc⟩ := h.lexeme.exists_number hk
    exact ⟨c, cs, hl, .inr ⟨rfl, by simp [Expr.isWord], hc⟩⟩
  | truth b hk =>
    rw [hk] at hword
    obtain ⟨c, cs, hl, hc⟩ :=
      hword (by cases b <;> decide) (by cases b <;> decide) (by cases b <;> decide)
    exact ⟨c, cs, hl, .inl ⟨rfl, by simp [Expr.isNumber], hc⟩⟩

theorem Scan.headToken_word_append (hc : isWordStart c) (hcs : ∀ x ∈ cs, isWordChar x)
    (rest : List Char) :
    headToken c (cs ++ rest) = (.ofWord (String.ofList (c :: (cs ++ rest.takeWhile isWordChar))),
      (cs ++ rest.takeWhile isWordChar).length) := by
  rw [headToken_of_word hc, List.takeWhile_append_of_pos hcs]

theorem Scan.headToken_number_append (hc : c.isDigit) (hcs : ∀ x ∈ cs, x.isDigit)
    (rest : List Char) :
    headToken c (cs ++ rest) = (.integer, (cs ++ rest.takeWhile Char.isDigit).length) := by
  rw [headToken_of_digit (not_isWordStart_of_isDigit hc) hc, List.takeWhile_append_of_pos hcs]

private theorem takeWhile_eq_nil {p : Char → Bool} (h : ∀ y ∈ rest.head?, ¬p y) :
    rest.takeWhile p = [] := by
  cases rest with
  | nil => rfl
  | cons y ys => rw [List.takeWhile_cons_of_neg (h y rfl)]

/-- Where the text behind it does not go on with it, an atom is read by itself. -/
theorem Token.Spelled.spells_append {e : Expr} (h : t.Spelled) (he : Expr.ofToken? t = some e)
    (hgo : ∀ y ∈ rest.head?, ¬(e.isWord ∧ isWordChar y) ∧ ¬(e.isNumber ∧ y.isDigit))
    (hrest : Spells rest us) : Spells (t.literal.toList ++ rest) (t :: us) := by
  obtain ⟨c, cs, hl, hb, hh⟩ := id h
  obtain ⟨d, ds, hl', hatom⟩ := h.word_or_number he
  obtain ⟨rfl, rfl⟩ := List.cons.inj (hl.symm.trans hl')
  have hhead : headToken c (cs ++ rest) = (t.kind, cs.length) := by
    rcases hatom with ⟨hw, -, hc, hcs⟩ | ⟨hn, -, hc, hcs⟩
    · have hstop : rest.takeWhile isWordChar = [] :=
        takeWhile_eq_nil fun y hy hyw => (hgo y hy).1 ⟨hw, hyw⟩
      rw [← hh, headToken_word_append hc hcs, headToken_of_word_eq hc hcs, hstop, List.append_nil]
    · have hstop : rest.takeWhile Char.isDigit = [] :=
        takeWhile_eq_nil fun y hy hyd => (hgo y hy).2 ⟨hn, hyd⟩
      have hself := headToken_number_append hc hcs []
      rw [List.append_nil] at hself
      rw [← hh, headToken_number_append hc hcs, hself, hstop, List.takeWhile_nil]
  intro file offset
  rw [hl, List.cons_append, Scanner.lexemes_token hb, hhead, List.take_left, List.drop_left,
    List.map_cons, List.map_cons, hrest, ← hl, String.ofList_toList]
  rfl

end Atoms

/-- The number of tokens that are no symbols. -/
def Token.countWords (ts : List Token) : Nat := ts.countP fun t => !t.kind.isSymbol

/-- The number of words, numbers and unknown characters in a text. -/
def Scan.words (cs : List Char) : Nat := Token.countWords (Scanner.lexemes ⟨defaultFile, 0, cs⟩)

section Counting

variable {c : Char} {cs rest : List Char} {t : Token} {ts us : List Token}

theorem Token.countWords_append (ts us : List Token) :
    countWords (ts ++ us) = countWords ts + countWords us := List.countP_append

theorem Token.countWords_map_bare (ts : List Token) :
    countWords (ts.map bare) = countWords ts := by
  unfold countWords
  rw [List.countP_map]
  rfl

theorem Spells.words_eq (h : Spells cs ts) : words cs = Token.countWords ts := by
  rw [words, ← Token.countWords_map_bare, h, Token.countWords_map_bare]

theorem Token.countWords_cons (hs : ¬t.kind.isSymbol) :
    countWords (t :: ts) = 1 + countWords ts := by
  rw [countWords, List.countP_cons_of_pos (by simpa using hs), Nat.add_comm]
  rfl

theorem Scan.words_cons (hb : ¬isBlank c) (hs : ¬(headToken c cs).1.isSymbol) :
    words (c :: cs) = 1 + words (cs.drop (headToken c cs).2) := by
  have hrest := spells_lexemes (cs.drop (headToken c cs).2)
  have hall : Spells (c :: cs)
      (.unplaced (headToken c cs).1 (String.ofList (c :: cs.take (headToken c cs).2)) ::
        Scanner.lexemes ⟨defaultFile, 0, cs.drop (headToken c cs).2⟩) := by
    intro file offset
    rw [Scanner.lexemes_token hb, List.map_cons, List.map_cons, hrest]
    rfl
  rw [hall.words_eq, Token.countWords_cons hs]
  rfl

private theorem drop_takeWhile {p : Char → Bool} :
    (cs ++ rest).drop (cs ++ rest.takeWhile p).length = rest.dropWhile p := by
  have hsplit : cs ++ rest = (cs ++ rest.takeWhile p) ++ rest.dropWhile p := by
    rw [List.append_assoc, List.takeWhile_append_dropWhile]
  rw [hsplit, List.drop_left]

/-- A word takes all letters and digits that follow it. -/
theorem Scan.words_word_append (hc : isWordStart c) (hcs : ∀ x ∈ cs, isWordChar x)
    (rest : List Char) :
    words (c :: (cs ++ rest)) = 1 + words (rest.dropWhile isWordChar) := by
  have hhead := headToken_word_append hc hcs rest
  have hs : ¬(headToken c (cs ++ rest)).1.isSymbol := by simp [hhead, TokenKind.isSymbol_ofWord]
  rw [words_cons (not_isBlank_of_isWordStart hc) hs, hhead, drop_takeWhile]

theorem Scan.words_number_append (hc : c.isDigit) (hcs : ∀ x ∈ cs, x.isDigit) (rest : List Char) :
    words (c :: (cs ++ rest)) = 1 + words (rest.dropWhile Char.isDigit) := by
  have hhead := headToken_number_append hc hcs rest
  have hs : ¬(headToken c (cs ++ rest)).1.isSymbol := by simp [hhead, TokenKind.isSymbol]
  rw [words_cons (not_isBlank_of_isDigit hc) hs, hhead, drop_takeWhile]

private theorem dropWhile_dropWhile {p q : Char → Bool} (h : ∀ x, q x → p x) :
    (cs.dropWhile q).dropWhile p = cs.dropWhile p := by
  induction cs with
  | nil => rfl
  | cons x xs ih =>
    by_cases hx : q x
    · rw [List.dropWhile_cons_of_pos hx, List.dropWhile_cons_of_pos (h x hx), ih]
    · rw [List.dropWhile_cons_of_neg hx]

/-- Without the letters and digits that it starts with, a text has fewer words and numbers. -/
theorem Scan.words_dropWhile_lt (hc : isWordChar c) :
    words ((c :: cs).dropWhile isWordChar) < words (c :: cs) := by
  have hword : ∀ (d : Char) (ds : List Char), isWordStart d →
      words ((d :: ds).dropWhile isWordChar) < words (d :: ds) := by
    intro d ds hd
    have hw := words_word_append hd (fun x hx => absurd hx List.not_mem_nil) ds
    rw [List.nil_append] at hw
    rw [hw, List.dropWhile_cons_of_pos (isWordChar_of_isWordStart hd)]
    omega
  by_cases hs : isWordStart c
  · exact hword c cs hs
  -- A number comes first. What follows it may be a word, and no longer starts with a digit.
  have hd : c.isDigit := by simpa [isWordChar_eq, hs] using hc
  have hn := words_number_append hd (fun x hx => absurd hx List.not_mem_nil) cs
  rw [List.nil_append] at hn
  have hdrop : (c :: cs).dropWhile isWordChar =
      (cs.dropWhile Char.isDigit).dropWhile isWordChar := by
    rw [List.dropWhile_cons_of_pos hc, dropWhile_dropWhile fun _ => isWordChar_of_isDigit]
  have hle : words ((cs.dropWhile Char.isDigit).dropWhile isWordChar) ≤
      words (cs.dropWhile Char.isDigit) := by
    cases hcs : cs.dropWhile Char.isDigit with
    | nil => exact Nat.le_refl _
    | cons d ds =>
      by_cases hdw : isWordChar d
      · have hnot : d.isDigit = false := by
          have hfirst := List.head?_dropWhile_not Char.isDigit cs
          rwa [hcs] at hfirst
        have hds : isWordStart d := by simpa [isWordChar_eq, hnot] using hdw
        exact Nat.le_of_lt (hword d ds hds)
      · rw [List.dropWhile_cons_of_neg hdw]
  rw [hn, hdrop]
  omega

/-- An atom and the text that goes on with it have fewer words and numbers than each by itself. -/
theorem Token.Spelled.words_append_lt {e : Expr} {y : Char} {ys : List Char} (h : t.Spelled)
    (he : Expr.ofToken? t = some e) (hgo : e.isWord ∧ isWordChar y ∨ e.isNumber ∧ y.isDigit) :
    words (t.literal.toList ++ y :: ys) < 1 + words (y :: ys) := by
  obtain ⟨c, cs, hl, hatom⟩ := h.word_or_number he
  rw [hl, List.cons_append]
  rcases hatom with ⟨-, hn, hc, hcs⟩ | ⟨-, hw, hc, hcs⟩
  · have hy : isWordChar y := by
      rcases hgo with hgo | hgo
      · exact hgo.2
      · exact absurd hgo.1 hn
    rw [words_word_append hc hcs]
    exact Nat.add_lt_add_left (words_dropWhile_lt hy) 1
  · have hy : y.isDigit := by
      rcases hgo with hgo | hgo
      · exact absurd hgo.1 hw
      · exact hgo.2
    have hys := words_number_append hy (fun x hx => absurd hx List.not_mem_nil) ys
    rw [List.nil_append] at hys
    rw [words_number_append hc hcs, hys, List.dropWhile_cons_of_pos hy]
    omega

end Counting

def Expr.words : Expr → Nat
  | ident _ | int .. | bool .. => 1
  | unary _ _ e => e.words
  | binary _ _ l r => l.words + r.words

/-- A keyword counts as a word, and so does the name behind it. -/
def Stmt.words : Stmt → Nat
  | binding _ _ e => 2 + e.words
  | ret _ e => 1 + e.words
  | expr _ e => e.words

def Program.words (p : Program) : Nat := p.statements.foldr (fun s n => s.words + n) 0

theorem Expr.words_relocate (φ : Position → Position) (e : Expr) :
    (e.relocate φ).words = e.words := by
  induction e with
  | unary t op e ih => rw [relocate, words, words, ih]
  | binary t op l r hl hr => rw [relocate, words, words, hl, hr]
  | _ => rfl

theorem Stmt.words_bare (s : Stmt) : s.bare.words = s.words := by
  cases s <;> simp [bare, relocate, words, Expr.words_relocate]

theorem Program.words_bare (p : Program) : p.bare.words = p.words := by
  unfold words bare
  rw [List.foldr_map]
  congr 1
  funext s n
  rw [s.words_bare]

theorem Expr.words_of_ofToken?_eq_some {t : Token} {e : Expr} (h : ofToken? t = some e) :
    e.words = 1 := by
  cases ofToken?_eq_some_iff.mp h <;> rfl

theorem Token.countWords_cons_of_isSymbol {t : Token} {ts : List Token} (hs : t.kind.isSymbol) :
    countWords (t :: ts) = countWords ts :=
  List.countP_cons_of_neg (by simpa using hs)

theorem Grouped.countWords_tokens (g : Grouped) : Token.countWords g.tokens = g.expr.words := by
  induction g with
  | atom t e h =>
    have hs : ¬t.kind.isSymbol := by
      rcases Expr.kind_of_ofToken? h with hk | hk | hk | hk
      all_goals
        rw [hk]
        decide
    rw [tokens, Token.countWords_cons hs, expr, Expr.words_of_ofToken?_eq_some h]
    rfl
  | unary t op h x ih =>
    have hs : t.kind.isSymbol := by
      rw [h]
      cases op <;> rfl
    rw [tokens, Token.countWords_cons_of_isSymbol hs, ih, expr, Expr.words]
  | binary l t op h r hl hr =>
    have hs : t.kind.isSymbol := by
      rw [h]
      cases op <;> rfl
    rw [tokens, Token.countWords_append, Token.countWords_cons_of_isSymbol hs, hl, hr, expr,
      Expr.words]
  | group o ho x c hc ih =>
    have hclosing : Token.countWords [c] = 0 :=
      Token.countWords_cons_of_isSymbol (by rw [hc]; rfl)
    rw [tokens, Token.countWords_cons_of_isSymbol (by rw [ho]; rfl), Token.countWords_append,
      hclosing, ih, expr]
    rfl

theorem Sentence.countWords_tokens (x : Sentence) : Token.countWords x.tokens = x.stmt.words := by
  cases x with
  | binding k a q g s hk ha hq hs =>
    have hsemi : Token.countWords [s] = 0 :=
      Token.countWords_cons_of_isSymbol (by rw [hs]; rfl)
    rw [tokens, Token.countWords_cons (by rw [hk]; decide),
      Token.countWords_cons (by rw [ha]; decide),
      Token.countWords_cons_of_isSymbol (by rw [hq]; rfl), Token.countWords_append, hsemi,
      g.countWords_tokens, stmt, Stmt.words]
    omega
  | ret k g s hk hs =>
    have hsemi : Token.countWords [s] = 0 :=
      Token.countWords_cons_of_isSymbol (by rw [hs]; rfl)
    rw [tokens, Token.countWords_cons (by rw [hk]; decide), Token.countWords_append, hsemi,
      g.countWords_tokens, stmt, Stmt.words]
    rfl
  | expr g s hs =>
    have hsemi : Token.countWords s.toList = 0 := by
      cases s with
      | none => rfl
      | some s => exact Token.countWords_cons_of_isSymbol (by rw [hs s rfl]; rfl)
    rw [tokens, Token.countWords_append, hsemi, g.countWords_tokens, stmt, Stmt.words]
    rfl

theorem Sentence.words_stmt_written (x : Sentence) : x.written.stmt.words = x.stmt.words := by
  cases x <;> simp [written, stmt, Stmt.words]

theorem Grouped.written_cases (g : Grouped) :
    (∃ t e h, g.written = atom t e h ∧ g.expr = e ∧ t ∈ g.tokens) ∨
      ∃ cs, g.expr.render.toList = '(' :: (cs ++ [')']) ∧ ¬g.expr.isWord ∧ ¬g.expr.isNumber := by
  induction g with
  | atom t e h => exact .inl ⟨t, e, h, rfl, rfl, List.mem_singleton_self t⟩
  | unary t op h x ih =>
    refine .inr ⟨op.symbol.toList ++ x.expr.render.toList, ?_, by simp [expr, Expr.isWord],
      by simp [expr, Expr.isNumber]⟩
    rw [expr, Expr.toList_render_unary, List.append_assoc]
  | binary l t op h r hl hr =>
    refine .inr ⟨l.expr.render.toList ++ ' ' :: (op.symbol.toList ++ ' ' :: r.expr.render.toList),
      ?_, by simp [expr, Expr.isWord], by simp [expr, Expr.isNumber]⟩
    simp [expr, Expr.toList_render_binary]
  | group o ho x c hc ih =>
    rcases ih with ⟨t, e, h, hw, he, ht⟩ | hparen
    · exact .inl ⟨t, e, h, hw, he, by simp [tokens, ht]⟩
    · exact .inr hparen

namespace Sentence

variable {x y : Sentence} {xs : List Sentence} {rest : List Char} {us : List Token}

theorem spells_append (hx : ∀ t ∈ x.tokens, t.Spelled)
    (hgo : ∀ c ∈ rest.head?, x.stmt.goesOn c = false) (hrest : Spells rest us) :
    Spells (x.stmt.render.toList ++ rest) (x.written.tokens ++ us) := by
  apply spells_render_append hx hrest
  rintro g s hs rfl
  have hg : ∀ t ∈ g.tokens, t.Spelled := fun t ht => hx t (by simp [tokens, ht])
  rcases g.written_cases with ⟨t, e, h, hw, he, ht⟩ | ⟨cs, hcs, -⟩
  · rw [hw, he, (Expr.of_ofToken?_eq_some h).1]
    refine (hg t ht).spells_append h (fun c hc => ?_) hrest
    have hno := hgo c hc
    simp only [stmt, he, Stmt.goesOn, Stmt.isWord, Stmt.isNumber, Bool.or_eq_false_iff] at hno
    simpa using hno
  · apply (g.spells_written hg).append hrest
    intro c hc d _
    rw [hcs, ← List.cons_append, List.getLast?_concat] at hc
    obtain rfl : ')' = c := Option.some.inj hc
    exact apart_of_isBreak (.inl (by decide))

theorem words_append (hx : ∀ t ∈ x.tokens, t.Spelled)
    (hgo : ∀ c ∈ rest.head?, x.stmt.goesOn c = false) :
    words (x.stmt.render.toList ++ rest) = x.stmt.words + words rest := by
  rw [(spells_append hx hgo (spells_lexemes rest)).words_eq, Token.countWords_append,
    countWords_tokens, words_stmt_written]
  rfl

theorem words_append_lt {c : Char} {cs : List Char} (hx : ∀ t ∈ x.tokens, t.Spelled)
    (hgo : x.stmt.goesOn c) :
    words (x.stmt.render.toList ++ c :: cs) < x.stmt.words + words (c :: cs) := by
  cases x with
  | binding => cases hgo
  | ret => cases hgo
  | expr g s hs =>
    have hatom : g.expr.isWord ∧ isWordChar c ∨ g.expr.isNumber ∧ c.isDigit := by
      simpa [stmt, Stmt.goesOn, Stmt.isWord, Stmt.isNumber] using hgo
    rcases g.written_cases with ⟨t, e, h, -, he, ht⟩ | ⟨-, -, hw, hn⟩
    · rw [he] at hatom
      rw [stmt, Stmt.words, Stmt.render, he, (Expr.of_ofToken?_eq_some h).1,
        Expr.words_of_ofToken?_eq_some h]
      exact (hx t (by simp [tokens, ht])).words_append_lt h hatom
    · rcases hatom with hatom | hatom
      · exact absurd hatom.1 hw
      · exact absurd hatom.1 hn

theorem words_append_le (hx : ∀ t ∈ x.tokens, t.Spelled) :
    words (x.stmt.render.toList ++ rest) ≤ x.stmt.words + words rest := by
  cases rest with
  | nil => exact Nat.le_of_eq (words_append hx (by rintro c ⟨⟩))
  | cons c cs =>
    by_cases hgo : x.stmt.goesOn c
    · exact Nat.le_of_lt (words_append_lt hx hgo)
    · refine Nat.le_of_eq (words_append hx fun d hd => ?_)
      obtain rfl : c = d := Option.some.inj hd
      exact Bool.eq_false_iff.mpr hgo

theorem exists_first (hy : ∀ t ∈ y.tokens, t.Spelled) :
    ∃ c cs, y.stmt.render.toList = c :: cs ∧ isWordStart c = y.stmt.startsWithWord ∧
      c.isDigit = y.stmt.isNumber := by
  cases y with
  | binding k a q g s hk ha hq hs =>
    obtain ⟨c, cs, hl, hc, hd⟩ := (hy k (by simp [tokens])).exists_keyword (.inl hk)
    refine ⟨c, cs ++ (" " ++ a.literal ++ " = " ++ g.expr.render ++ ";").toList, ?_, hc, hd⟩
    simp [stmt, Stmt.render, hl]
  | ret k g s hk hs =>
    obtain ⟨c, cs, hl, hc, hd⟩ := (hy k (by simp [tokens])).exists_keyword (.inr hk)
    refine ⟨c, cs ++ (" " ++ g.expr.render ++ ";").toList, ?_, hc, hd⟩
    simp [stmt, Stmt.render, hl]
  | expr g s hs =>
    rcases g.written_cases with ⟨t, e, h, -, he, ht⟩ | ⟨cs, hcs, hw, hn⟩
    · have hspelled := hy t (by simp [tokens, ht])
      obtain ⟨c, cs, hl, hatom⟩ := hspelled.word_or_number h
      refine ⟨c, cs, ?_, ?_⟩
      · rw [stmt, Stmt.render, he, (Expr.of_ofToken?_eq_some h).1, hl]
      · rw [stmt, Stmt.startsWithWord, Stmt.isNumber, he]
        rcases hatom with ⟨hw, hn, hc, -⟩ | ⟨hn, hw, hc, -⟩
        · rw [hw, hc, not_isDigit_of_isWordStart hc, Bool.eq_false_iff.mpr hn]
          exact ⟨rfl, rfl⟩
        · have hstart := Bool.eq_false_iff.mpr (not_isWordStart_of_isDigit hc)
          rw [hn, hc, Bool.eq_false_iff.mpr hw, hstart]
          exact ⟨rfl, rfl⟩
    · refine ⟨'(', _, hcs, ?_, ?_⟩
      · rw [stmt, Stmt.startsWithWord, Bool.eq_false_iff.mpr hw]
        decide
      · rw [stmt, Stmt.isNumber, Bool.eq_false_iff.mpr hn]
        decide

theorem toList_render_cons (x : Sentence) (xs : List Sentence) :
    (Program.render ⟨(x :: xs).map stmt⟩).toList =
      x.stmt.render.toList ++ (Program.render ⟨xs.map stmt⟩).toList := by
  rw [Program.render, List.map_cons, List.map_cons, String.join_cons, String.toList_append]
  rfl

/-- The first character of a program goes on with the statement before it exactly if that statement
runs into the first one of the program. -/
theorem exists_first_render (hy : ∀ t ∈ y.tokens, t.Spelled) (ys : List Sentence) :
    ∃ c cs, (Program.render ⟨(y :: ys).map stmt⟩).toList = c :: cs ∧
      ∀ s : Stmt, s.goesOn c = s.runsInto y.stmt := by
  obtain ⟨c, cs, hcs, hw, hd⟩ := exists_first hy
  refine ⟨c, cs ++ (Program.render ⟨ys.map stmt⟩).toList, ?_, fun s => ?_⟩
  · rw [toList_render_cons, hcs, List.cons_append]
  · rw [Stmt.goesOn, isWordChar_eq, hw, hd]
    rfl

/-- A program in which no statement runs into the next one is read as its written statements. -/
theorem spells_program (hxs : ∀ t ∈ xs.flatMap tokens, t.Spelled)
    (h : (xs.map stmt).IsChain fun s t => ¬s.runsInto t) :
    Spells (Program.render ⟨xs.map stmt⟩).toList ((xs.map written).flatMap tokens) := by
  induction xs with
  | nil => exact .nil
  | cons x xs ih =>
    rw [List.flatMap_cons] at hxs
    have hx : ∀ t ∈ x.tokens, t.Spelled := fun t ht => hxs t (List.mem_append_left _ ht)
    have hlater : ∀ t ∈ xs.flatMap tokens, t.Spelled :=
      fun t ht => hxs t (List.mem_append_right _ ht)
    rw [toList_render_cons]
    refine spells_append hx ?_ (ih hlater (List.IsChain.of_cons h))
    cases xs with
    | nil =>
      intro c hc
      cases hc
    | cons y ys =>
      obtain ⟨c, cs, hcs, hgo⟩ :=
        exists_first_render (fun t ht => hlater t (List.mem_append_left _ ht)) ys
      rw [hcs]
      intro d hd
      obtain rfl : c = d := Option.some.inj hd
      rw [hgo]
      exact Bool.eq_false_iff.mpr (List.isChain_cons_cons.mp h).1

theorem words_program_cons (x : Sentence) (xs : List Sentence) :
    Program.words ⟨(x :: xs).map stmt⟩ = x.stmt.words + Program.words ⟨xs.map stmt⟩ := rfl

/-- A rendered program has no more words and numbers than its statements. -/
theorem words_render_le (hxs : ∀ t ∈ xs.flatMap tokens, t.Spelled) :
    words (Program.render ⟨xs.map stmt⟩).toList ≤ Program.words ⟨xs.map stmt⟩ := by
  induction xs with
  | nil => exact Nat.le_of_eq Spells.nil.words_eq
  | cons x xs ih =>
    rw [List.flatMap_cons] at hxs
    have hx : ∀ t ∈ x.tokens, t.Spelled := fun t ht => hxs t (List.mem_append_left _ ht)
    have hle := ih fun t ht => hxs t (List.mem_append_right _ ht)
    rw [toList_render_cons, words_program_cons]
    exact Nat.le_trans (words_append_le hx) (Nat.add_le_add_left hle _)

theorem words_render_lt (hxs : ∀ t ∈ xs.flatMap tokens, t.Spelled)
    (h : ¬(xs.map stmt).IsChain fun s t => ¬s.runsInto t) :
    words (Program.render ⟨xs.map stmt⟩).toList < Program.words ⟨xs.map stmt⟩ := by
  induction xs with
  | nil => exact absurd .nil h
  | cons x xs ih =>
    rw [List.flatMap_cons] at hxs
    have hx : ∀ t ∈ x.tokens, t.Spelled := fun t ht => hxs t (List.mem_append_left _ ht)
    have hlater : ∀ t ∈ xs.flatMap tokens, t.Spelled :=
      fun t ht => hxs t (List.mem_append_right _ ht)
    rw [toList_render_cons, words_program_cons]
    cases xs with
    | nil => exact absurd (.singleton _) h
    | cons y ys =>
      by_cases hrun : x.stmt.runsInto y.stmt
      · obtain ⟨c, cs, hcs, hgo⟩ :=
          exists_first_render (fun t ht => hlater t (List.mem_append_left _ ht)) ys
        have hle := words_render_le hlater
        rw [hcs] at hle ⊢
        exact Nat.lt_of_lt_of_le (words_append_lt hx ((hgo x.stmt).trans hrun))
          (Nat.add_le_add_left hle _)
      · have hchain : ¬((y :: ys).map stmt).IsChain fun s t => ¬s.runsInto t :=
          fun hc => h (List.isChain_cons_cons.mpr ⟨hrun, hc⟩)
        exact Nat.lt_of_le_of_lt (words_append_le hx) (Nat.add_lt_add_left (ih hlater hchain) _)

theorem countWords_row (xs : List Sentence) :
    Token.countWords (xs.flatMap tokens) = Program.words ⟨xs.map stmt⟩ := by
  induction xs with
  | nil => rfl
  | cons x xs ih =>
    rw [List.flatMap_cons, Token.countWords_append, x.countWords_tokens, ih]
    rfl

end Sentence

theorem words_of_isOk {text file : String} (h : (parseText text file).isOk) :
    words text.toList = (parseText text file).program.words := by
  obtain ⟨xs, htokens, hp⟩ := exists_row h
  have hspells : Spells text.toList (xs.flatMap Sentence.tokens) := by
    intro file' offset
    rw [htokens, spells_lexemes text.toList, ← spells_lexemes text.toList file 0]
    rfl
  rw [hspells.words_eq, Sentence.countWords_row, hp]

namespace Sentence

variable {xs : List Sentence}

theorem isOk_render (hxs : ∀ t ∈ xs.flatMap tokens, t.Spelled)
    (hapart : (xs.map stmt).IsChain fun s t => ¬s.runsInto t)
    (hshallow : ∀ s ∈ xs.map stmt, s.value.writtenLevels ≤ nestingLimit) (file : String) :
    (parseText (Program.render ⟨xs.map stmt⟩) file).isOk ∧
      (parseText (Program.render ⟨xs.map stmt⟩) file).program.bare =
        Program.bare ⟨xs.map stmt⟩ := by
  obtain ⟨hprog, hdiag⟩ := parse_of_spells (spells_program hxs hapart) file
  obtain ⟨hr, hnone⟩ := parse_replay_of_le hshallow
  rw [hnone] at hdiag
  refine ⟨?_, hprog.trans hr⟩
  rw [Parsed.isOk, List.map_eq_nil_iff.mp hdiag]
  rfl

theorem not_isOk_render (hxs : ∀ t ∈ xs.flatMap tokens, t.Spelled)
    (hapart : (xs.map stmt).IsChain fun s t => ¬s.runsInto t)
    (hdeep : ∃ s ∈ xs.map stmt, nestingLimit < s.value.writtenLevels) (file : String) :
    ¬(parseText (Program.render ⟨xs.map stmt⟩) file).isOk := by
  intro hok
  obtain ⟨-, hdiag⟩ := parse_of_spells (spells_program hxs hapart) file
  obtain ⟨d, hd, -⟩ := exists_tooDeep_of_lt hdeep
  rw [List.isEmpty_iff.mp hok] at hdiag
  rw [List.map_eq_nil_iff.mp hdiag.symm] at hd
  cases hd

/-- If the same program is read again, no word or number was lost, so nothing ran together. -/
theorem isChain_of_render (hxs : ∀ t ∈ xs.flatMap tokens, t.Spelled) {file : String}
    (hok : (parseText (Program.render ⟨xs.map stmt⟩) file).isOk)
    (hbare : (parseText (Program.render ⟨xs.map stmt⟩) file).program.bare =
      Program.bare ⟨xs.map stmt⟩) :
    (xs.map stmt).IsChain fun s t => ¬s.runsInto t := by
  by_contra hnot
  have hless := words_render_lt hxs hnot
  rw [words_of_isOk hok, ← Program.words_bare, hbare, Program.words_bare] at hless
  exact absurd hless (Nat.lt_irrefl _)

end Sentence

/-- A rendered program is read again as the same program exactly if the written forms of its
expressions need no more levels than there are and no statement runs into the next one. It is then
rendered in the same way again. A session answers a line with the rendered program. -/
theorem parseText_render {text file : String} (h : (parseText text file).isOk) (file' : String) :
    let p := (parseText text file).program
    let again := parseText p.render file'
    let shallow := ∀ s ∈ p.statements, s.value.writtenLevels ≤ nestingLimit
    let apart := p.statements.IsChain fun s t => ¬s.runsInto t
    ((again.isOk ∧ again.program.bare = p.bare) ↔ shallow ∧ apart) ∧
      (shallow ∧ apart → again.program.render = p.render) ∧
      (file = defaultFile → Session.answerProgram text = p.render ++ "\n") := by
  intro p again shallow apart
  obtain ⟨xs, hspelled, hp⟩ := exists_sentences h
  have hpx : p = ⟨xs.map Sentence.stmt⟩ := hp
  have hiff : (again.isOk ∧ again.program.bare = p.bare) ↔ shallow ∧ apart := by
    simp only [again, shallow, apart, hpx]
    constructor
    · rintro ⟨hok, hbare⟩
      have hapart := Sentence.isChain_of_render hspelled hok hbare
      refine ⟨fun s hs => ?_, hapart⟩
      by_contra hdeep
      exact Sentence.not_isOk_render hspelled hapart ⟨s, hs, Nat.not_le.mp hdeep⟩ file' hok
    · rintro ⟨hshallow, hapart⟩
      exact Sentence.isOk_render hspelled hapart hshallow file'
  refine ⟨hiff, ?_, ?_⟩
  · intro hc
    rw [← Program.render_bare, (hiff.mpr hc).2, Program.render_bare]
  · rintro rfl
    simp only [Session.answerProgram, h, if_true]
    rfl

/-- Nothing runs into a statement that starts with a parenthesis or comes behind a semicolon. -/
theorem parseText_render_product :
    let p := (parseText "let x = 2; x; 3 * x" "f").program
    p.render = "let x = 2;x(3 * x)" ∧ (parseText p.render "g").isOk ∧
      (parseText p.render "g").program.bare = p.bare := by
  have hok : (parseText "let x = 2; x; 3 * x" "f").isOk := by decide +kernel
  have hshallow : ∀ s ∈ (parseText "let x = 2; x; 3 * x" "f").program.statements,
      s.value.writtenLevels ≤ nestingLimit := by
    decide +kernel
  have hapart : (parseText "let x = 2; x; 3 * x" "f").program.statements.IsChain
      fun s t => ¬s.runsInto t := by
    decide +kernel
  exact ⟨by decide +kernel, (parseText_render hok "g").1.mpr ⟨hshallow, hapart⟩⟩

/-- The name in `x; return 1;` runs into the keyword: another program is read, which is rendered in
another way. The parentheses for 64 operators in a row take more levels than there are. -/
theorem parseText_render_differs :
    let again (text : String) := parseText (parseText text "f").program.render "f"
    let deep := String.ofList (List.replicate 64 '!' ++ ['a'])
    ((parseText "x; return 1;" "f").isOk ∧
        (again "x; return 1;").program.bare ≠ (parseText "x; return 1;" "f").program.bare ∧
        (again "x; return 1;").program.render = "xreturn1") ∧
      (parseText deep "f").isOk ∧ ¬(again deep).isOk := by
  intro again deep
  have hok : (parseText deep "f").isOk := by decide +kernel
  have hapart : (parseText deep "f").program.statements.IsChain fun s t => ¬s.runsInto t := by
    decide +kernel
  have hdeep : ∃ s ∈ (parseText deep "f").program.statements,
      nestingLimit < s.value.writtenLevels := by
    decide +kernel
  obtain ⟨xs, hspelled, hp⟩ := exists_sentences hok
  rw [hp] at hapart hdeep
  refine ⟨by decide +kernel, hok, ?_⟩
  simp only [again, hp]
  exact Sentence.not_isOk_render hspelled hapart hdeep "f"

end MonkeySyntax
