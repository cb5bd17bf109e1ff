import MonkeySyntax.Proofs.Lexemes

/-! Texts as spellings of tokens: which tokens are read from a text, wherever it stands. -/
namespace MonkeySyntax

open Scan Text

/-- Wherever the text stands, its tokens are `ts` but for their places. -/
def Spells (cs : List Char) (ts : List Token) : Prop :=
  ∀ file offset, (Scanner.lexemes ⟨file, offset, cs⟩).map Token.bare = ts.map Token.bare

/-- The literal of the token spells the token. -/
def Token.Spelled (t : Token) : Prop :=
  ∃ c cs, t.literal.toList = c :: cs ∧ ¬isBlank c ∧ headToken c cs = (t.kind, cs.length)

/-- Tokens of such a kind are spelled like the name of their kind. -/
def TokenKind.isSymbol : TokenKind → Bool
  | illegal | eof | identifier | integer => false
  | kwFunction | kwLet | kwTrue | kwFalse | kwIf | kwElse | kwReturn => false
  | _ => true

theorem TokenKind.isSymbol_ofWord (word : String) : (ofWord word).isSymbol = false := by
  have h : ∀ ps : List (String × TokenKind), (∀ p ∈ ps, p.2.isSymbol = false) →
      ((ps.lookup word).getD identifier).isSymbol = false := by
    intro ps
    induction ps with
    | nil => exact fun _ => rfl
    | cons p ps ih =>
      intro hp
      rw [List.lookup_cons]
      split
      · exact hp p (by simp)
      · exact ih fun q hq => hp q (by simp [hq])
  exact h reserved (by decide)

theorem TokenKind.name_ofSymbol {c : Char} (h : (ofSymbol c).isSymbol) :
    (ofSymbol c).name = String.ofList [c] := by
  revert h
  unfold ofSymbol
  split
  case h_15 =>
    intro h
    cases h
  all_goals
    intro _
    rfl

theorem Token.Spelled.literal_eq {t : Token} (h : t.Spelled) (hk : t.kind.isSymbol) :
    t.literal = t.kind.name := by
  obtain ⟨c, cs, hl, -, hh⟩ := h
  have hkind : t.kind = (headToken c cs).1 := by rw [hh]
  have hlen : cs.length = (headToken c cs).2 := by rw [hh]
  rw [← String.ofList_toList (s := t.literal), hl]
  by_cases hw : isWordStart c
  · rw [hkind, headToken_of_word hw, TokenKind.isSymbol_ofWord] at hk
    cases hk
  by_cases hd : c.isDigit
  · rw [hkind, headToken_of_digit hw hd] at hk
    cases hk
  by_cases hc : (c = '=' ∨ c = '!') ∧ cs.head? = some '='
  · obtain ⟨hc, hh⟩ := hc
    obtain ⟨ds, rfl⟩ := List.head?_eq_some_iff.mp hh
    rcases hc with rfl | rfl
    all_goals
      obtain rfl : ds = [] := List.length_eq_zero_iff.mp (Nat.succ.inj hlen)
      rw [hkind]
      rfl
  · rw [headToken_of_symbol hw hd hc] at hkind hlen
    obtain rfl : cs = [] := List.length_eq_zero_iff.mp hlen
    rw [hkind] at hk ⊢
    exact (TokenKind.name_ofSymbol hk).symm

theorem Scanner.spelled_of_mem_lexemes {s : Scanner} {t : Token} (h : t ∈ s.lexemes) :
    t.Spelled := by
  obtain ⟨f, o, cs⟩ := s
  induction cs using text_induction generalizing o with
  | nil =>
    rw [lexemes_nil] at h
    cases h
  | blank c cs hc ih =>
    rw [lexemes_blank hc] at h
    exact ih _ h
  | token c cs hc ih =>
    rw [lexemes_token hc] at h
    rcases List.mem_cons.mp h with rfl | h
    · refine ⟨c, cs.take (headToken c cs).2, String.toList_ofList, hc, ?_⟩
      rw [headToken_take, List.length_take, Nat.min_eq_left (headToken_length_le c cs)]
    · exact ih _ h

/-- The character is part of no longer token. -/
def Scan.isBreak (c : Char) : Bool := !isWordChar c && c ≠ '=' && c ≠ '!'

theorem Scan.apart_of_isBreak {x y : Char} (h : isBreak x ∨ isBreak y) : Apart x y := by
  unfold isBreak at h
  unfold Apart
  grind

namespace Spells

variable {a b cs : List Char} {c : Char} {ts us : List Token} {t : Token}

theorem nil : Spells [] [] := by
  intro file offset
  rw [Scanner.lexemes_nil]

theorem append (ha : Spells a ts) (hb : Spells b us)
    (h : ∀ x ∈ a.getLast?, ∀ y ∈ b.head?, Apart x y) : Spells (a ++ b) (ts ++ us) := by
  intro file offset
  rw [Scanner.lexemes_append h, List.map_append, List.map_append, ha, hb]

/-- A text comes apart before and behind a character that is a break. -/
theorem append_cons (ha : Spells a ts) (hb : Spells (c :: b) us) (hc : isBreak c) :
    Spells (a ++ c :: b) (ts ++ us) := by
  apply ha.append hb
  rintro x - y hy
  obtain rfl : c = y := Option.some.inj hy
  exact apart_of_isBreak (.inr hc)

theorem cons (hc : Spells [c] ts) (hb : Spells b us) (h : isBreak c) :
    Spells (c :: b) (ts ++ us) := by
  apply hc.append hb
  rintro x hx y -
  obtain rfl : c = x := Option.some.inj hx
  exact apart_of_isBreak (.inl h)

theorem blank (hc : isBlank c) (h : Spells cs ts) : Spells (c :: cs) ts := by
  intro file offset
  rw [Scanner.lexemes_blank hc, h]

theorem of_spelled (h : t.Spelled) : Spells t.literal.toList [t] := by
  obtain ⟨c, cs, hl, hc, hh⟩ := h
  intro file offset
  have hlit : String.ofList (c :: cs) = t.literal := by
    rw [← hl, String.ofList_toList]
  rw [hl, Scanner.lexemes_token hc, hh, List.take_length, List.drop_length, Scanner.lexemes_nil,
    hlit]
  rfl

theorem of_symbol {k : TokenKind} (h : t.Spelled) (hk : t.kind = k) (hs : k.isSymbol) :
    Spells k.name.toList [t] := by
  have ht := of_spelled h
  rw [h.literal_eq (hk ▸ hs), hk] at ht
  exact ht

end Spells

/-- Wherever a text stands, its tokens are the same but for their places. -/
theorem spells_lexemes (cs : List Char) : Spells cs (Scanner.lexemes ⟨defaultFile, 0, cs⟩) := by
  have h : ∀ file offset file' offset',
      (Scanner.lexemes ⟨file, offset, cs⟩).map Token.bare =
        (Scanner.lexemes ⟨file', offset', cs⟩).map Token.bare := by
    induction cs using Scanner.text_induction with
    | nil =>
      intro file offset file' offset'
      rw [Scanner.lexemes_nil, Scanner.lexemes_nil]
    | blank c cs hc ih =>
      intro file offset file' offset'
      rw [Scanner.lexemes_blank hc, Scanner.lexemes_blank hc]
      exact ih _ _ _ _
    | token c cs hc ih =>
      intro file offset file' offset'
      rw [Scanner.lexemes_token hc, Scanner.lexemes_token hc, List.map_cons, List.map_cons]
      exact congrArg _ (ih _ _ _ _)
  exact fun file offset => h file offset defaultFile 0

end MonkeySyntax
