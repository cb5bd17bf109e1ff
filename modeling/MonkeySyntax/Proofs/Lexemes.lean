import Mathlib.Data.List.TakeWhile
import MonkeySyntax.Proofs.Relocation
import MonkeySyntax.Scan.Lexer

/-! The tokens of a text without its end token, and how they come apart where the text does. -/
namespace MonkeySyntax

open Scan Text

theorem mem_getLast?_of_drop {α : Type} {n : Nat} {l : List α} {x : α}
    (h : x ∈ (l.drop n).getLast?) : x ∈ l.getLast? := by
  rw [List.getLast?_drop] at h
  split at h
  · cases h
  · exact h

namespace Scanner

/-- The next token is the end token exactly if only blanks are left. -/
theorem kind_next_eq_eof_iff (s : Scanner) : s.next.1.kind = .eof ↔ ∀ c ∈ s.rest, isBlank c := by
  rw [next, kind_read_eq_eof_iff, rest_skipBlanks, List.dropWhile_eq_nil_iff]

/-- The tokens ahead, without the end token. -/
def lexemes (s : Scanner) : List Token :=
  if s.next.1.kind = .eof then [] else s.next.1 :: s.next.2.lexemes
termination_by s.rest.length
decreasing_by
  rename_i h
  have hlt := s.length_rest_next
  have hne : s.rest ≠ [] := fun hr => h ((kind_next_eq_eof_iff s).mpr (by simp [hr]))
  have := List.length_pos_iff.mpr hne
  omega

def finish (s : Scanner) : Token := ⟨.eof, "", .ofBytes s.file (s.offset + utf8Length s.rest) 0⟩

variable {f : String} {o : Nat} {c : Char} {a b cs : List Char}

theorem utf8Length_take_add_drop (n : Nat) (c : Char) (cs : List Char) :
    utf8Length (c :: cs.take n) + utf8Length (cs.drop n) = utf8Length (c :: cs) := by
  rw [← utf8Length_append, List.cons_append, List.take_append_drop]

theorem next_nil : next ⟨f, o, []⟩ = (finish ⟨f, o, []⟩, ⟨f, o, []⟩) := rfl

theorem next_blank (h : isBlank c) : next ⟨f, o, c :: cs⟩ = next ⟨f, o + c.utf8Size, cs⟩ := by
  have hs : skipBlanks ⟨f, o, c :: cs⟩ = skipBlanks ⟨f, o + c.utf8Size, cs⟩ := by
    simp [skipBlanks, drop, h, Nat.add_assoc]
  rw [next, hs]
  rfl

theorem next_blanks (h : ∀ c ∈ a, isBlank c) :
    next ⟨f, o, a ++ b⟩ = next ⟨f, o + utf8Length a, b⟩ := by
  induction a generalizing o with
  | nil => rfl
  | cons c a ih =>
    obtain ⟨hc, ha⟩ := List.forall_mem_cons.mp h
    rw [List.cons_append, next_blank hc, ih ha, utf8Length_cons, Nat.add_assoc]

theorem next_token (h : ¬isBlank c) :
    next ⟨f, o, c :: cs⟩ =
      (⟨(headToken c cs).1, String.ofList (c :: cs.take (headToken c cs).2),
          .ofBytes f o (utf8Length (c :: cs.take (headToken c cs).2))⟩,
        ⟨f, o + utf8Length (c :: cs.take (headToken c cs).2), cs.drop (headToken c cs).2⟩) := by
  have hs : skipBlanks ⟨f, o, c :: cs⟩ = ⟨f, o, c :: cs⟩ := by
    simp [skipBlanks, drop, h]
  rw [next, hs]
  rfl

theorem lexemes_nil : lexemes ⟨f, o, []⟩ = [] := by
  rw [lexemes, next_nil]
  exact if_pos rfl

theorem lexemes_blank (h : isBlank c) :
    lexemes ⟨f, o, c :: cs⟩ = lexemes ⟨f, o + c.utf8Size, cs⟩ := by
  rw [lexemes, lexemes.eq_def ⟨f, o + c.utf8Size, cs⟩, next_blank h]

theorem lexemes_token (h : ¬isBlank c) :
    lexemes ⟨f, o, c :: cs⟩ =
      ⟨(headToken c cs).1, String.ofList (c :: cs.take (headToken c cs).2),
          .ofBytes f o (utf8Length (c :: cs.take (headToken c cs).2))⟩ ::
        lexemes ⟨f, o + utf8Length (c :: cs.take (headToken c cs).2),
          cs.drop (headToken c cs).2⟩ := by
  rw [lexemes, next_token h, if_neg (headToken_kind_ne_eof c cs)]

/-- A text is empty, or it starts with a blank or with a token. -/
theorem text_induction {motive : List Char → Prop} (nil : motive [])
    (blank : ∀ c cs, isBlank c → motive cs → motive (c :: cs))
    (token : ∀ c cs, ¬isBlank c → motive (cs.drop (headToken c cs).2) → motive (c :: cs))
    (cs : List Char) : motive cs := by
  induction hn : cs.length using Nat.strongRecOn generalizing cs with
  | _ n ih =>
    cases cs with
    | nil => exact nil
    | cons c cs =>
      rw [List.length_cons] at hn
      by_cases h : isBlank c
      · exact blank c cs h (ih cs.length (by omega) cs rfl)
      · apply token c cs h
        exact ih _ (by rw [List.length_drop]; omega) _ rfl

theorem kind_ne_eof_of_mem_lexemes (s : Scanner) : ∀ t ∈ s.lexemes, t.kind ≠ .eof := by
  fun_induction lexemes s with
  | case1 s h => simp
  | case2 s h ih =>
    intro t ht
    rcases List.mem_cons.mp ht with rfl | ht
    · exact h
    · exact ih t ht

theorem gives_lexemes (s : Scanner) : TokenSource.Gives s s.lexemes s.finish := by
  obtain ⟨f, o, cs⟩ := s
  induction cs using text_induction generalizing o with
  | nil =>
    rw [lexemes_nil]
    exact TokenSource.gives_nil next_nil
  | blank c cs h ih =>
    have hg := ih (o + c.utf8Size)
    rw [lexemes_blank h]
    have hf : finish ⟨f, o, c :: cs⟩ = finish ⟨f, o + c.utf8Size, cs⟩ := by
      simp [finish, Nat.add_assoc]
    have hn : next ⟨f, o, c :: cs⟩ = next ⟨f, o + c.utf8Size, cs⟩ := next_blank h
    rw [hf]
    exact TokenSource.gives_of_next_eq (next_blank h) hg
  | token c cs h ih =>
    have hf : finish ⟨f, o, c :: cs⟩ = finish ⟨f, o + utf8Length (c :: cs.take (headToken c cs).2),
        cs.drop (headToken c cs).2⟩ := by
      simp only [finish, Nat.add_assoc, utf8Length_take_add_drop]
    rw [lexemes_token h, hf]
    exact TokenSource.gives_cons (next_token h) (ih _)

end Scanner

theorem tokenize_eq_append (text file : String) :
    tokenize text file =
      (Scanner.ofText text file).lexemes ++ [(Scanner.ofText text file).finish] :=
  (Scanner.gives_lexemes _).toList_eq (Scanner.kind_ne_eof_of_mem_lexemes _) rfl

namespace Scan

/-- No token goes on from `x` to `y`. -/
def Apart (x y : Char) : Prop :=
  ¬(isWordChar x ∧ isWordChar y) ∧ ¬((x = '=' ∨ x = '!') ∧ y = '=')

variable {c : Char} {b cs : List Char}

private theorem takeWhile_append_of_apart {p : Char → Bool} (hp : ∀ x, p x → isWordChar x)
    (hc : isWordChar c) (h : ∀ x ∈ (c :: cs).getLast?, ∀ y ∈ b.head?, Apart x y) :
    (cs ++ b).takeWhile p = cs.takeWhile p := by
  induction cs generalizing c with
  | nil =>
    cases b with
    | nil => rfl
    | cons y b =>
      have hy : ¬p y := fun hy => (h c rfl y rfl).1 ⟨hc, hp y hy⟩
      simp [hy]
  | cons d ds ih =>
    by_cases hd : p d
    · have hlast : ∀ x ∈ (d :: ds).getLast?, ∀ y ∈ b.head?, Apart x y := by simpa using h
      simp [hd, ih (hp d hd) hlast]
    · simp [hd]

theorem isWordChar_eq (c : Char) : isWordChar c = (isWordStart c || c.isDigit) := by
  unfold isWordChar isWordStart Char.isAlphanum
  grind

theorem isWordChar_of_isWordStart (h : isWordStart c) : isWordChar c := by
  unfold isWordStart at h
  unfold isWordChar Char.isAlphanum
  grind

theorem isWordChar_of_isDigit (h : c.isDigit) : isWordChar c := by
  simp [isWordChar, Char.isAlphanum, h]

theorem isDigit_iff : c.isDigit ↔ 48 ≤ c.toNat ∧ c.toNat ≤ 57 := by
  simp [Char.isDigit, UInt32.le_iff_toNat_le, ← Char.toNat_val]

theorem isWordStart_iff : isWordStart c ↔
    (65 ≤ c.toNat ∧ c.toNat ≤ 90) ∨ (97 ≤ c.toNat ∧ c.toNat ≤ 122) ∨ c.toNat = 95 := by
  have hscore : c = '_' ↔ c.toNat = 95 := Char.toNat_inj.symm
  rw [← hscore]
  unfold isWordStart Char.isAlpha Char.isUpper Char.isLower
  simp [UInt32.le_iff_toNat_le, ← Char.toNat_val, or_assoc]

theorem not_isWordStart_of_isDigit (h : c.isDigit) : ¬isWordStart c := by
  rw [isDigit_iff] at h
  rw [isWordStart_iff]
  omega

theorem headToken_of_word (h : isWordStart c) :
    headToken c cs = (.ofWord (String.ofList (c :: cs.takeWhile isWordChar)),
      (cs.takeWhile isWordChar).length) := by
  rw [headToken, if_pos h]

theorem headToken_of_digit (hw : ¬isWordStart c) (hd : c.isDigit) :
    headToken c cs = (.integer, (cs.takeWhile Char.isDigit).length) := by
  rw [headToken, if_neg hw, if_pos hd]

theorem headToken_of_symbol (hw : ¬isWordStart c) (hd : ¬c.isDigit)
    (h : ¬((c = '=' ∨ c = '!') ∧ cs.head? = some '=')) :
    headToken c cs = (.ofSymbol c, 0) := by
  rw [headToken, if_neg hw, if_neg hd, if_neg fun hc => h ⟨.inl hc.1, hc.2⟩,
    if_neg fun hc => h ⟨.inr hc.1, hc.2⟩]

/-- The first token stays what it is if the text is continued apart from it. -/
theorem headToken_append (h : ∀ x ∈ (c :: cs).getLast?, ∀ y ∈ b.head?, Apart x y) :
    headToken c (cs ++ b) = headToken c cs := by
  by_cases hw : isWordStart c
  · rw [headToken_of_word hw, headToken_of_word hw,
      takeWhile_append_of_apart (fun _ hx => hx) (isWordChar_of_isWordStart hw) h]
  by_cases hd : c.isDigit
  · rw [headToken_of_digit hw hd, headToken_of_digit hw hd,
      takeWhile_append_of_apart (fun _ hx => isWordChar_of_isDigit hx) (isWordChar_of_isDigit hd) h]
  cases cs with
  | cons d ds =>
    by_cases hc : (c = '=' ∨ c = '!') ∧ d = '='
    · obtain ⟨rfl | rfl, rfl⟩ := hc <;> rfl
    · rw [headToken_of_symbol hw hd (by simpa using hc),
        headToken_of_symbol hw hd (by simpa using hc)]
  | nil =>
    have hb : ¬((c = '=' ∨ c = '!') ∧ b.head? = some '=') :=
      fun hc => (h c rfl '=' hc.2).2 ⟨hc.1, rfl⟩
    rw [List.nil_append, headToken_of_symbol hw hd hb, headToken_of_symbol hw hd (by simp)]

/-- A token is read in the same way from its own text. -/
theorem headToken_take : headToken c (cs.take (headToken c cs).2) = headToken c cs := by
  have hself : ∀ p : Char → Bool, (cs.takeWhile p).takeWhile p = cs.takeWhile p := by
    intro p
    induction cs with
    | nil => rfl
    | cons d ds ih => by_cases hd : p d <;> simp_all
  have htake : ∀ p : Char → Bool, cs.take (cs.takeWhile p).length = cs.takeWhile p := by
    intro p
    exact (List.prefix_iff_eq_take.mp (List.takeWhile_prefix p)).symm
  by_cases hw : isWordStart c
  · rw [headToken_of_word hw, headToken_of_word hw, htake, hself]
  by_cases hd : c.isDigit
  · rw [headToken_of_digit hw hd, headToken_of_digit hw hd, htake, hself]
  by_cases hc : (c = '=' ∨ c = '!') ∧ cs.head? = some '='
  · obtain ⟨hc, hh⟩ := hc
    obtain ⟨ds, rfl⟩ := List.head?_eq_some_iff.mp hh
    rcases hc with rfl | rfl <;> rfl
  · rw [headToken_of_symbol hw hd hc, headToken_of_symbol hw hd (by simp)]

end Scan

/-- A place `k` bytes further on. -/
def Position.shift (k : Nat) (p : Position) : Position := ⟨p.offset + k, p.file⟩

theorem Span.ofBytes_add {f : String} {o k n : Nat} (h : o + n + k ≤ maxOffset) :
    ofBytes f (o + k) n = (ofBytes f o n).relocate (Position.shift k) := by
  have hs : clampOffset (o + k) = clampOffset o + k := by
    rw [clampOffset_of_le (by omega), clampOffset_of_le (by omega)]
  have he : clampOffset (o + k + n) = clampOffset (o + n) + k := by
    rw [clampOffset_of_le (by omega), clampOffset_of_le (by omega)]
    omega
  simp only [ofBytes, Position.ofByte, relocate, Position.shift, hs, he]

namespace Scanner

variable {f : String} {o k : Nat} {a b cs : List Char}

theorem lexemes_append (h : ∀ x ∈ a.getLast?, ∀ y ∈ b.head?, Apart x y) :
    lexemes ⟨f, o, a ++ b⟩ = lexemes ⟨f, o, a⟩ ++ lexemes ⟨f, o + utf8Length a, b⟩ := by
  induction a using text_induction generalizing o with
  | nil =>
    rw [lexemes_nil]
    rfl
  | blank c cs hc ih =>
    have htail : ∀ x ∈ cs.getLast?, ∀ y ∈ b.head?, Apart x y := by
      intro x hx
      exact h x (by rw [List.getLast?_cons, hx]; rfl)
    rw [List.cons_append, lexemes_blank hc, lexemes_blank hc, ih htail, utf8Length_cons,
      Nat.add_assoc]
  | token c cs hc ih =>
    have hle := headToken_length_le c cs
    have htail : ∀ x ∈ (cs.drop (headToken c cs).2).getLast?, ∀ y ∈ b.head?, Apart x y := by
      intro x hx
      exact h x (by rw [List.getLast?_cons, mem_getLast?_of_drop hx]; rfl)
    rw [List.cons_append, lexemes_token hc, lexemes_token hc, headToken_append h,
      List.take_append_of_le_length hle, List.drop_append_of_le_length hle, ih htail]
    rw [Nat.add_assoc, utf8Length_take_add_drop, List.cons_append]

theorem finish_append :
    finish ⟨f, o, a ++ b⟩ = finish ⟨f, o + utf8Length a, b⟩ := by
  simp [finish, Nat.add_assoc]

/-- A semicolon at the end of a text is a token by itself. -/
theorem getLast?_lexemes (h : cs.getLast? = some ';') :
    ∃ t, (lexemes ⟨f, o, cs⟩).getLast? = some t ∧ t.kind = .semicolon := by
  obtain ⟨a, rfl⟩ := List.getLast?_eq_some_iff.mp h
  have ha : ∀ x ∈ a.getLast?, ∀ y ∈ [';'].head?, Apart x y := by
    intro x _ y hy
    obtain rfl : y = ';' := (Option.some.inj hy).symm
    exact ⟨fun hw => absurd hw.2 (by decide), fun hw => absurd hw.2 (by decide)⟩
  rw [lexemes_append ha, lexemes_token (by decide)]
  exact ⟨_, by rw [List.drop_nil, lexemes_nil, List.getLast?_concat], rfl⟩

/-- Up to the largest offset, the tokens of a text move with the text. -/
theorem lexemes_add (h : o + utf8Length cs + k ≤ maxOffset) :
    lexemes ⟨f, o + k, cs⟩ =
      (lexemes ⟨f, o, cs⟩).map (Token.relocate (Position.shift k)) := by
  induction cs using text_induction generalizing o with
  | nil =>
    rw [lexemes_nil, lexemes_nil]
    rfl
  | blank c cs hc ih =>
    rw [utf8Length_cons] at h
    rw [lexemes_blank hc, lexemes_blank hc, Nat.add_right_comm, ih (by omega)]
  | token c cs hc ih =>
    have hl := utf8Length_take_add_drop (headToken c cs).2 c cs
    rw [lexemes_token hc, lexemes_token hc, List.map_cons, Nat.add_right_comm, ih (by omega),
      Span.ofBytes_add (by omega)]
    rfl

theorem finish_add (h : o + utf8Length cs + k ≤ maxOffset) :
    finish ⟨f, o + k, cs⟩ = (finish ⟨f, o, cs⟩).relocate (Position.shift k) := by
  have hs := Span.ofBytes_add (f := f) (o := o + utf8Length cs) (n := 0) (k := k) (by omega)
  rw [Nat.add_right_comm] at hs
  simp only [finish, hs]
  rfl

end Scanner
end MonkeySyntax
