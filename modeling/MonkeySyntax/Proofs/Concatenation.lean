import MonkeySyntax.Proofs.MaximalMunch

/-! Texts one behind the other. The tokens of both come one behind the other too, unless a token of
the joined text reaches across the seam. Where there are blanks at the seam, none does. -/
namespace MonkeySyntax

open Scan Text

/-- The token starts before the byte `n` and stops behind it. -/
def Token.Crosses (n : Nat) (t : Token) : Prop :=
  t.span.start.offset < n ∧ n < t.span.stop.offset

/-- The tokens of a text without its end token, and those of a text that starts at the byte `n`. -/
def Token.joinAt (n : Nat) (ts us : List Token) : List Token :=
  ts.dropLast ++ us.map (relocate (Position.shift n))

variable {f : String} {o : Nat} {c : Char} {a b w cs ds : List Char} {t : Token}

theorem Scan.isBreak_of_isBlank (h : isBlank c) : isBreak c := by
  have hw : ¬isWordStart c := fun hw => not_isBlank_of_isWordStart hw h
  have hd : ¬c.isDigit := fun hd => not_isBlank_of_isDigit hd h
  have he : c ≠ '=' := by
    rintro rfl
    exact absurd h (by decide)
  have hb : c ≠ '!' := by
    rintro rfl
    exact absurd h (by decide)
  simp [isBreak, isWordChar_eq, hw, hd, he, hb]

theorem Scan.headToken_append_of_le (h : (headToken c (cs ++ ds)).2 ≤ cs.length) :
    headToken c (cs ++ ds) = headToken c cs := by
  have htake : headToken c (cs.take (headToken c (cs ++ ds)).2) = headToken c (cs ++ ds) := by
    have hself : headToken c ((cs ++ ds).take (headToken c (cs ++ ds)).2) = _ := headToken_take
    rwa [List.take_append_of_le_length h] at hself
  have hle : (headToken c cs).2 ≤ (headToken c (cs ++ ds)).2 := headToken_length_le_append
  have hge : (headToken c (cs ++ ds)).2 ≤ (headToken c cs).2 := by
    have hmono : (headToken c (cs.take (headToken c (cs ++ ds)).2)).2 ≤
        (headToken c (cs.take (headToken c (cs ++ ds)).2 ++
          cs.drop (headToken c (cs ++ ds)).2)).2 :=
      headToken_length_le_append
    rwa [htake, List.take_append_drop] at hmono
  calc headToken c (cs ++ ds)
      = headToken c (cs.take (headToken c (cs ++ ds)).2) := htake.symm
    _ = headToken c (cs.take (headToken c cs).2) := by rw [Nat.le_antisymm hge hle]
    _ = headToken c cs := headToken_take

theorem length_le_of_utf8Length_take_le {n : Nat} (hn : n ≤ (a ++ b).length)
    (h : utf8Length ((a ++ b).take n) ≤ utf8Length a) : n ≤ a.length := by
  apply Nat.not_lt.mp
  intro hlt
  have hpos := length_le_utf8Length (b.take (n - a.length))
  rw [List.take_append, List.take_of_length_le (Nat.le_of_lt hlt), utf8Length_append] at h
  rw [List.length_append] at hn
  rw [List.length_take] at hpos
  omega

namespace Scanner

theorem lexemes_blanks (hw : ∀ c ∈ w, isBlank c) :
    lexemes ⟨f, o, w ++ b⟩ = lexemes ⟨f, o + utf8Length w, b⟩ := by
  rw [lexemes, lexemes.eq_def ⟨f, o + utf8Length w, b⟩, next_blanks hw]

theorem lexemes_append_blanks (hw : ∀ c ∈ w, isBlank c) (hne : w ≠ []) :
    lexemes ⟨f, o, a ++ (w ++ b)⟩ =
      lexemes ⟨f, o, a⟩ ++ lexemes ⟨f, o + utf8Length (a ++ w), b⟩ := by
  have hapart : ∀ x ∈ a.getLast?, ∀ y ∈ (w ++ b).head?, Apart x y := by
    intro x _ y hy
    obtain ⟨d, v, rfl⟩ := List.exists_cons_of_ne_nil hne
    obtain rfl : d = y := Option.some.inj hy
    exact apart_of_isBreak (.inr (isBreak_of_isBlank (hw d List.mem_cons_self)))
  rw [lexemes_append hapart, lexemes_blanks hw, utf8Length_append, Nat.add_assoc]

theorem mem_lexemes_bounds (h : o + utf8Length cs ≤ maxOffset) (ht : t ∈ lexemes ⟨f, o, cs⟩) :
    o ≤ t.span.start.offset ∧ t.span.stop.offset ≤ o + utf8Length cs := by
  have hplaced := ((tokenized_iff h).mpr rfl).placed t ht
  exact ⟨hplaced.le_start, hplaced.stop_le⟩

theorem not_crosses_of_lexemes_append (h : o + utf8Length (a ++ b) ≤ maxOffset)
    (heq : lexemes ⟨f, o, a ++ b⟩ = lexemes ⟨f, o, a⟩ ++ lexemes ⟨f, o + utf8Length a, b⟩) :
    ∀ t ∈ lexemes ⟨f, o, a ++ b⟩, ¬t.Crosses (o + utf8Length a) := by
  rw [utf8Length_append] at h
  intro t ht
  unfold Token.Crosses
  rw [heq] at ht
  rcases List.mem_append.mp ht with ht | ht
  · have := mem_lexemes_bounds (by omega) ht
    omega
  · have := mem_lexemes_bounds (by omega) ht
    omega

theorem length_le_of_not_crosses {k : TokenKind} {l : String} {n : Nat}
    (h : o + utf8Length (c :: cs ++ b) ≤ maxOffset) (hn : n ≤ (cs ++ b).length)
    (ht : ¬Token.Crosses (o + utf8Length (c :: cs))
      ⟨k, l, .ofBytes f o (utf8Length (c :: (cs ++ b).take n))⟩) : n ≤ cs.length := by
  apply length_le_of_utf8Length_take_le hn
  have hsplit := utf8Length_take_add_drop n c (cs ++ b)
  have hpos := c.utf8Size_pos
  rw [List.cons_append] at h
  unfold Token.Crosses Span.ofBytes Position.ofByte at ht
  simp only at ht
  rw [clampOffset_of_le (by omega), clampOffset_of_le (by omega)] at ht
  simp only [utf8Length_cons] at ht
  omega

/-- If no token reaches across the seam, each is read from one of the parts. -/
theorem lexemes_append_of_not_crosses (h : o + utf8Length (a ++ b) ≤ maxOffset)
    (hcross : ∀ t ∈ lexemes ⟨f, o, a ++ b⟩, ¬t.Crosses (o + utf8Length a)) :
    lexemes ⟨f, o, a ++ b⟩ = lexemes ⟨f, o, a⟩ ++ lexemes ⟨f, o + utf8Length a, b⟩ := by
  induction a using text_induction generalizing o with
  | nil =>
    rw [lexemes_nil]
    rfl
  | blank c cs hc ih =>
    rw [List.cons_append, utf8Length_cons] at h
    rw [List.cons_append, lexemes_blank hc, utf8Length_cons, ← Nat.add_assoc] at hcross
    rw [List.cons_append, lexemes_blank hc, lexemes_blank hc, utf8Length_cons, ← Nat.add_assoc]
    exact ih (by omega) hcross
  | token c cs hc ih =>
    rw [List.cons_append, lexemes_token hc] at hcross
    obtain ⟨hfirst, hlater⟩ := List.forall_mem_cons.mp hcross
    have hle := length_le_of_not_crosses h (headToken_length_le c (cs ++ b)) hfirst
    have hhead := headToken_append_of_le hle
    rw [hhead] at hle
    rw [hhead, List.take_append_of_le_length hle, List.drop_append_of_le_length hle] at hlater
    have hcut := utf8Length_take_add_drop (headToken c cs).2 c cs
    rw [← hcut, ← Nat.add_assoc] at hlater ⊢
    rw [List.cons_append, lexemes_token hc, lexemes_token hc, hhead,
      List.take_append_of_le_length hle, List.drop_append_of_le_length hle, List.cons_append,
      ih ?_ hlater]
    rw [utf8Length_append] at h ⊢
    omega

/-- The tokens of two texts come one behind the other exactly if no token of the joined text reaches
across the seam. -/
theorem lexemes_append_iff (h : o + utf8Length (a ++ b) ≤ maxOffset) :
    lexemes ⟨f, o, a ++ b⟩ = lexemes ⟨f, o, a⟩ ++ lexemes ⟨f, o + utf8Length a, b⟩ ↔
      ∀ t ∈ lexemes ⟨f, o, a ++ b⟩, ¬t.Crosses (o + utf8Length a) :=
  ⟨not_crosses_of_lexemes_append h, lexemes_append_of_not_crosses h⟩

theorem not_crosses_finish (s : Scanner) (n : Nat) : ¬s.finish.Crosses n := by
  intro h
  exact Nat.lt_irrefl _ (Nat.lt_trans h.1 h.2)

end Scanner

theorem Token.joinAt_tokenize {a b : String} {n : Nat}
    (h : n + utf8Length b.toList ≤ maxOffset) :
    joinAt n (tokenize a f) (tokenize b f) =
      Scanner.lexemes ⟨f, 0, a.toList⟩ ++ Scanner.lexemes ⟨f, n, b.toList⟩ ++
        [Scanner.finish ⟨f, n, b.toList⟩] := by
  have hbound : 0 + utf8Length b.toList + n ≤ maxOffset := by omega
  have hl := Scanner.lexemes_add (f := f) hbound
  have hf := Scanner.finish_add (f := f) hbound
  rw [Nat.zero_add] at hl hf
  rw [joinAt, tokenize_eq_append, tokenize_eq_append, List.dropLast_concat, List.map_append, hl, hf,
    List.append_assoc]
  rfl

/-- Tokenizing distributes over joining texts with blanks between them. Without blanks it does so
exactly if no token of the joined text starts in front of the seam and stops behind it. The second
text starts behind the first one and the blanks, and the offsets of its tokens go up by as much. -/
theorem tokenize_append {a w b : String} (hw : ∀ c ∈ w.toList, isBlank c)
    (h : utf8Length (a ++ w ++ b).toList ≤ maxOffset) :
    (w ≠ "" → tokenize (a ++ w ++ b) f =
      Token.joinAt (utf8Length (a ++ w).toList) (tokenize a f) (tokenize b f)) ∧
    (w = "" → (tokenize (a ++ w ++ b) f =
        Token.joinAt (utf8Length (a ++ w).toList) (tokenize a f) (tokenize b f) ↔
      ∀ t ∈ tokenize (a ++ b) f, ¬t.Crosses (utf8Length a.toList))) := by
  rw [String.toList_append] at h
  have hjoined := Token.joinAt_tokenize (f := f) (a := a) (b := b)
    (n := utf8Length (a ++ w).toList) (by rwa [utf8Length_append] at h)
  have hfinish : (Scanner.ofText (a ++ w ++ b) f).finish =
      Scanner.finish ⟨f, utf8Length (a ++ w).toList, b.toList⟩ := by
    rw [Scanner.ofText, String.toList_append, Scanner.finish_append, Nat.zero_add]
  rw [hjoined, tokenize_eq_append, hfinish, Scanner.ofText, String.toList_append]
  constructor
  · intro hne
    have hcs : w.toList ≠ [] := mt String.toList_eq_nil_iff.mp hne
    rw [String.toList_append, List.append_assoc, Scanner.lexemes_append_blanks hw hcs,
      Nat.zero_add]
  · rintro rfl
    rw [String.append_empty] at h hfinish ⊢
    have hiff := Scanner.lexemes_append_iff (f := f) (o := 0) (a := a.toList) (b := b.toList)
      (by rwa [Nat.zero_add])
    rw [Nat.zero_add] at hiff
    rw [List.append_left_inj, hiff, tokenize_eq_append, hfinish, List.forall_mem_append,
      Scanner.ofText, String.toList_append]
    constructor
    · intro hcross
      refine ⟨hcross, fun t ht => ?_⟩
      rw [List.mem_singleton.mp ht]
      exact Scanner.not_crosses_finish _ _
    · exact fun hcross => hcross.1

/-- In `ab` and `1` one behind the other a single name reaches across the seam; with a blank of
three bytes between them the number stays a number, five bytes further on. -/
theorem tokenize_append_seam :
    ¬(tokenize ("ab" ++ "" ++ "1") "f" =
      Token.joinAt (utf8Length ("ab" ++ "").toList) (tokenize "ab" "f") (tokenize "1" "f")) ∧
    tokenize ("ab" ++ "\u2003" ++ "1") "f" =
      [⟨.identifier, "ab", ⟨⟨0, "f"⟩, ⟨2, "f"⟩⟩⟩, ⟨.integer, "1", ⟨⟨5, "f"⟩, ⟨6, "f"⟩⟩⟩,
        .endAt ⟨6, "f"⟩] := by
  have hblank := (tokenize_append (a := "ab") (w := "\u2003") (b := "1") (f := "f")
    (List.all_eq_true.mp (by decide +kernel)) (by decide +kernel)).1 (by decide)
  have hnone := (tokenize_append (a := "ab") (w := "") (b := "1") (f := "f")
    (List.all_eq_true.mp (by decide +kernel)) (by decide +kernel)).2 rfl
  constructor
  · intro heq
    have hcross := hnone.mp heq ⟨.identifier, "ab1", ⟨⟨0, "f"⟩, ⟨3, "f"⟩⟩⟩ (by decide +kernel)
    exact hcross ⟨by decide, by decide +kernel⟩
  · rw [hblank]
    decide +kernel

end MonkeySyntax
