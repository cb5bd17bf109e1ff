import Mathlib.Data.List.TakeWhile
import MonkeySyntax.Proofs.Replayed

/-! Lexers that are put at any byte of a text. They can read exactly where no character is cut, and
from there they come to the end of the text in as many steps as it has characters, or fewer. -/
namespace MonkeySyntax

open Scan Text

namespace Text

/-- The byte `n` is the start of a character, or the end of the text. -/
def IsBoundary (n : Nat) (cs : List Char) : Prop :=
  ∃ before behind, cs = before ++ behind ∧ utf8Length before = n

/-- The byte `n` belongs to a character that starts before it. -/
def IsInside (n : Nat) (cs : List Char) : Prop :=
  ∃ before c behind, cs = before ++ c :: behind ∧ utf8Length before < n ∧
    n < utf8Length before + c.utf8Size

variable {n : Nat} {c : Char} {cs : List Char}

theorem IsBoundary.le (h : IsBoundary n cs) : n ≤ utf8Length cs := by
  obtain ⟨before, behind, rfl, rfl⟩ := h
  rw [utf8Length_append]
  exact Nat.le_add_right _ _

theorem IsInside.lt (h : IsInside n cs) : n < utf8Length cs := by
  obtain ⟨before, c, behind, rfl, -, hlt⟩ := h
  rw [utf8Length_append, utf8Length_cons]
  omega

theorem isInside_cons_iff :
    IsInside n (c :: cs) ↔
      (0 < n ∧ n < c.utf8Size) ∨ (c.utf8Size ≤ n ∧ IsInside (n - c.utf8Size) cs) := by
  constructor
  · rintro ⟨before, d, behind, hcs, hlo, hhi⟩
    cases before with
    | nil =>
      obtain ⟨rfl, -⟩ := List.cons.inj hcs
      rw [utf8Length_nil] at hlo hhi
      exact .inl ⟨hlo, by omega⟩
    | cons e before =>
      obtain ⟨rfl, rfl⟩ := List.cons.inj hcs
      rw [utf8Length_cons] at hlo hhi
      exact .inr ⟨by omega, before, d, behind, rfl, by omega, by omega⟩
  · rintro (⟨hlo, hhi⟩ | ⟨hle, before, d, behind, rfl, hlo, hhi⟩)
    · exact ⟨[], c, cs, rfl, hlo, by rw [utf8Length_nil]; omega⟩
    · refine ⟨c :: before, d, behind, rfl, ?_, ?_⟩ <;> rw [utf8Length_cons] <;> omega

theorem isBoundary_iff : IsBoundary n cs ↔ ∃ rest, dropBytes n cs = some rest := by
  unfold IsBoundary
  simp only [dropBytes_eq_some_iff]
  exact exists_comm

theorem dropBytes_eq_none_iff : dropBytes n cs = none ↔ IsInside n cs ∨ utf8Length cs < n := by
  fun_induction dropBytes n cs with
  | case1 cs =>
    constructor
    · intro h
      cases h
    · rintro (⟨before, c, behind, -, hlo, -⟩ | hlt)
      · exact absurd hlo (Nat.not_lt_zero _)
      · exact absurd hlt (Nat.not_lt_zero _)
  | case2 n => exact iff_of_true rfl (.inr (Nat.succ_pos n))
  | case3 n c cs hle ih =>
    rw [ih, isInside_cons_iff, utf8Length_cons]
    have hnot : ¬(0 < n + 1 ∧ n + 1 < c.utf8Size) := by omega
    have hlt : utf8Length cs < n + 1 - c.utf8Size ↔ c.utf8Size + utf8Length cs < n + 1 := by omega
    rw [hlt, or_iff_right hnot, and_iff_right hle]
  | case4 n c cs hle =>
    refine iff_of_true rfl (.inl (isInside_cons_iff.mpr (.inl ⟨Nat.succ_pos n, ?_⟩)))
    omega

end Text

namespace Lexer

/-- Reads the next token in place; where it cannot, the lexer stays as it is. -/
def tryNext (l : Lexer) : Option Token × Lexer :=
  match l.next? with
  | some (t, v) => (some t, v)
  | none => (none, l)

/-- The loop that looks for the next token. At each turn it looks at the text from the position on,
where there is one, and passes over blanks or gives a token. -/
inductive Scans : Lexer → Option Token → Lexer → Prop
  | finish {l : Lexer} (h : l.atEnd) : Scans l (some ⟨.eof, "", l.spanOf 0⟩) l
  | stuck {l : Lexer} (h : ¬l.atEnd) (hr : l.remainder? = none) : Scans l none l
  | blanks {l v : Lexer} {rest : String} {c : Char} {cs : List Char} {r : Option Token}
      (h : ¬l.atEnd) (hr : l.remainder? = some rest) (hrest : rest.toList = c :: cs)
      (hc : isBlank c) (hv : Scans (l.advance (utf8Length (c :: cs.takeWhile isBlank))) r v) :
      Scans l r v
  | token {l : Lexer} {rest : String} {c : Char} {cs : List Char} (h : ¬l.atEnd)
      (hr : l.remainder? = some rest) (hrest : rest.toList = c :: cs) (hc : ¬isBlank c) :
      Scans l
        (some ⟨(headToken c cs).1, String.ofList (c :: cs.take (headToken c cs).2),
          l.spanOf (utf8Length (c :: cs.take (headToken c cs).2))⟩)
        (l.advance (utf8Length (c :: cs.take (headToken c cs).2)))

variable {l v : Lexer} {r : Option Token} {s : Scanner} {rest : String} {before behind : List Char}

theorem atEnd_iff : l.atEnd ↔ utf8Length l.text ≤ l.position := decide_eq_true_iff

theorem remainder?_eq_none_iff :
    l.remainder? = none ↔ IsInside l.position l.text ∨ utf8Length l.text < l.position := by
  rw [remainder?, Option.map_eq_none_iff, dropBytes_eq_none_iff]

theorem remainder?_eq_some_iff :
    l.remainder? = some rest ↔
      ∃ before, l.text = before ++ rest.toList ∧ utf8Length before = l.position := by
  rw [remainder?, Option.map_eq_some_iff]
  constructor
  · rintro ⟨cs, hcs, rfl⟩
    rw [String.toList_ofList]
    exact dropBytes_eq_some_iff.mp hcs
  · intro h
    exact ⟨rest.toList, dropBytes_eq_some_iff.mpr h, String.ofList_toList⟩

theorem exists_remainder?_iff :
    (∃ rest, l.remainder? = some rest) ↔ IsBoundary l.position l.text := by
  rw [isBoundary_iff, ← Option.isSome_iff_exists, ← Option.isSome_iff_exists, remainder?,
    Option.isSome_map]

theorem scanner?_of_remainder? (h : l.remainder? = some rest) :
    l.scanner? = some ⟨l.file, l.position, rest.toList⟩ := by
  obtain ⟨before, htext, hpos⟩ := remainder?_eq_some_iff.mp h
  exact scanner?_of_append htext hpos.symm

theorem exists_cons_of_remainder? (h : ¬l.atEnd) (hr : l.remainder? = some rest) :
    ∃ c cs, rest.toList = c :: cs := by
  apply List.exists_cons_of_ne_nil
  intro hnil
  obtain ⟨before, htext, hpos⟩ := remainder?_eq_some_iff.mp hr
  rw [hnil, List.append_nil] at htext
  rw [atEnd_iff, htext, hpos] at h
  exact h (Nat.le_refl _)

theorem tryNext_of_scanner? (h : l.scanner? = some s) :
    l.tryNext = (some s.next.1, { l with position := s.next.2.offset }) := by
  rw [tryNext, next?_of_scanner? h]

theorem tryNext_of_atEnd (h : l.atEnd) : l.tryNext = (some ⟨.eof, "", l.spanOf 0⟩, l) :=
  tryNext_of_scanner? (if_pos h)

theorem tryNext_of_isInside (h : IsInside l.position l.text) : l.tryNext = (none, l) := by
  have hend : ¬l.atEnd := by
    rw [atEnd_iff]
    exact Nat.not_le.mpr h.lt
  have hscan : l.scanner? = none := by
    rw [scanner?, if_neg hend, dropBytes_eq_none_iff.mpr (.inl h)]
    rfl
  rw [tryNext, next?, hscan]
  rfl

/-- From a place between two characters the lexer moves on to another one, past one character or
more. -/
theorem exists_tryNext (hend : ¬l.atEnd) (hr : l.remainder? = some rest) :
    ∃ t v, l.tryNext = (some t, v) ∧ v.text = l.text ∧ v.file = l.file ∧
      IsBoundary v.position l.text ∧ l.position < v.position ∧
      (t.kind = .eof ↔ ∀ c ∈ rest.toList, isBlank c) := by
  obtain ⟨c, cs, hrest⟩ := exists_cons_of_remainder? hend hr
  have hscan := scanner?_of_remainder? hr
  obtain ⟨before, htext, hpos⟩ := remainder?_eq_some_iff.mp hr
  obtain ⟨n, hn⟩ := Scanner.exists_next_eq_drop ⟨l.file, l.position, rest.toList⟩
  have hshort := Scanner.length_rest_next ⟨l.file, l.position, rest.toList⟩
  refine ⟨_, _, tryNext_of_scanner? hscan, rfl, rfl, ?_, ?_, Scanner.kind_next_eq_eof_iff _⟩
  · refine ⟨before ++ rest.toList.take n, rest.toList.drop n, ?_, ?_⟩
    · rw [List.append_assoc, List.take_append_drop, htext]
    · rw [hn, utf8Length_append, hpos]
      rfl
  · have hchars := length_le_utf8Length (rest.toList.take n)
    rw [hn, Scanner.rest_drop, List.length_drop] at hshort
    rw [hn]
    simp only [Scanner.drop, hrest, List.length_cons, List.length_take] at hshort hchars ⊢
    omega

theorem tryNext_advance_blanks {c : Char} {cs : List Char} (hr : l.remainder? = some rest)
    (hrest : rest.toList = c :: cs) (hc : isBlank c) :
    (l.advance (utf8Length (c :: cs.takeWhile isBlank))).tryNext = l.tryNext := by
  obtain ⟨before, htext, hpos⟩ := remainder?_eq_some_iff.mp hr
  have hblank : ∀ x ∈ c :: cs.takeWhile isBlank, isBlank x :=
    List.forall_mem_cons.mpr ⟨hc, fun x hx => List.mem_takeWhile_imp hx⟩
  have hcut : c :: cs = (c :: cs.takeWhile isBlank) ++ cs.dropWhile isBlank := by
    rw [List.cons_append, List.takeWhile_append_dropWhile]
  have hscan : (l.advance (utf8Length (c :: cs.takeWhile isBlank))).scanner? =
      some ⟨l.file, l.position + utf8Length (c :: cs.takeWhile isBlank), cs.dropWhile isBlank⟩ := by
    apply scanner?_of_append (a := before ++ c :: cs.takeWhile isBlank)
    · rw [List.append_assoc, ← hcut, ← hrest]
      exact htext
    · rw [utf8Length_append, hpos]
      rfl
  rw [tryNext_of_scanner? hscan, tryNext_of_scanner? (scanner?_of_remainder? hr), hrest, hcut,
    Scanner.next_blanks hblank]
  rfl

theorem Scans.tryNext_eq (h : Scans l r v) : l.tryNext = (r, v) := by
  induction h with
  | finish h => exact tryNext_of_atEnd h
  | stuck h hr =>
    apply tryNext_of_isInside
    rw [atEnd_iff] at h
    rcases remainder?_eq_none_iff.mp hr with hin | hpast
    · exact hin
    · omega
  | blanks h hr hrest hc _ ih => rw [← ih, tryNext_advance_blanks hr hrest hc]
  | token h hr hrest hc =>
    rw [tryNext_of_scanner? (scanner?_of_remainder? hr), hrest, Scanner.next_token hc]
    rfl

/-- The loop comes to an end: each turn that does not end it leaves fewer bytes. -/
theorem exists_scans (l : Lexer) : ∃ r v, Scans l r v := by
  by_cases hend : l.atEnd
  · exact ⟨_, _, .finish hend⟩
  cases hr : l.remainder? with
  | none => exact ⟨_, _, .stuck hend hr⟩
  | some rest =>
    obtain ⟨c, cs, hrest⟩ := exists_cons_of_remainder? hend hr
    by_cases hc : isBlank c
    · have hlt : l.position < utf8Length l.text := Nat.not_le.mp (mt atEnd_iff.mpr hend)
      have hpos := c.utf8Size_pos
      obtain ⟨r, v, hv⟩ := exists_scans (l.advance (utf8Length (c :: cs.takeWhile isBlank)))
      exact ⟨r, v, .blanks hend hr hrest hc hv⟩
    · exact ⟨_, _, .token hend hr hrest hc⟩
termination_by utf8Length l.text - l.position
decreasing_by
  simp only [advance, utf8Length_cons]
  omega

theorem scans_iff : Scans l r v ↔ l.tryNext = (r, v) := by
  constructor
  · exact Scans.tryNext_eq
  · intro h
    obtain ⟨r', v', h'⟩ := exists_scans l
    cases h'.tryNext_eq.symm.trans h
    exact h'

theorem Scans.text_eq (h : Scans l r v) : v.text = l.text ∧ v.file = l.file := by
  induction h with
  | finish | stuck | token => exact ⟨rfl, rfl⟩
  | blanks _ _ _ _ _ ih => exact ih

theorem tryNext_eq_none_iff : l.tryNext.1 = none ↔ IsInside l.position l.text := by
  constructor
  · intro h
    by_cases hend : l.atEnd
    · rw [tryNext_of_atEnd hend] at h
      cases h
    cases hr : l.remainder? with
    | none =>
      rw [atEnd_iff] at hend
      rcases remainder?_eq_none_iff.mp hr with hin | hpast
      · exact hin
      · omega
    | some rest =>
      rw [tryNext_of_scanner? (scanner?_of_remainder? hr)] at h
      cases h
  · intro h
    rw [tryNext_of_isInside h]

/-- The lexers that come about from one at the start of a text when tokens are read, bytes passed
over, and clones kept and taken back. To look at the text that remains changes nothing. -/
inductive Reached (text file : String) : Lexer → List Lexer → Prop
  | start : Reached text file (.ofText text file) []
  | next {l v : Lexer} {kept : List Lexer} {r : Option Token} (h : Reached text file l kept)
      (hv : Scans l r v) : Reached text file v kept
  | advance {l : Lexer} {kept : List Lexer} (n : Nat) (h : Reached text file l kept) :
      Reached text file (l.advance n) kept
  | keep {l : Lexer} {kept : List Lexer} (h : Reached text file l kept) :
      Reached text file l (l :: kept)
  | takeBack {l k : Lexer} {kept : List Lexer} (h : Reached text file l kept) (hk : k ∈ kept) :
      Reached text file k kept

/-- The lexers that come about when tokens are read and nothing else, with their number. -/
inductive Driven (text file : String) : Nat → Lexer → Prop
  | start : Driven text file 0 (.ofText text file)
  | next {n : Nat} {l v : Lexer} {r : Option Token} (h : Driven text file n l)
      (hv : Scans l r v) : Driven text file (n + 1) v

variable {text file : String} {kept : List Lexer} {n : Nat}

theorem Reached.text_eq (h : Reached text file l kept) :
    ∀ k ∈ l :: kept, k.text = text.toList ∧ k.file = file := by
  induction h with
  | start => simp [ofText]
  | next _ hv ih =>
    obtain ⟨hl, hkept⟩ := List.forall_mem_cons.mp ih
    obtain ⟨ht, hf⟩ := hv.text_eq
    exact List.forall_mem_cons.mpr ⟨⟨ht.trans hl.1, hf.trans hl.2⟩, hkept⟩
  | advance n _ ih =>
    obtain ⟨hl, hkept⟩ := List.forall_mem_cons.mp ih
    exact List.forall_mem_cons.mpr ⟨hl, hkept⟩
  | keep _ ih => exact List.forall_mem_cons.mpr ⟨ih _ List.mem_cons_self, ih⟩
  | takeBack _ hk ih =>
    obtain ⟨-, hkept⟩ := List.forall_mem_cons.mp ih
    exact List.forall_mem_cons.mpr ⟨hkept _ hk, hkept⟩

theorem Scans.isBoundary (h : Scans l r v) (hl : IsBoundary l.position l.text) :
    IsBoundary v.position v.text := by
  rw [h.text_eq.1]
  obtain ⟨rest, hr⟩ := exists_remainder?_iff.mpr hl
  by_cases hend : l.atEnd
  · cases (tryNext_of_atEnd hend).symm.trans h.tryNext_eq
    exact hl
  · obtain ⟨t, u, hu, -, -, hb, -⟩ := exists_tryNext hend hr
    cases hu.symm.trans h.tryNext_eq
    exact hb

theorem Driven.scanner?_eq (h : Driven text file n l) :
    IsBoundary l.position l.text ∧
      l.scanner? = some (Pull.after Scanner.next n (Scanner.ofText text file)) := by
  induction h with
  | start => exact ⟨⟨[], text.toList, rfl, rfl⟩, scanner?_ofText text file⟩
  | @next n l v r _ hv ih =>
    obtain ⟨hb, hs⟩ := ih
    refine ⟨hv.isBoundary hb, ?_⟩
    cases (tryNext_of_scanner? hs).symm.trans hv.tryNext_eq
    rw [scanner?_next hs, Pull.after_succ]

end Lexer

theorem Scanner.length_lexemes_le {o : Nat} {f : String} (cs : List Char) :
    (lexemes ⟨f, o, cs⟩).length ≤ cs.length := by
  induction cs using text_induction generalizing o with
  | nil => simp [lexemes_nil]
  | blank c cs hc ih =>
    rw [lexemes_blank hc]
    exact Nat.le_succ_of_le ih
  | token c cs hc ih =>
    have htail := ih (o := o + utf8Length (c :: cs.take (headToken c cs).2))
    rw [List.length_drop] at htail
    rw [lexemes_token hc, List.length_cons, List.length_cons]
    omega

theorem Scanner.kind_nth_eq_eof_iff (s : Scanner) (n : Nat) :
    (TokenSource.nth n s).kind = .eof ↔ s.lexemes.length ≤ n := by
  rw [gives_lexemes s n, List.getD_eq_getElem?_getD]
  by_cases hn : n < s.lexemes.length
  · rw [List.getElem?_eq_getElem hn]
    exact iff_of_false (s.kind_ne_eof_of_mem_lexemes _ (List.getElem_mem hn)) (Nat.not_le.mpr hn)
  · rw [List.getElem?_eq_none (Nat.not_lt.mp hn)]
    exact iff_of_true rfl (Nat.not_lt.mp hn)

/-- Wherever a lexer was put, its scan loop ends, and with what is computed. It fails exactly inside
a character, and leaves the lexer as it was; there, and past the end, no text remains to be looked
at. At the end and behind it the next token is an empty end token, and the lexer stays. From a place
between two characters it moves on to a later one in the text, and finds the end exactly if only
blanks were left. A lexer that only reads tokens never fails, and gives end tokens for ever after as
many other tokens as the text has characters, or fewer. -/
theorem Lexer.reached_safe {text file : String} {l : Lexer} {kept : List Lexer}
    (h : Reached text file l kept) :
    (∀ r v, Scans l r v ↔ l.tryNext = (r, v)) ∧
    (l.tryNext.1 = none ↔ IsInside l.position text.toList) ∧
    (l.tryNext.1 = none → l.tryNext.2 = l) ∧
    (l.remainder? = none ↔
      IsInside l.position text.toList ∨ utf8Length text.toList < l.position) ∧
    (utf8Length text.toList ≤ l.position →
      l.tryNext = (some (.endAt (.ofByte file l.position)), l)) ∧
    (l.position < utf8Length text.toList → ¬IsInside l.position text.toList →
      ∃ t v rest, l.tryNext = (some t, v) ∧ l.remainder? = some rest ∧
        IsBoundary v.position text.toList ∧ l.position < v.position ∧
        v.position ≤ utf8Length text.toList ∧
        (t.kind = .eof ↔ ∀ c ∈ rest.toList, isBlank c)) ∧
    ∃ m ≤ text.toList.length, ∀ n u, Driven text file n u →
      ∃ t v rest, u.tryNext = (some t, v) ∧ u.remainder? = some rest ∧
        (t.kind = .eof ↔ m ≤ n) := by
  obtain ⟨htext, hfile⟩ := h.text_eq l List.mem_cons_self
  rw [← htext, ← hfile]
  refine ⟨fun r v => scans_iff, tryNext_eq_none_iff, ?_, remainder?_eq_none_iff, ?_, ?_, ?_⟩
  · intro hnone
    rw [tryNext_of_isInside (tryNext_eq_none_iff.mp hnone)]
  · intro hle
    exact tryNext_of_atEnd (atEnd_iff.mpr hle)
  · intro hlt hin
    have hend : ¬l.atEnd := mt atEnd_iff.mp (Nat.not_le.mpr hlt)
    cases hr : l.remainder? with
    | none =>
      rcases remainder?_eq_none_iff.mp hr with hin' | hpast
      · exact absurd hin' hin
      · omega
    | some rest =>
      obtain ⟨t, v, hv, -, -, hb, hmove, hk⟩ := exists_tryNext hend hr
      exact ⟨t, v, rest, hv, rfl, hb, hmove, hb.le, hk⟩
  · refine ⟨(Scanner.ofText text file).lexemes.length, ?_, ?_⟩
    · rw [htext]
      exact Scanner.length_lexemes_le text.toList
    · rw [hfile]
      intro n u hu
      obtain ⟨hb, hs⟩ := hu.scanner?_eq
      obtain ⟨rest, hr⟩ := exists_remainder?_iff.mpr hb
      exact ⟨_, _, rest, tryNext_of_scanner? hs, hr, Scanner.kind_nth_eq_eof_iff _ n⟩

/-- In `é 1` the byte 1 is inside the letter, where nothing can be read; from byte 2 the lexer comes
to the end, which is behind the number. -/
theorem Lexer.reached_safe_letter :
    let l := (ofText "é 1" "f").advance 1
    Reached "é 1" "f" l [] ∧ l.tryNext = (none, l) ∧ l.remainder? = none ∧
      ∃ t v, (l.advance 1).tryNext = (some t, v) ∧ t.kind = .integer ∧ v.position = 4 := by
  intro l
  have hl : Reached "é 1" "f" l [] := .advance 1 .start
  have hin : IsInside 1 "é 1".toList := ⟨[], 'é', [' ', '1'], rfl, by decide, by decide⟩
  obtain ⟨-, hnone, hstay, hrem, -, -⟩ := reached_safe hl
  obtain ⟨-, -, -, -, -, hmove, -⟩ := reached_safe (.advance 1 hl)
  have hout : ¬IsInside 2 "é 1".toList := by
    intro h
    have hnone2 : dropBytes 2 "é 1".toList = none := dropBytes_eq_none_iff.mpr (.inl h)
    exact absurd hnone2 (by decide +kernel)
  obtain ⟨t, v, rest, hv, -, -, -, -, -⟩ := hmove (by decide +kernel) hout
  have hfails := hnone.mpr hin
  refine ⟨hl, Prod.ext hfails (hstay hfails), hrem.mpr (.inl hin), t, v, hv, ?_, ?_⟩
  · have ht : (l.advance 1).tryNext.1.map Token.kind = some .integer := by decide +kernel
    rw [hv] at ht
    exact Option.some.inj ht
  · have hp : (l.advance 1).tryNext.2.position = 4 := by decide +kernel
    rw [hv] at hp
    exact hp

end MonkeySyntax
