import MonkeySyntax.Proofs.Lines
import MonkeySyntax.Proofs.MaximalMunch

/-! The line of a byte. Of the lines of a text, exactly one holds a given byte, and it is the one
that is looked up; for bytes behind the text that is the last line. -/
namespace MonkeySyntax.Text

/-- Between `before` and `behind` there is a line: it starts with the text or behind a line feed,
and it goes on to the next line feed, which is part of it, or to the end of the text. -/
structure IsLine (before line behind : List Char) : Prop where
  starts : before = [] ∨ before.getLast? = some '\n'
  single : '\n' ∉ line.dropLast
  ends : behind = [] ∨ line.getLast? = some '\n'

/-- `l` is the line of `text` for the byte `n`. If there is such a byte, the line holds it, and its
number is one more than that of the line feeds in front of the byte. Otherwise it is the last line,
which is empty only if the text is, and the place in it is its end, in front of its line feed. -/
structure SourceLine.Holds (l : SourceLine) (text : String) (n : Nat) (before behind : List Char) :
    Prop where
  text_eq : text.toList = before ++ (l.text.toList ++ behind)
  isLine : IsLine before l.text.toList behind
  of_lt : n < utf8Length text.toList →
    l.number = 1 + ((bytesOf text).take n).count 10 ∧ utf8Length before + l.offset = n ∧
      l.offset < utf8Length l.text.toList
  of_le : utf8Length text.toList ≤ n →
    behind = [] ∧ (l.text = "" → text = "") ∧ l.number = 1 + before.count '\n' ∧
      l.offset = utf8Length (dropLastIf '\n' l.text.toList)

/-- A text is empty, a line without a line feed, or a line with one and a text behind it. -/
theorem line_induction {motive : List Char → Prop} (nil : motive [])
    (last : ∀ line, line ≠ [] → '\n' ∉ line → motive line)
    (cons : ∀ line rest, '\n' ∉ line → motive rest → motive (line ++ '\n' :: rest))
    (cs : List Char) : motive cs := by
  obtain ⟨lines, h⟩ := exists_lines '\n' '\n' cs
  induction h with
  | nil => exact nil
  | last hne hline => exact last _ hne hline
  | cons hline _ ih => exact cons _ _ hline ih

theorem pieces_eq_nil_iff {α : Type} [DecidableEq α] {stop : α} {as : List α} :
    pieces stop as = [] ↔ as = [] := by
  constructor
  · intro h
    rw [← flatten_pieces stop as, h, List.flatten_nil]
  · rintro rfl
    rfl

namespace IsLine

variable {line before behind l before' l' behind' rest : List Char} {n : Nat}

theorem of_not_mem (h : '\n' ∉ line) : IsLine [] line [] where
  starts := .inl rfl
  single := fun hmem => h ((List.dropLast_sublist line).subset hmem)
  ends := .inl rfl

theorem first (h : '\n' ∉ line) (rest : List Char) : IsLine [] (line ++ ['\n']) rest where
  starts := .inl rfl
  single := by rwa [List.dropLast_concat]
  ends := .inr List.getLast?_concat

theorem behind_line (h : IsLine before l behind) (line : List Char) :
    IsLine (line ++ '\n' :: before) l behind where
  starts := by
    right
    rcases h.starts with rfl | hlast
    · exact List.getLast?_concat
    · rw [List.getLast?_append, List.getLast?_cons, hlast]
      rfl
  single := h.single
  ends := h.ends

theorem before_eq (h : IsLine before l behind) (h' : IsLine before' l' behind')
    (heq : before ++ (l ++ behind) = before' ++ (l' ++ behind'))
    (hle : utf8Length before ≤ utf8Length before')
    (hlt : utf8Length before' < utf8Length before + utf8Length l) : before = before' := by
  obtain ⟨m, rfl, hm⟩ := exists_eq_append_of_utf8Length_le heq hle
  rw [utf8Length_append] at hlt
  obtain ⟨m', rfl, -⟩ := exists_eq_append_of_utf8Length_le hm.symm (by omega)
  rcases List.eq_nil_or_concat m with rfl | ⟨m, c, rfl⟩
  · rw [List.append_nil]
  · have hm' : m' ≠ [] := by
      rintro rfl
      simp at hlt
    have hc : c = '\n' := by
      rcases h'.starts with hnil | hlast
      · simp at hnil
      · simpa using hlast
    apply absurd _ h.single
    rw [List.dropLast_append_of_ne_nil hm', hc]
    simp

theorem line_eq (h : IsLine before l behind) (h' : IsLine before l' behind')
    (heq : l ++ behind = l' ++ behind') : l = l' := by
  have shorter : ∀ {l l' behind behind' : List Char}, IsLine before l behind →
      IsLine before l' behind' → l ++ behind = l' ++ behind' →
      utf8Length l ≤ utf8Length l' → l = l' := by
    intro l l' behind behind' h h' heq hle
    obtain ⟨m, rfl, rfl⟩ := exists_eq_append_of_utf8Length_le heq hle
    by_cases hm : m = []
    · rw [hm, List.append_nil]
    · rcases h.ends with hnil | hlast
      · exact absurd (List.append_eq_nil_iff.mp hnil).1 hm
      · apply absurd _ h'.single
        rw [List.dropLast_append_of_ne_nil hm]
        exact List.mem_append_left _ (List.mem_of_getLast? hlast)
  rcases Nat.le_total (utf8Length l) (utf8Length l') with hle | hle
  · exact shorter h h' heq hle
  · exact (shorter h' h heq.symm hle).symm

/-- A byte is in one line only. -/
theorem unique (h : IsLine before l behind) (h' : IsLine before' l' behind')
    (heq : before ++ (l ++ behind) = before' ++ (l' ++ behind'))
    (hlo : utf8Length before ≤ n) (hhi : n < utf8Length before + utf8Length l)
    (hlo' : utf8Length before' ≤ n) (hhi' : n < utf8Length before' + utf8Length l') :
    before = before' ∧ l = l' := by
  have hbefore : before = before' := by
    rcases Nat.le_total (utf8Length before) (utf8Length before') with hle | hle
    · exact h.before_eq h' heq hle (by omega)
    · exact (h'.before_eq h heq.symm hle (by omega)).symm
  subst hbefore
  exact ⟨rfl, h.line_eq h' (List.append_cancel_left heq)⟩

end IsLine

section Bytes

variable {cs before l behind : List Char} {n : Nat}

theorem length_utf8 (cs : List Char) : (utf8 cs).length = utf8Length cs := by
  induction cs with
  | nil => rfl
  | cons c cs ih => rw [utf8_cons, List.length_append, String.length_utf8EncodeChar, ih,
      utf8Length_cons]

theorem IsSingleByte.count_utf8 {c : Char} {b : UInt8} (h : IsSingleByte c b) (cs : List Char) :
    (utf8 cs).count b = cs.count c := by
  induction cs with
  | nil => rfl
  | cons d cs ih =>
    rw [utf8_cons, List.count_append, ih, List.count_cons, Nat.add_comm]
    congr 1
    by_cases hd : d = c
    · rw [hd, h.encode]
      simp
    · rw [List.count_eq_zero.mpr fun hmem => hd (h.eq_of_mem hmem)]
      simp [hd]

theorem IsLine.not_mem_take_utf8 (h : IsLine before l behind) (hn : n < utf8Length l) :
    10 ∉ (utf8 l).take n := by
  rcases List.eq_nil_or_concat l with rfl | ⟨init, c, rfl⟩
  · exact absurd hn (Nat.not_lt_zero n)
  have hinit : 10 ∉ utf8 init := by
    have hsingle := h.single
    rw [List.concat_eq_append, List.dropLast_concat] at hsingle
    exact mt isSingleByte_lineFeed.mem_utf8_iff.mp hsingle
  rw [List.concat_eq_append] at hn ⊢
  rw [utf8Length_append, utf8Length_cons, utf8Length_nil, Nat.add_zero] at hn
  rw [utf8_append, utf8_singleton, List.take_append, List.mem_append, length_utf8]
  rintro (hmem | hmem)
  · exact hinit (List.mem_of_mem_take hmem)
  · obtain rfl : c = '\n' := isSingleByte_lineFeed.eq_of_mem (List.mem_of_mem_take hmem)
    have hsize : ('\n' : Char).utf8Size = 1 := rfl
    have hzero : n - utf8Length init = 0 := by omega
    rw [hzero, List.take_zero] at hmem
    cases hmem

theorem IsLine.count_take_utf8 (h : IsLine before l behind) (hlo : utf8Length before ≤ n)
    (hhi : n < utf8Length before + utf8Length l) :
    ((utf8 (before ++ (l ++ behind))).take n).count 10 = before.count '\n' := by
  obtain ⟨k, rfl⟩ := Nat.exists_eq_add_of_le hlo
  have hk : k < utf8Length l := by omega
  have htake : (utf8 l ++ utf8 behind).take k = (utf8 l).take k :=
    List.take_append_of_le_length (by rw [length_utf8]; omega)
  rw [utf8_append, utf8_append, ← length_utf8, List.take_length_add_append, htake,
    List.count_append, isSingleByte_lineFeed.count_utf8,
    List.count_eq_zero.mpr (h.not_mem_take_utf8 hk), Nat.add_zero]

end Bytes

section Search

variable {cs line : List Char} {later : List (List Char)} {k n : Nat}

theorem utf8Length_append_cons (cs rest : List Char) (c : Char) :
    utf8Length (cs ++ c :: rest) = utf8Length (cs ++ [c]) + utf8Length rest := by
  rw [← utf8Length_append, List.append_assoc, List.singleton_append]

theorem locateFrom_of_lt (h : n < utf8Length line) :
    locateFrom k line later n = ⟨k, String.ofList line, n⟩ := by
  rw [locateFrom.eq_def, if_pos h]

theorem locateFrom_nil (h : ¬n < utf8Length line) :
    locateFrom k line [] n =
      ⟨k, String.ofList line, utf8Length (dropLastIf '\n' line)⟩ := by
  rw [locateFrom, if_neg h]

theorem locateFrom_cons {next : List Char} (h : ¬n < utf8Length line) :
    locateFrom k line (next :: later) n =
      locateFrom (k + 1) next later (n - utf8Length line) := by
  rw [locateFrom, if_neg h]

/-- The search passes the lines that end before the byte, and counts them. -/
theorem exists_locateFrom_of_lt (h : pieces '\n' cs = line :: later)
    (hn : n < utf8Length cs) :
    ∃ before l behind, cs = before ++ (l ++ behind) ∧ IsLine before l behind ∧
      utf8Length before ≤ n ∧ n < utf8Length before + utf8Length l ∧
      locateFrom k line later n =
        ⟨k + before.count '\n', String.ofList l, n - utf8Length before⟩ := by
  induction cs using line_induction generalizing k line later n with
  | nil => cases h
  | last l hne hl =>
    rw [pieces_of_not_mem hl hne] at h
    obtain ⟨rfl, rfl⟩ := List.cons.inj h
    exact ⟨[], l, [], by simp, .of_not_mem hl, Nat.zero_le _, by simpa using hn,
      locateFrom_of_lt hn⟩
  | cons l rest hl ih =>
    rw [pieces_append_cons hl] at h
    obtain ⟨rfl, rfl⟩ := List.cons.inj h
    by_cases hfirst : n < utf8Length (l ++ ['\n'])
    · exact ⟨[], l ++ ['\n'], rest, by simp, .first hl rest, Nat.zero_le _,
        by simpa using hfirst, locateFrom_of_lt hfirst⟩
    · have hlen := utf8Length_append_cons l rest '\n'
      cases hp : pieces '\n' rest with
      | nil =>
        rw [hlen, pieces_eq_nil_iff.mp hp] at hn
        exact absurd hn hfirst
      | cons next later =>
        obtain ⟨before, found, behind, rfl, hline, hlo, hhi, hloc⟩ :=
          ih (k := k + 1) (n := n - utf8Length (l ++ ['\n'])) hp (by omega)
        have hbefore := utf8Length_append_cons l before '\n'
        refine ⟨l ++ '\n' :: before, found, behind, by simp, hline.behind_line l, by omega,
          by omega, ?_⟩
        simp only [locateFrom_cons hfirst, hloc, hbefore, List.count_append, List.count_cons_self,
          List.count_eq_zero.mpr hl, SourceLine.mk.injEq, true_and]
        omega

/-- Behind the end of the text the search ends with the last line. -/
theorem exists_locateFrom_of_le (h : pieces '\n' cs = line :: later)
    (hn : utf8Length cs ≤ n) :
    ∃ before l, cs = before ++ l ∧ l ≠ [] ∧ IsLine before l [] ∧
      locateFrom k line later n =
        ⟨k + before.count '\n', String.ofList l, utf8Length (dropLastIf '\n' l)⟩ := by
  induction cs using line_induction generalizing k line later n with
  | nil => cases h
  | last l hne hl =>
    rw [pieces_of_not_mem hl hne] at h
    obtain ⟨rfl, rfl⟩ := List.cons.inj h
    exact ⟨[], l, rfl, hne, .of_not_mem hl, locateFrom_nil (Nat.not_lt.mpr hn)⟩
  | cons l rest hl ih =>
    rw [pieces_append_cons hl] at h
    obtain ⟨rfl, rfl⟩ := List.cons.inj h
    have hlen := utf8Length_append_cons l rest '\n'
    have hpast : ¬n < utf8Length (l ++ ['\n']) := by omega
    cases hp : pieces '\n' rest with
    | nil =>
      obtain rfl := pieces_eq_nil_iff.mp hp
      exact ⟨[], l ++ ['\n'], rfl, by simp, .first hl [], locateFrom_nil hpast⟩
    | cons next later =>
      obtain ⟨before, found, rfl, hne, hline, hloc⟩ :=
        ih (k := k + 1) (n := n - utf8Length (l ++ ['\n'])) hp (by omega)
      refine ⟨l ++ '\n' :: before, found, by simp, hne, hline.behind_line l, ?_⟩
      simp only [locateFrom_cons hpast, hloc, List.count_append, List.count_cons_self,
        List.count_eq_zero.mpr hl, SourceLine.mk.injEq, and_true]
      omega

end Search

theorem SourceLine.ext {l l' : SourceLine} (hnumber : l.number = l'.number)
    (htext : l.text.toList = l'.text.toList) (hoffset : l.offset = l'.offset) : l = l' := by
  obtain ⟨number, line, offset⟩ := l
  obtain ⟨number', line', offset'⟩ := l'
  rw [mk.injEq]
  exact ⟨hnumber, String.toList_inj.mp htext, hoffset⟩

section Locate

variable {text : String} {n : Nat} {l l' : SourceLine} {before behind before' behind' : List Char}

theorem exists_holds_locate (text : String) (n : Nat) :
    ∃ before behind, (locate text n).Holds text n before behind := by
  unfold locate
  cases hp : pieces '\n' text.toList with
  | nil =>
    have hnil := pieces_eq_nil_iff.mp hp
    have hempty : text = "" := String.toList_eq_nil_iff.mp hnil
    subst hempty
    have hloc : locateFrom 1 [] [] n = ⟨1, "", 0⟩ := locateFrom_nil (Nat.not_lt_zero n)
    simp only [hloc]
    exact ⟨[], [], rfl, .of_not_mem List.not_mem_nil, fun h => absurd h (Nat.not_lt_zero n),
      fun _ => ⟨rfl, fun _ => rfl, rfl, rfl⟩⟩
  | cons line later =>
    by_cases hn : n < utf8Length text.toList
    · obtain ⟨before, found, behind, heq, hline, hlo, hhi, hloc⟩ :=
        exists_locateFrom_of_lt (k := 1) hp hn
      simp only [hloc]
      refine ⟨before, behind, by simpa using heq, by simpa using hline, fun _ => ⟨?_, ?_, ?_⟩,
        fun hle => absurd hn (Nat.not_lt.mpr hle)⟩
      · rw [bytesOf_eq, heq, hline.count_take_utf8 hlo hhi]
      · exact Nat.add_sub_cancel' hlo
      · rw [String.toList_ofList]
        exact Nat.sub_lt_left_of_lt_add hlo hhi
    · obtain ⟨before, found, heq, hne, hline, hloc⟩ :=
        exists_locateFrom_of_le (k := 1) hp (Nat.not_lt.mp hn)
      simp only [hloc]
      refine ⟨before, [], by simpa using heq, by simpa using hline, fun hlt => absurd hlt hn,
        fun _ => ⟨rfl, fun h => ?_, rfl, by rw [String.toList_ofList]⟩⟩
      rw [String.ofList_eq_empty_iff] at h
      exact absurd h hne

namespace SourceLine.Holds

theorem text_ne_nil (h : l.Holds text n before behind) (htext : text.toList ≠ []) :
    l.text.toList ≠ [] := by
  intro hnil
  by_cases hn : n < utf8Length text.toList
  · have hlt := (h.of_lt hn).2.2
    rw [hnil] at hlt
    exact absurd hlt (Nat.not_lt_zero _)
  · have hempty := (h.of_le (Nat.not_lt.mp hn)).2.1 (String.toList_eq_nil_iff.mp hnil)
    exact htext (String.toList_eq_nil_iff.mpr hempty)

theorem unique (h : l.Holds text n before behind) (h' : l'.Holds text n before' behind') :
    l = l' := by
  have heq : before ++ (l.text.toList ++ behind) = before' ++ (l'.text.toList ++ behind') :=
    h.text_eq.symm.trans h'.text_eq
  by_cases hn : n < utf8Length text.toList
  · obtain ⟨hnum, hoff, hlt⟩ := h.of_lt hn
    obtain ⟨hnum', hoff', hlt'⟩ := h'.of_lt hn
    obtain ⟨rfl, htext⟩ := h.isLine.unique h'.isLine (n := n) heq (by omega) (by omega) (by omega)
      (by omega)
    exact ext (hnum.trans hnum'.symm) htext (by omega)
  · obtain ⟨rfl, -, hnum, hoff⟩ := h.of_le (Nat.not_lt.mp hn)
    obtain ⟨rfl, -, hnum', hoff'⟩ := h'.of_le (Nat.not_lt.mp hn)
    have hsame : before = before' ∧ l.text.toList = l'.text.toList := by
      by_cases htext : text.toList = []
      · have hnil := h.text_eq.symm.trans htext
        have hnil' := h'.text_eq.symm.trans htext
        simp only [List.append_nil, List.append_eq_nil_iff] at hnil hnil'
        exact ⟨hnil.1.trans hnil'.1.symm, hnil.2.trans hnil'.2.symm⟩
      · -- Both lines hold the last byte of the text.
        have hpos := length_le_utf8Length l.text.toList
        have hpos' := length_le_utf8Length l'.text.toList
        have hne := List.length_pos_iff.mpr (h.text_ne_nil htext)
        have hne' := List.length_pos_iff.mpr (h'.text_ne_nil htext)
        have hlen := congrArg utf8Length heq
        simp only [List.append_nil, utf8Length_append] at hlen
        exact h.isLine.unique h'.isLine (n := utf8Length before + utf8Length l.text.toList - 1)
          heq (by omega) (by omega) (by omega) (by omega)
    obtain ⟨rfl, htext⟩ := hsame
    exact ext (hnum.trans hnum'.symm) htext (by rw [hoff, hoff', htext])

end SourceLine.Holds

/-- What is looked up for a byte is its line, and nothing else is. -/
theorem eq_locate_iff : l = locate text n ↔ ∃ before behind, l.Holds text n before behind := by
  obtain ⟨before, behind, h⟩ := exists_holds_locate text n
  constructor
  · rintro rfl
    exact ⟨before, behind, h⟩
  · rintro ⟨before', behind', h'⟩
    exact h'.unique h

/-- The letter of the first line takes two bytes; behind the empty line the text ends. -/
example : locate "é\n\n" 1 = ⟨1, "é\n", 1⟩ ∧ locate "é\n\n" 4 = ⟨2, "\n", 0⟩ := by decide +kernel

end Locate
end MonkeySyntax.Text
