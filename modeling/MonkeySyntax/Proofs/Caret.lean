import Mathlib.Data.List.DropRight
import MonkeySyntax.Proofs.Accuracy
import MonkeySyntax.Proofs.LineAt
import MonkeySyntax.Proofs.Rendering

/-! Rendered diagnostics. A diagnostic of a text is shown on five lines, of which the fourth is the
line of its token and the fifth puts a caret under that token. The caret is moved on by bytes while
the line is shown in characters, so it is too far to the right behind characters that are longer
than a byte. -/
namespace MonkeySyntax

open Text

/-- What is shown of `line`: neither the spaces at its start nor the blanks at its end. -/
structure Text.Stripped (line spaces shown blanks : List Char) : Prop where
  eq_append : line = spaces ++ (shown ++ blanks)
  eq_space : ∀ c ∈ spaces, c = ' '
  head?_ne : (shown ++ blanks).head? ≠ some ' '
  getLast?_ne : ∀ c ∈ shown.getLast?, ¬isBlank c
  isBlank : ∀ c ∈ blanks, isBlank c

/-- A line between `before` and `behind`, shown without its `spaces` and `blanks`, and the column of
a caret, counted from the start of what is shown. -/
structure Picture where
  line : SourceLine
  before : List Char
  behind : List Char
  spaces : List Char
  shown : List Char
  blanks : List Char
  column : Nat

/-- The rendered diagnostic is a picture of the line of its place, on five lines. The line is shown
behind its number, and the caret is in the last line. -/
structure Diagnostic.Draws (d : Diagnostic) (text : String) (x : Picture) : Prop where
  holds : x.line.Holds text d.position.offset x.before x.behind
  stripped : Stripped x.line.text.toList x.spaces x.shown x.blanks
  lines : ∃ headline margin gutter pointer : List Char,
    pieces '\n' (d.render text).toList =
      [headline, ("-> " ++ d.position.file).toList, margin, gutter ++ x.shown, pointer ++ ['^']].map
        (· ++ ['\n']) ∧
    gutter = (x.line.number.repr ++ " | ").toList ∧ '^' ∉ pointer ∧
    pointer.length = gutter.length + x.column

/-- The token starts with `c` in what is shown of its line, behind `stretch`. The caret is put as
many columns behind the start as `stretch` has bytes. That is under `c` if all of `stretch` is
ASCII, and to the right of `c` otherwise. -/
structure Picture.Marks (x : Picture) (t : Token) (c : Char) (stretch rest : List Char) : Prop where
  head : t.literal.toList.head? = some c
  shown_eq : x.shown = stretch ++ c :: rest
  start_eq : t.span.start.offset = utf8Length (x.before ++ (x.spaces ++ stretch))
  column_eq : x.column = utf8Length stretch
  under_iff : x.column = stretch.length ↔ ∀ y ∈ stretch, y.toNat < 128
  length_le : stretch.length ≤ x.column

section Characters

variable {p : Char → Bool} {c : Char} {cs ds line spaces rest : List Char}

theorem Text.utf8Length_eq_length_iff : utf8Length cs = cs.length ↔ ∀ c ∈ cs, c.toNat < 128 := by
  induction cs with
  | nil => simp
  | cons c cs ih =>
    have hpos := c.utf8Size_pos
    have hle := length_le_utf8Length cs
    have hone : c.utf8Size = 1 ↔ c.toNat < 128 := by
      rw [Char.utf8Size_eq_one_iff, UInt32.le_iff_toNat_le, Char.toNat_val]
      exact Nat.lt_succ_iff.symm
    rw [List.forall_mem_cons, ← ih, ← hone, utf8Length_cons, List.length_cons]
    omega

theorem Text.utf8Length_of_eq_space (h : ∀ c ∈ cs, c = ' ') : utf8Length cs = cs.length :=
  utf8Length_eq_length_iff.mpr fun c hc => by rw [h c hc]; decide

theorem eq_space_of_mem_takeWhile : ∀ c ∈ cs.takeWhile (· = ' '), c = ' ' := by
  intro c hc
  simpa using List.mem_takeWhile_imp hc

theorem takeWhile_append_cons (hc : ¬p c) : (cs ++ c :: ds).takeWhile p = cs.takeWhile p := by
  rw [List.takeWhile_append, List.takeWhile_cons_of_neg hc, List.append_nil]
  split
  · next h => exact ((List.takeWhile_prefix p).eq_of_length h).symm
  · rfl

theorem dropWhile_append_cons (hc : ¬p c) :
    (cs ++ c :: ds).dropWhile p = cs.dropWhile p ++ c :: ds := by
  rw [List.dropWhile_append, List.dropWhile_cons_of_neg hc]
  split
  · next h => rw [List.isEmpty_iff.mp h, List.nil_append]
  · rfl

theorem Text.trimEnd_append_cons (hc : ¬isBlank c) :
    trimEnd (cs ++ c :: ds) = cs ++ c :: trimEnd ds := by
  have hrev : (cs ++ c :: ds).reverse = ds.reverse ++ c :: cs.reverse := by simp
  rw [trimEnd, hrev, dropWhile_append_cons hc]
  simp [trimEnd]

theorem Text.dropLastIf_append {a : Char} (h : rest ≠ []) :
    dropLastIf a (cs ++ rest) = cs ++ dropLastIf a rest := by
  have hlast : (cs ++ rest).getLast? = rest.getLast? := by
    rw [List.getLast?_append, List.getLast?_eq_some_getLast h, Option.some_or]
  unfold dropLastIf
  rw [hlast]
  split
  · rw [List.dropLast_append_of_ne_nil h]
  · rfl

/-- Spaces at the start of a line count as much with a line feed at its end as without. -/
theorem Text.utf8Length_dropLastIf (h : ∀ c ∈ spaces, c = ' ') :
    utf8Length (dropLastIf '\n' (spaces ++ rest)) =
      spaces.length + utf8Length (dropLastIf '\n' rest) := by
  by_cases hrest : rest = []
  · have hlast : spaces.getLast? ≠ some '\n' := by
      intro hlast
      have hspace := h _ (List.mem_of_getLast? hlast)
      exact absurd hspace (by decide)
    rw [hrest, List.append_nil, dropLastIf, if_neg hlast, utf8Length_of_eq_space h]
    rfl
  · rw [dropLastIf_append hrest, utf8Length_append, utf8Length_of_eq_space h]

theorem Text.pieces_join {lines : List String} (h : ∀ s ∈ lines, '\n' ∉ s.toList) :
    pieces '\n' (String.join (lines.map (· ++ "\n"))).toList =
      lines.map fun s => s.toList ++ ['\n'] := by
  induction lines with
  | nil => rfl
  | cons s lines ih =>
    obtain ⟨hs, hlines⟩ := List.forall_mem_cons.mp h
    have hjoin : (String.join ((s :: lines).map (· ++ "\n"))).toList =
        s.toList ++ '\n' :: (String.join (lines.map (· ++ "\n"))).toList := by simp
    rw [hjoin, pieces_append_cons hs, ih hlines, List.map_cons]

end Characters

namespace Text.SourceLine

variable {l : SourceLine} {before behind m tail : List Char} {c : Char}

theorem drop_indent (l : SourceLine) :
    l.text.toList.drop l.indent = l.text.toList.dropWhile (· = ' ') := by
  have hsplit : l.text.toList.takeWhile (· = ' ') ++ l.text.toList.dropWhile (· = ' ') =
      l.text.toList := List.takeWhile_append_dropWhile
  calc l.text.toList.drop l.indent
      = (l.text.toList.takeWhile (· = ' ') ++ l.text.toList.dropWhile (· = ' ')).drop l.indent := by
        rw [hsplit]
    _ = l.text.toList.dropWhile (· = ' ') := List.drop_left

/-- The picture of a line with the caret at its byte. -/
def picture (l : SourceLine) (before behind : List Char) : Picture where
  line := l
  before := before
  behind := behind
  spaces := l.text.toList.takeWhile (· = ' ')
  shown := l.shown.toList
  blanks := (l.text.toList.drop l.indent).rtakeWhile isBlank
  column := l.column

theorem shown_picture : (l.picture before behind).shown = l.shown.toList := by
  rw [picture]

theorem column_picture : (l.picture before behind).column = l.column := by
  rw [picture]

theorem toList_shown (l : SourceLine) :
    l.shown.toList = (l.text.toList.dropWhile (· = ' ')).rdropWhile isBlank := by
  rw [shown, String.toList_ofList, drop_indent]
  rfl

theorem stripped_picture (l : SourceLine) (before behind : List Char) :
    Stripped l.text.toList (l.picture before behind).spaces (l.picture before behind).shown
      (l.picture before behind).blanks := by
  have hrest : (l.picture before behind).shown ++ (l.picture before behind).blanks =
      l.text.toList.dropWhile (· = ' ') := by
    rw [picture, toList_shown, drop_indent, List.rdropWhile_append_rtakeWhile]
  constructor
  case eq_append =>
    rw [hrest]
    exact List.takeWhile_append_dropWhile.symm
  case eq_space => exact eq_space_of_mem_takeWhile
  case head?_ne =>
    intro hhead
    have hnot := List.head?_dropWhile_not (· = ' ') l.text.toList
    rw [← hrest, hhead] at hnot
    exact absurd rfl (of_decide_eq_false hnot)
  case getLast?_ne =>
    intro c hc
    rw [picture, toList_shown] at hc
    obtain ⟨hne, rfl⟩ := List.mem_getLast?_eq_getLast hc
    exact List.rdropWhile_last_not _ _ hne
  case isBlank => exact fun c hc => List.mem_rtakeWhile_imp hc

theorem column_of_offset {k : Nat} (h : l.offset = l.indent + k) : l.column = k := by
  rw [column, h, Nat.add_sub_cancel_left]

theorem exists_stretch (before behind : List Char) (h : l.text.toList = m ++ c :: tail)
    (hc : ¬isBlank c) (hm : utf8Length m = l.offset) :
    ∃ stretch rest, (l.picture before behind).shown = stretch ++ c :: rest ∧
      m = (l.picture before behind).spaces ++ stretch ∧ l.column = utf8Length stretch := by
  have hspace : ¬(decide (c = ' ')) := by
    rw [decide_eq_true_iff]
    rintro rfl
    exact hc (by decide)
  have hspaces : l.text.toList.takeWhile (· = ' ') = m.takeWhile (· = ' ') := by
    rw [h, takeWhile_append_cons hspace]
  have hdrop : l.text.toList.dropWhile (· = ' ') = m.dropWhile (· = ' ') ++ c :: tail := by
    rw [h, dropWhile_append_cons hspace]
  have hsplit : m = m.takeWhile (· = ' ') ++ m.dropWhile (· = ' ') :=
    List.takeWhile_append_dropWhile.symm
  refine ⟨m.dropWhile (· = ' '), trimEnd tail, ?_, ?_, column_of_offset ?_⟩
  · rw [picture, toList_shown, hdrop]
    exact trimEnd_append_cons hc
  · rw [picture, hspaces]
    exact hsplit
  · have hones : utf8Length (m.takeWhile (· = ' ')) = (m.takeWhile (· = ' ')).length :=
      utf8Length_of_eq_space eq_space_of_mem_takeWhile
    rw [← hm, indent, hspaces, ← hones, ← utf8Length_append, ← hsplit]

theorem column_of_dropLastIf (before behind : List Char)
    (h : l.offset = utf8Length (dropLastIf '\n' l.text.toList)) :
    l.column = utf8Length (dropLastIf '\n'
      ((l.picture before behind).shown ++ (l.picture before behind).blanks)) := by
  have hs := l.stripped_picture before behind
  apply column_of_offset
  rw [h, hs.eq_append, utf8Length_dropLastIf hs.eq_space]
  rfl

/-- A character of the text that is no blank, and starts at a byte, is shown in the line of the
byte. -/
theorem Holds.exists_stretch {text : String} {n : Nat} {a b : List Char}
    (h : l.Holds text n before behind) (htext : text.toList = a ++ c :: b) (hc : ¬isBlank c)
    (ha : utf8Length a = n) :
    ∃ stretch rest, (l.picture before behind).shown = stretch ++ c :: rest ∧
      a = before ++ ((l.picture before behind).spaces ++ stretch) ∧
      l.column = utf8Length stretch := by
  have hpos := c.utf8Size_pos
  have hlt : n < utf8Length text.toList := by
    rw [htext, utf8Length_append, utf8Length_cons]
    omega
  obtain ⟨-, hoff, hin⟩ := h.of_lt hlt
  have heq : before ++ (l.text.toList ++ behind) = a ++ c :: b := h.text_eq.symm.trans htext
  obtain ⟨m, rfl, hm⟩ := exists_eq_append_of_utf8Length_le heq (by omega)
  rw [utf8Length_append] at ha
  have hlen : utf8Length m = l.offset := by omega
  -- The line goes on with the character, as the byte is in it.
  obtain ⟨m', hl, hm'⟩ := exists_eq_append_of_utf8Length_le hm.symm (by omega)
  cases m' with
  | nil =>
    rw [hl, List.append_nil, hlen] at hin
    exact absurd hin (Nat.lt_irrefl _)
  | cons x tail =>
    obtain ⟨rfl, -⟩ := List.cons.inj hm'
    obtain ⟨stretch, rest, hshown, hm, hcol⟩ :=
      SourceLine.exists_stretch before behind hl hc hlen
    exact ⟨stretch, rest, hshown, by rw [← hm], hcol⟩

end Text.SourceLine

def Text.IsSingle (s : String) : Prop := '\n' ∉ s.toList

instance (s : String) : Decidable (IsSingle s) := inferInstanceAs (Decidable (_ ∉ _))

section Single

variable {s s' file : String} {d : Diagnostic} {f : Fault} {t : Token} {c : Char}

theorem Text.IsSingle.append (h : IsSingle s) (h' : IsSingle s') : IsSingle (s ++ s') := by
  rw [IsSingle, String.toList_append, List.mem_append]
  exact not_or.mpr ⟨h, h'⟩

theorem Text.Stripped.not_mem {line spaces shown blanks before behind : List Char}
    (h : Stripped line spaces shown blanks) (hline : IsLine before line behind) : '\n' ∉ shown := by
  intro hmem
  obtain ⟨a, b, rfl⟩ := List.append_of_mem hmem
  have hb : b ≠ [] := by
    rintro rfl
    exact h.getLast?_ne '\n' List.getLast?_concat (by decide)
  -- So the line feed would not be the last character of its line.
  apply hline.single
  rw [h.eq_append, List.append_assoc, List.dropLast_append_of_ne_nil (by simp),
    List.dropLast_append_of_ne_nil (by simp), List.cons_append,
    List.dropLast_cons_of_ne_nil (by simp [hb])]
  simp

theorem Text.SourceLine.Holds.isSingle_shown {l : SourceLine} {text : String} {n : Nat}
    {before behind : List Char} (h : l.Holds text n before behind) : IsSingle l.shown := by
  have hstripped := l.stripped_picture before behind
  rw [shown_picture] at hstripped
  exact hstripped.not_mem h.isLine

theorem Text.isSingle_of_isDigit (h : ∀ c ∈ s.toList, c.isDigit) : IsSingle s :=
  fun hmem => absurd (h _ hmem) (by decide)

theorem Text.isSingle_repr (n : Nat) : IsSingle n.repr := by
  apply isSingle_of_isDigit
  intro c hc
  rw [Nat.repr_eq_ofList_toDigits, String.toList_ofList] at hc
  exact Nat.isDigit_of_mem_toDigits (by decide) (by decide) hc

theorem Text.isSingle_replicate (n : Nat) (hc : c ≠ '\n') :
    IsSingle (String.ofList (List.replicate n c)) := by
  intro hmem
  rw [String.toList_ofList] at hmem
  exact hc (List.eq_of_mem_replicate hmem).symm

theorem TokenKind.isSingle_name (k : TokenKind) : IsSingle k.name := by
  cases k <;> decide

theorem Fault.isSingle_name (f : Fault) : IsSingle f.name := by
  unfold name
  split <;> decide

theorem Fault.isSingle_advice (f : Fault) : IsSingle f.advice := by
  unfold advice
  split <;> decide

theorem Fault.TrueOf.isSingle_message (h : f.TrueOf t)
    (ht : t.kind = .integer → ∀ c ∈ t.literal.toList, c.isDigit) : IsSingle f.message := by
  cases f with
  | unexpected expected found =>
    have hfront : IsSingle ("expected next token to be " ++ expected.name ++ ", got ") :=
      (IsSingle.append (by decide) expected.isSingle_name).append (by decide)
    exact (hfront.append found.isSingle_name).append (by decide)
  | noOperand kind => exact (IsSingle.append (by decide) kind.isSingle_name).append (by decide)
  | noOperator kind => exact h.elim
  | badInteger literal =>
    obtain ⟨rfl, hk, -⟩ := h
    have hliteral := isSingle_of_isDigit (ht hk)
    exact (IsSingle.append (by decide) hliteral).append (by decide)
  | tooDeep limit => exact (IsSingle.append (by decide) (isSingle_repr limit)).append (by decide)

/-- The lines of an excerpt are five, each without a line feed of its own. -/
theorem Diagnostic.isSingle_of_mem_excerpt {text : String} (hf : IsSingle d.fault.message)
    (hfile : IsSingle d.position.file) (hshown : IsSingle (locate text d.position.offset).shown) :
    ∀ s ∈ d.excerpt text, IsSingle s := by
  have hmargin (n : Nat) : IsSingle (String.ofList (List.replicate n ' ') ++ "|") :=
    (isSingle_replicate n (by decide)).append (by decide)
  simp only [excerpt, List.forall_mem_cons, List.not_mem_nil, false_imp_iff, implies_true, and_true]
  refine ⟨?_, ?_, hmargin _, ?_, ?_⟩
  · have htip : IsSingle d.fault.tip := hf.append d.fault.isSingle_advice
    have hname : IsSingle ("Error: " ++ d.fault.name) :=
      IsSingle.append (by decide) d.fault.isSingle_name
    exact ((hname.append (by decide)).append htip).append (by decide)
  · exact IsSingle.append (by decide) hfile
  · exact ((isSingle_repr _).append (by decide)).append hshown
  · have hdashes :
        IsSingle (String.ofList (List.replicate (locate text d.position.offset).column '-')) :=
      isSingle_replicate _ (by decide)
    exact (((hmargin _).append (by decide)).append hdashes).append (by decide)

theorem Diagnostic.draws {text : String} {before behind : List Char}
    (hf : IsSingle d.fault.message) (hfile : IsSingle d.position.file)
    (h : (locate text d.position.offset).Holds text d.position.offset before behind) :
    d.Draws text ((locate text d.position.offset).picture before behind) where
  holds := h
  stripped := SourceLine.stripped_picture _ before behind
  lines := by
    have hlines := isSingle_of_mem_excerpt hf hfile h.isSingle_shown
    rw [render, pieces_join hlines, excerpt]
    generalize locate text d.position.offset = l
    let margin := String.ofList (List.replicate (l.number.repr.length + 1) ' ') ++ "|"
    refine ⟨("Error: " ++ d.fault.name ++ " (" ++ d.fault.tip ++ ")").toList, margin.toList,
      (l.number.repr ++ " | ").toList,
      (margin ++ " " ++ String.ofList (List.replicate l.column '-')).toList, ?_, rfl, ?_, ?_⟩
    · simp [margin, SourceLine.shown_picture]
    · simp [margin]
    · have hbar : "|".toList.length = 1 := rfl
      have hspace : " ".toList.length = 1 := rfl
      have hgutter : " | ".toList.length = 3 := rfl
      simp only [margin, SourceLine.column_picture, String.toList_append, String.toList_ofList,
        List.length_append, List.length_replicate, hbar, hspace, hgutter, String.length_toList]

end Single

section AtFault

variable {text file : String} {d : Diagnostic} {t : Token}

theorem Scanner.finish_ofText (h : utf8Length text.toList ≤ maxOffset) :
    (ofText text file).finish = .endAt ⟨utf8Length text.toList, file⟩ := by
  rw [finish, ofText, Span.ofBytes, Position.ofByte, Position.ofByte, Nat.zero_add, Nat.add_zero,
    clampOffset_of_le h]
  rfl

theorem placed_or_eq_endAt (h : utf8Length text.toList ≤ maxOffset) (ht : t ∈ tokenize text file) :
    t.Placed file 0 text.toList ∨ t = .endAt ⟨utf8Length text.toList, file⟩ := by
  rw [tokenize_eq_append, List.mem_append, List.mem_singleton, Scanner.finish_ofText h] at ht
  refine ht.imp_left fun ht => ?_
  have hmax : 0 + utf8Length text.toList ≤ maxOffset := by rwa [Nat.zero_add]
  have htok : Tokenized file 0 text.toList (Scanner.ofText text file).lexemes :=
    (tokenized_iff hmax).mpr rfl
  exact htok.placed t ht

/-- A diagnostic of a text says something true of a token of the text, and stands where that token
starts. -/
theorem exists_token_of_mem_diagnostics (h : d ∈ (parseText text file).diagnostics) :
    ∃ t ∈ tokenize text file, d.position = t.span.start ∧ d.fault.TrueOf t := by
  obtain ⟨places, hraises⟩ := exists_parse_raises (Scanner.ofText text file)
  have hs := Scanner.gives_lexemes (Scanner.ofText text file)
  have hne := Scanner.kind_ne_eof_of_mem_lexemes (Scanner.ofText text file)
  obtain ⟨i, hi, hpos, htrue⟩ := hraises.exists_of_mem h
  have hle := hraises.le_length hs.shows rfl hne i hi
  refine ⟨_, ?_, hpos, htrue⟩
  rw [TokenSource.nth_ofSource, hs i, tokenize_eq_append]
  rcases Nat.lt_or_eq_of_le hle with hlt | rfl
  · rw [List.getD_eq_getElem _ _ hlt]
    exact List.mem_append_left _ (List.getElem_mem hlt)
  · rw [List.getD_eq_default _ _ (Nat.le_refl _)]
    simp

theorem Text.SourceLine.Holds.exists_marks {l : SourceLine} {before behind : List Char}
    (h : l.Holds text t.span.start.offset before behind) (ht : t.Placed file 0 text.toList) :
    t.span.start.offset < utf8Length text.toList ∧
      ∃ c stretch rest, (l.picture before behind).Marks t c stretch rest := by
  obtain ⟨a, b, htext, hspan, hlex, -⟩ := ht
  obtain ⟨c, cs, hl, hc, -⟩ := hlex.exists_headToken
  have hstart : t.span.start.offset = utf8Length a := by
    rw [hspan]
    exact Nat.zero_add _
  rw [hl, List.cons_append] at htext
  obtain ⟨stretch, rest, hshown, ha, hcol⟩ := h.exists_stretch htext hc hstart.symm
  constructor
  · have hpos := c.utf8Size_pos
    rw [hstart, htext, utf8Length_append, utf8Length_cons]
    omega
  · rw [← column_picture] at hcol
    refine ⟨c, stretch, rest, by rw [hl]; rfl, hshown, by rw [hstart, ha]; rfl, hcol, ?_, ?_⟩
    · rw [hcol]
      exact utf8Length_eq_length_iff
    · rw [hcol]
      exact length_le_utf8Length stretch

/-- A diagnostic of a text of less than four gigabytes is raised at a token of the text and shows
the line of that token. The token's first character is in what is shown, with the caret under it or,
for each byte that the characters in front have more than one, a column to the right. For the end of
the text the caret is behind the last line. -/
theorem exists_draws_of_mem_diagnostics (h : utf8Length text.toList ≤ maxOffset)
    (hfile : IsSingle file) (hd : d ∈ (parseText text file).diagnostics) :
    ∃ t ∈ tokenize text file, ∃ x : Picture,
      d.position = t.span.start ∧ d.fault.TrueOf t ∧ d.Draws text x ∧
      (t.kind ≠ .eof → d.position.offset < utf8Length text.toList ∧
        ∃ c stretch rest, x.Marks t c stretch rest) ∧
      (t.kind = .eof → d.position.offset = utf8Length text.toList ∧
        x.column = utf8Length (dropLastIf '\n' (x.shown ++ x.blanks))) := by
  obtain ⟨t, ht, hpos, htrue⟩ := exists_token_of_mem_diagnostics hd
  obtain ⟨before, behind, hholds⟩ := exists_holds_locate text d.position.offset
  refine ⟨t, ht, (locate text d.position.offset).picture before behind, hpos, htrue, ?_⟩
  rcases placed_or_eq_endAt h ht with hplaced | rfl
  · obtain ⟨_, _, -, hspan, hlex, -⟩ := id hplaced
    have hmessage : IsSingle d.fault.message := by
      refine htrue.isSingle_message fun hk => ?_
      obtain ⟨c, cs, hl, hc, hcs⟩ := hlex.exists_number hk
      rw [hl]
      exact List.forall_mem_cons.mpr ⟨hc, hcs⟩
    have hsource : IsSingle d.position.file := by rwa [hpos, hspan]
    refine ⟨d.draws hmessage hsource hholds, fun _ => ?_, fun hk => absurd hk hlex.kind_ne_eof⟩
    rw [hpos] at hholds ⊢
    exact hholds.exists_marks hplaced
  · have hmessage : IsSingle d.fault.message := htrue.isSingle_message fun hk => nomatch hk
    have hsource : IsSingle d.position.file := by rwa [hpos]
    refine ⟨d.draws hmessage hsource hholds, fun hk => absurd rfl hk, fun _ => ?_⟩
    have hoffset : d.position.offset = utf8Length text.toList := by rw [hpos]; rfl
    obtain ⟨-, -, -, hcol⟩ := hholds.of_le (Nat.le_of_eq hoffset.symm)
    exact ⟨hoffset, SourceLine.column_of_dropLastIf before behind hcol⟩

end AtFault

/-- In `  é; )` the second fault is at the parenthesis. In front of it three characters of four
bytes are shown, so the caret is a column too far to the right. -/
theorem exists_draws_of_mem_diagnostics_letter :
    let text := "  é; )"
    let d : Diagnostic := ⟨.noOperand .closeParen, ⟨6, "f"⟩⟩
    utf8Length text.toList ≤ maxOffset ∧ IsSingle "f" ∧ d ∈ (parseText text "f").diagnostics ∧
      d.render text = "Error: NoPrefixParseFn (no prefix parse function for ) found)\n-> f\n" ++
        "  |\n1 | é; )\n  | ----^\n" ∧
      ∃ t ∈ tokenize text "f", ∃ x : Picture, t.kind ≠ .eof ∧ d.position = t.span.start ∧
        d.Draws text x ∧ ∃ c stretch rest, x.Marks t c stretch rest := by
  intro text d
  have hmax : utf8Length text.toList ≤ maxOffset := by decide +kernel
  have hd : d ∈ (parseText text "f").diagnostics := by decide +kernel
  have hkind : ∀ t ∈ tokenize text "f", d.position = t.span.start → t.kind ≠ .eof := by
    decide +kernel
  obtain ⟨t, ht, x, hpos, -, hdraws, hmarks, -⟩ :=
    exists_draws_of_mem_diagnostics hmax (by decide) hd
  have hk := hkind t ht hpos
  exact ⟨hmax, by decide, hd, by decide +kernel, t, ht, x, hk, hpos, hdraws, (hmarks hk).2⟩

end MonkeySyntax
