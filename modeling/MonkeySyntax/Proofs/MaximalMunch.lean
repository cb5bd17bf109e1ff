import Mathlib.Data.List.TakeWhile
import MonkeySyntax.Proofs.Spelling

/-! The tokens of a text are the one way to cut it into lexemes, each as long as possible, with only
blanks between them. -/
namespace MonkeySyntax

open Scan Text

/-- The characters of a token of the given kind: a reserved word, another word, digits, the name of
a symbol, or a single character that is none of these. -/
inductive Lexeme : TokenKind → List Char → Prop
  | keyword {word : String} {k : TokenKind} : (word, k) ∈ TokenKind.reserved →
      Lexeme k word.toList
  | name {c : Char} {cs : List Char} : isWordStart c → (∀ x ∈ cs, isWordChar x) →
      (∀ k, (String.ofList (c :: cs), k) ∉ TokenKind.reserved) → Lexeme .identifier (c :: cs)
  | number {c : Char} {cs : List Char} : c.isDigit → (∀ x ∈ cs, x.isDigit) →
      Lexeme .integer (c :: cs)
  | symbol {k : TokenKind} : k.isSymbol → Lexeme k k.name.toList
  | unknown {c : Char} : ¬isBlank c → ¬isWordStart c → ¬c.isDigit →
      (∀ k : TokenKind, k.isSymbol → k.name.toList ≠ [c]) → Lexeme .illegal [c]

/-- In the text `cs`, whose first byte is number `o` of `file`, the token stands where its span
says, and no lexeme that starts there is longer. -/
def Token.Placed (file : String) (o : Nat) (cs : List Char) (t : Token) : Prop :=
  ∃ before behind, cs = before ++ (t.literal.toList ++ behind) ∧
    t.span = ⟨⟨o + utf8Length before, file⟩,
      ⟨o + utf8Length before + utf8Length t.literal.toList, file⟩⟩ ∧
    Lexeme t.kind t.literal.toList ∧
    ∀ k l, Lexeme k l → l <+: t.literal.toList ++ behind → l.length ≤ t.literal.toList.length

/-- The text `cs`, whose first byte is number `o` of `file`, is cut into the tokens `ts`, each as
long as possible, and whatever is in none of them is blank. -/
structure Tokenized (file : String) (o : Nat) (cs : List Char) (ts : List Token) : Prop where
  placed : ∀ t ∈ ts, t.Placed file o cs
  nonempty : ∀ t ∈ ts, t.span.start.offset < t.span.stop.offset
  ordered : ts.Pairwise fun t u => t.span.stop.offset ≤ u.span.start.offset
  kind_ne_eof : ∀ t ∈ ts, t.kind ≠ .eof
  covered : ∀ before c behind, cs = before ++ c :: behind → ¬isBlank c →
    ∃ t ∈ ts, t.span.start.offset ≤ o + utf8Length before ∧
      o + utf8Length before < t.span.stop.offset

section Lexemes

variable {c : Char} {cs ds : List Char} {k : TokenKind}

theorem Text.isBlank_iff : isBlank c ↔ ∃ r ∈ blankRanges, r.1 ≤ c.toNat ∧ c.toNat ≤ r.2 := by
  simp [isBlank]

theorem Scan.not_isBlank_of_isWordStart (h : isWordStart c) : ¬isBlank c := by
  rw [isWordStart_iff] at h
  simp only [isBlank_iff, blankRanges, List.mem_cons, List.not_mem_nil, or_false, exists_eq_or_imp,
    exists_eq_left]
  omega

theorem Scan.not_isBlank_of_isDigit (h : c.isDigit) : ¬isBlank c := by
  rw [isDigit_iff] at h
  simp only [isBlank_iff, blankRanges, List.mem_cons, List.not_mem_nil, or_false, exists_eq_or_imp,
    exists_eq_left]
  omega

namespace TokenKind

theorem ofReserved?_eq_some_iff {word : String} :
    ofReserved? word = some k ↔ (word, k) ∈ reserved := by
  constructor
  · intro h
    obtain ⟨l, r, hlr, -⟩ := List.lookup_eq_some_iff.mp h
    rw [hlr]
    exact List.mem_append_right l List.mem_cons_self
  · have h : ∀ p ∈ reserved, ofReserved? p.1 = some p.2 := by decide
    exact h (word, k)

theorem reserved_word : ∀ p ∈ reserved, ∃ c cs, p.1.toList = c :: cs ∧ isWordStart c ∧
    ∀ x ∈ cs, isWordChar x := by
  have h : ∀ p ∈ reserved,
      p.1.toList.head?.any isWordStart && p.1.toList.tail.all isWordChar := by
    decide +kernel
  intro p hp
  have hw := h p hp
  cases hl : p.1.toList with
  | nil => simp [hl] at hw
  | cons c cs =>
    rw [hl] at hw
    exact ⟨c, cs, rfl, by simpa using hw⟩

theorem ofSymbol_eq_illegal (h : ¬(ofSymbol c).isSymbol) : ofSymbol c = illegal := by
  revert h
  unfold ofSymbol
  split
  case h_15 => exact fun _ => rfl
  all_goals
    intro h
    exact absurd rfl h

theorem headToken_name (h : k.isSymbol) :
    ∃ c cs, k.name.toList = c :: cs ∧ ¬isBlank c ∧ headToken c cs = (k, cs.length) := by
  cases k
  all_goals
    first
    | exact ⟨_, _, rfl, by decide, rfl⟩
    | cases h

end TokenKind

theorem Scan.headToken_of_word_eq (hc : isWordStart c) (hcs : ∀ x ∈ cs, isWordChar x) :
    headToken c cs = (.ofWord (String.ofList (c :: cs)), cs.length) := by
  rw [headToken_of_word hc, List.takeWhile_eq_self_iff.mpr hcs]

/-- A lexeme is what the scanner takes of it. -/
theorem Lexeme.exists_headToken {l : List Char} (h : Lexeme k l) :
    ∃ c cs, l = c :: cs ∧ ¬isBlank c ∧ headToken c cs = (k, cs.length) := by
  cases h with
  | @keyword word k hk =>
    obtain ⟨c, cs, hw, hc, hcs⟩ := TokenKind.reserved_word _ hk
    refine ⟨c, cs, hw, not_isBlank_of_isWordStart hc, ?_⟩
    rw [headToken_of_word_eq hc hcs, ← hw, String.ofList_toList, TokenKind.ofWord,
      TokenKind.ofReserved?_eq_some_iff.mpr hk]
    rfl
  | @name c cs hc hcs hk =>
    refine ⟨c, cs, rfl, not_isBlank_of_isWordStart hc, ?_⟩
    have hnone : TokenKind.ofReserved? (String.ofList (c :: cs)) = none :=
      Option.eq_none_iff_forall_ne_some.mpr fun k => mt TokenKind.ofReserved?_eq_some_iff.mp (hk k)
    rw [headToken_of_word_eq hc hcs, TokenKind.ofWord, hnone]
    rfl
  | @number c cs hc hcs =>
    refine ⟨c, cs, rfl, not_isBlank_of_isDigit hc, ?_⟩
    rw [headToken_of_digit (not_isWordStart_of_isDigit hc) hc, List.takeWhile_eq_self_iff.mpr hcs]
  | symbol hk => exact TokenKind.headToken_name hk
  | @unknown c hb hw hd hc =>
    refine ⟨c, [], rfl, hb, ?_⟩
    have hillegal : TokenKind.ofSymbol c = .illegal := by
      apply TokenKind.ofSymbol_eq_illegal
      intro hs
      apply hc _ hs
      rw [TokenKind.name_ofSymbol hs, String.toList_ofList]
    rw [headToken_of_symbol hw hd (by simp), hillegal]
    rfl

theorem Lexeme.kind_ne_eof {l : List Char} (h : Lexeme k l) : k ≠ .eof := by
  obtain ⟨c, cs, -, -, hh⟩ := h.exists_headToken
  have hne := headToken_kind_ne_eof c cs
  rwa [hh] at hne

theorem lexeme_word (hc : isWordStart c) (hcs : ∀ x ∈ cs, isWordChar x) :
    Lexeme (.ofWord (String.ofList (c :: cs))) (c :: cs) := by
  unfold TokenKind.ofWord
  cases hr : TokenKind.ofReserved? (String.ofList (c :: cs)) with
  | none =>
    refine .name hc hcs fun k hk => ?_
    rw [TokenKind.ofReserved?_eq_some_iff.mpr hk] at hr
    cases hr
  | some k =>
    have hword := Lexeme.keyword (TokenKind.ofReserved?_eq_some_iff.mp hr)
    rwa [String.toList_ofList] at hword

theorem lexeme_symbol (hb : ¬isBlank c) (hw : ¬isWordStart c) (hd : ¬c.isDigit) :
    Lexeme (.ofSymbol c) [c] := by
  by_cases hs : (TokenKind.ofSymbol c).isSymbol
  · have hname := Lexeme.symbol hs
    rwa [TokenKind.name_ofSymbol hs, String.toList_ofList] at hname
  · rw [TokenKind.ofSymbol_eq_illegal hs]
    refine .unknown hb hw hd fun k hk hname => ?_
    obtain ⟨x, xs, hx, -, hhead⟩ := TokenKind.headToken_name hk
    obtain ⟨rfl, rfl⟩ := List.cons.inj (hx.symm.trans hname)
    rw [headToken_of_symbol hw hd (by simp)] at hhead
    exact hs ((Prod.mk.inj hhead).1 ▸ hk)

theorem lexeme_of_headToken (hb : ¬isBlank c) (h : headToken c cs = (k, cs.length)) :
    Lexeme k (c :: cs) := by
  have hall : ∀ p : Char → Bool, (cs.takeWhile p).length = cs.length → cs.takeWhile p = cs :=
    fun p => (List.takeWhile_prefix p).eq_of_length
  by_cases hw : isWordStart c
  · rw [headToken_of_word hw] at h
    obtain ⟨rfl, hlen⟩ := Prod.mk.inj h
    rw [hall _ hlen]
    exact lexeme_word hw (List.takeWhile_eq_self_iff.mp (hall _ hlen))
  by_cases hd : c.isDigit
  · rw [headToken_of_digit hw hd] at h
    obtain ⟨rfl, hlen⟩ := Prod.mk.inj h
    exact .number hd (List.takeWhile_eq_self_iff.mp (hall _ hlen))
  by_cases hc : (c = '=' ∨ c = '!') ∧ cs.head? = some '='
  · obtain ⟨hc, hh⟩ := hc
    obtain ⟨ds, rfl⟩ := List.head?_eq_some_iff.mp hh
    rcases hc with rfl | rfl
    all_goals
      obtain ⟨rfl, hlen⟩ := Prod.mk.inj h
      obtain rfl : ds = [] := List.length_eq_zero_iff.mp (Nat.succ.inj hlen).symm
      exact .symbol rfl
  · rw [headToken_of_symbol hw hd hc] at h
    obtain ⟨rfl, hlen⟩ := Prod.mk.inj h
    obtain rfl : cs = [] := List.length_eq_zero_iff.mp hlen.symm
    exact lexeme_symbol hb hw hd

/-- More text never makes a token shorter. -/
theorem Scan.headToken_length_le_append : (headToken c cs).2 ≤ (headToken c (cs ++ ds)).2 := by
  have htake : ∀ p : Char → Bool,
      (cs.takeWhile p).length ≤ ((cs ++ ds).takeWhile p).length := by
    intro p
    rw [List.takeWhile_append]
    split
    · next h =>
      rw [h, List.length_append]
      exact Nat.le_add_right _ _
    · exact Nat.le_refl _
  by_cases hw : isWordStart c
  · rw [headToken_of_word hw, headToken_of_word hw]
    exact htake _
  by_cases hd : c.isDigit
  · rw [headToken_of_digit hw hd, headToken_of_digit hw hd]
    exact htake _
  by_cases hc : (c = '=' ∨ c = '!') ∧ cs.head? = some '='
  · obtain ⟨hc, hh⟩ := hc
    obtain ⟨es, rfl⟩ := List.head?_eq_some_iff.mp hh
    rcases hc with rfl | rfl
    all_goals exact Nat.le_refl 1
  · rw [headToken_of_symbol hw hd hc]
    exact Nat.zero_le _

theorem lexeme_headToken (hb : ¬isBlank c) (cs : List Char) :
    Lexeme (headToken c cs).1 (c :: cs.take (headToken c cs).2) ∧
      ∀ k l, Lexeme k l → l <+: c :: cs → l.length ≤ (headToken c cs).2 + 1 := by
  constructor
  · apply lexeme_of_headToken hb
    rw [headToken_take, List.length_take, Nat.min_eq_left (headToken_length_le c cs)]
  · rintro k l hl ⟨r, hr⟩
    obtain ⟨x, xs, rfl, -, hx⟩ := hl.exists_headToken
    obtain ⟨rfl, rfl⟩ := List.cons.inj hr
    have hle : (headToken x xs).2 ≤ (headToken x (xs ++ r)).2 := headToken_length_le_append
    rw [hx] at hle
    exact Nat.succ_le_succ hle

/-- A lexeme that comes first in a text, where no longer one does, is what the scanner takes. -/
theorem Lexeme.headToken_eq_of_longest (h : Lexeme k (c :: cs))
    (hmax : ∀ k' l, Lexeme k' l → l <+: c :: cs ++ ds → l.length ≤ (c :: cs).length) :
    headToken c (cs ++ ds) = (k, cs.length) := by
  obtain ⟨_, _, hl, hb, hself⟩ := h.exists_headToken
  obtain ⟨rfl, rfl⟩ := List.cons.inj hl
  obtain ⟨hhead, hlongest⟩ := lexeme_headToken hb (cs ++ ds)
  -- Both lexemes are the longest ones, so they are as long as each other.
  have hle : (headToken c (cs ++ ds)).2 ≤ cs.length := by
    have hshort := hmax _ _ hhead ⟨(cs ++ ds).drop (headToken c (cs ++ ds)).2, by
      rw [List.cons_append, List.take_append_drop, List.cons_append]⟩
    rw [List.length_cons, List.length_cons, List.length_take,
      Nat.min_eq_left (headToken_length_le c _)] at hshort
    exact Nat.le_of_succ_le_succ hshort
  have hge : cs.length ≤ (headToken c (cs ++ ds)).2 :=
    Nat.le_of_succ_le_succ (hlongest _ _ h ⟨ds, List.cons_append⟩)
  have hlen : (headToken c (cs ++ ds)).2 = cs.length := Nat.le_antisymm hle hge
  have hkind : (headToken c (cs ++ ds)).1 = k := by
    rw [← headToken_take, hlen, List.take_left, hself]
  rw [← hkind, ← hlen]

end Lexemes

variable {file : String} {o : Nat} {c : Char} {a b cs : List Char} {t : Token} {ts us : List Token}

theorem exists_eq_append_of_utf8Length_le {d e : List Char} (h : a ++ b = d ++ e)
    (hle : utf8Length a ≤ utf8Length d) : ∃ m, d = a ++ m ∧ b = m ++ e := by
  rcases List.append_eq_append_iff.mp h with hm | ⟨m, rfl, rfl⟩
  · exact hm
  · have hm := length_le_utf8Length m
    rw [utf8Length_append] at hle
    obtain rfl : m = [] := List.length_eq_zero_iff.mp (by omega)
    exact ⟨[], by simp, rfl⟩

namespace Token.Placed

theorem le_start (h : t.Placed file o cs) : o ≤ t.span.start.offset := by
  obtain ⟨before, behind, -, hspan, -, -⟩ := h
  rw [hspan]
  exact Nat.le_add_right o _

theorem stop_le (h : t.Placed file o cs) : t.span.stop.offset ≤ o + utf8Length cs := by
  obtain ⟨before, behind, rfl, hspan, -, -⟩ := h
  rw [hspan, utf8Length_append, utf8Length_append]
  simp only
  omega

theorem append (h : t.Placed file (o + utf8Length a) b) : t.Placed file o (a ++ b) := by
  obtain ⟨before, behind, rfl, hspan, hlex, hmax⟩ := h
  refine ⟨a ++ before, behind, by rw [List.append_assoc], ?_, hlex, hmax⟩
  rw [utf8Length_append, ← Nat.add_assoc]
  exact hspan

theorem of_append (h : t.Placed file o (a ++ b)) (hs : o + utf8Length a ≤ t.span.start.offset) :
    t.Placed file (o + utf8Length a) b := by
  obtain ⟨before, behind, hb, hspan, hlex, hmax⟩ := h
  have hle : utf8Length a ≤ utf8Length before := by
    rw [hspan] at hs
    exact Nat.le_of_add_le_add_left hs
  obtain ⟨m, rfl, rfl⟩ := exists_eq_append_of_utf8Length_le hb hle
  refine ⟨m, behind, rfl, ?_, hlex, hmax⟩
  rw [hspan, utf8Length_append, ← Nat.add_assoc]

/-- A token does not start with a blank. -/
theorem add_utf8Size_le_start (h : t.Placed file o (c :: cs)) (hc : isBlank c) :
    o + c.utf8Size ≤ t.span.start.offset := by
  obtain ⟨before, behind, hb, hspan, hlex, -⟩ := h
  rw [hspan]
  cases before with
  | nil =>
    obtain ⟨x, xs, hx, hblank, -⟩ := hlex.exists_headToken
    rw [hx] at hb
    obtain rfl : c = x := (List.cons.inj hb).1
    exact absurd hc hblank
  | cons x xs =>
    obtain rfl : c = x := (List.cons.inj hb).1
    rw [utf8Length_cons, ← Nat.add_assoc]
    exact Nat.le_add_right _ _

end Token.Placed

def Scan.headAt (file : String) (o : Nat) (c : Char) (cs : List Char) : Token :=
  ⟨(headToken c cs).1, String.ofList (c :: cs.take (headToken c cs).2),
    ⟨⟨o, file⟩, ⟨o + utf8Length (c :: cs.take (headToken c cs).2), file⟩⟩⟩

theorem Scan.placed_headAt (hc : ¬isBlank c) : (headAt file o c cs).Placed file o (c :: cs) := by
  obtain ⟨hlex, hmax⟩ := lexeme_headToken hc cs
  have hlit : (headAt file o c cs).literal.toList = c :: cs.take (headToken c cs).2 :=
    String.toList_ofList
  have hsplit : c :: cs = (headAt file o c cs).literal.toList ++ cs.drop (headToken c cs).2 := by
    rw [hlit, List.cons_append, List.take_append_drop]
  have hlen : (headAt file o c cs).literal.toList.length = (headToken c cs).2 + 1 := by
    rw [hlit, List.length_cons, List.length_take, Nat.min_eq_left (headToken_length_le c cs)]
  refine ⟨[], cs.drop (headToken c cs).2, hsplit, ?_, by rw [hlit]; exact hlex, ?_⟩
  · rw [hlit]
    rfl
  · intro k l hl hpre
    rw [← hsplit] at hpre
    rw [hlen]
    exact hmax k l hl hpre

/-- A token that stands at the head of a text is the one that the scanner takes. -/
theorem Token.Placed.eq_headAt (h : t.Placed file o (c :: cs)) (hs : t.span.start.offset ≤ o) :
    t = headAt file o c cs := by
  obtain ⟨before, behind, hb, hspan, hlex, hmax⟩ := h
  obtain rfl : before = [] := by
    have hlen := length_le_utf8Length before
    simp only [hspan] at hs
    exact List.length_eq_zero_iff.mp (by omega)
  obtain ⟨x, xs, hl, -, -⟩ := hlex.exists_headToken
  rw [List.nil_append, hl, List.cons_append] at hb
  obtain ⟨rfl, rfl⟩ := List.cons.inj hb
  have hhead : headToken c (xs ++ behind) = (t.kind, xs.length) := by
    rw [hl] at hlex hmax
    exact hlex.headToken_eq_of_longest hmax
  have hlit : String.ofList (c :: xs) = t.literal := by
    rw [← hl, String.ofList_toList]
  have hplace : t.span = ⟨⟨o, file⟩, ⟨o + utf8Length t.literal.toList, file⟩⟩ := hspan
  rw [headAt, hhead, List.take_left, hlit, ← hl, ← hplace]

namespace Tokenized

theorem nil : Tokenized file o [] [] where
  placed := by simp
  nonempty := by simp
  ordered := .nil
  kind_ne_eof := by simp
  covered := by simp

theorem eq_nil (h : Tokenized file o [] ts) : ts = [] := by
  cases ts with
  | nil => rfl
  | cons t ts =>
    obtain ⟨before, behind, hb, -, hlex, -⟩ := h.placed t List.mem_cons_self
    obtain ⟨x, xs, hx, -⟩ := hlex.exists_headToken
    simp [hx] at hb

theorem blank (hc : isBlank c) (h : Tokenized file (o + c.utf8Size) cs ts) :
    Tokenized file o (c :: cs) ts where
  placed t ht := (h.placed t ht).append (a := [c])
  nonempty := h.nonempty
  ordered := h.ordered
  kind_ne_eof := h.kind_ne_eof
  covered := by
    intro before x behind hb hx
    cases before with
    | nil =>
      obtain rfl : c = x := (List.cons.inj hb).1
      exact absurd hc hx
    | cons y before =>
      obtain ⟨rfl, htail⟩ := List.cons.inj hb
      rw [utf8Length_cons, ← Nat.add_assoc]
      exact h.covered before x behind htail hx

theorem cons (ha : a ≠ []) (ht : t.Placed file o (a ++ b))
    (hs : t.span = ⟨⟨o, file⟩, ⟨o + utf8Length a, file⟩⟩)
    (h : Tokenized file (o + utf8Length a) b ts) : Tokenized file o (a ++ b) (t :: ts) where
  placed := List.forall_mem_cons.mpr ⟨ht, fun u hu => (h.placed u hu).append⟩
  nonempty := by
    refine List.forall_mem_cons.mpr ⟨?_, h.nonempty⟩
    have hpos := List.length_pos_iff.mpr ha
    have hle := length_le_utf8Length a
    simp only [hs]
    omega
  ordered := by
    refine .cons (fun u hu => ?_) h.ordered
    rw [hs]
    exact (h.placed u hu).le_start
  kind_ne_eof := by
    refine List.forall_mem_cons.mpr ⟨?_, h.kind_ne_eof⟩
    obtain ⟨-, -, -, -, hlex, -⟩ := ht
    exact hlex.kind_ne_eof
  covered := by
    intro before x behind hb hx
    by_cases hle : utf8Length a ≤ utf8Length before
    · obtain ⟨m, rfl, rfl⟩ := exists_eq_append_of_utf8Length_le hb hle
      obtain ⟨u, hu, hcov⟩ := h.covered m x behind rfl hx
      rw [utf8Length_append, ← Nat.add_assoc]
      exact ⟨u, List.mem_cons_of_mem t hu, hcov⟩
    · refine ⟨t, List.mem_cons_self, ?_⟩
      simp only [hs]
      omega

theorem of_append (h : Tokenized file o (a ++ b) (ts ++ us))
    (hts : ∀ t ∈ ts, t.span.stop.offset ≤ o + utf8Length a)
    (hus : ∀ u ∈ us, o + utf8Length a ≤ u.span.start.offset) :
    Tokenized file (o + utf8Length a) b us where
  placed u hu := (h.placed u (List.mem_append_right ts hu)).of_append (hus u hu)
  nonempty u hu := h.nonempty u (List.mem_append_right ts hu)
  ordered := (List.pairwise_append.mp h.ordered).2.1
  kind_ne_eof u hu := h.kind_ne_eof u (List.mem_append_right ts hu)
  covered := by
    intro before x behind hb hx
    obtain ⟨t, ht, hcov⟩ := h.covered (a ++ before) x behind (by rw [hb, List.append_assoc]) hx
    rw [utf8Length_append, ← Nat.add_assoc] at hcov
    rcases List.mem_append.mp ht with ht | ht
    · have hstop := hts t ht
      omega
    · exact ⟨t, ht, hcov⟩

theorem of_blank (h : Tokenized file o (c :: cs) ts) (hc : isBlank c) :
    Tokenized file (o + c.utf8Size) cs ts := by
  have hsplit : Tokenized file o ([c] ++ cs) ([] ++ ts) := h
  exact hsplit.of_append (by simp) fun u hu => (h.placed u hu).add_utf8Size_le_start hc

theorem exists_eq_cons (h : Tokenized file o (c :: cs) ts) (hc : ¬isBlank c) :
    ∃ us, ts = headAt file o c cs :: us ∧
      ∀ u ∈ us, (headAt file o c cs).span.stop.offset ≤ u.span.start.offset := by
  obtain ⟨t, ht, hs, he⟩ := h.covered [] c cs rfl hc
  cases ts with
  | nil => cases ht
  | cons u us =>
    obtain ⟨hfirst, -⟩ := List.pairwise_cons.mp h.ordered
    obtain rfl : t = u := by
      rcases List.mem_cons.mp ht with rfl | ht
      · rfl
      · have hstart := (h.placed u List.mem_cons_self).le_start
        have hpos := h.nonempty u List.mem_cons_self
        have hlater := hfirst t ht
        rw [utf8Length_nil] at hs
        omega
    obtain rfl := (h.placed t ht).eq_headAt hs
    exact ⟨us, rfl, hfirst⟩

end Tokenized

/-- Up to the largest offset, a text is tokenized in one way, the scanner's. -/
theorem tokenized_iff (h : o + utf8Length cs ≤ maxOffset) :
    Tokenized file o cs ts ↔ ts = Scanner.lexemes ⟨file, o, cs⟩ := by
  induction cs using Scanner.text_induction generalizing o ts with
  | nil =>
    rw [Scanner.lexemes_nil]
    constructor
    · exact Tokenized.eq_nil
    · rintro rfl
      exact .nil
  | blank c cs hc ih =>
    rw [utf8Length_cons, ← Nat.add_assoc] at h
    rw [Scanner.lexemes_blank hc, ← ih h]
    exact ⟨fun hts => hts.of_blank hc, .blank hc⟩
  | token c cs hc ih =>
    have hsplit : c :: cs = (c :: cs.take (headToken c cs).2) ++ cs.drop (headToken c cs).2 := by
      rw [List.cons_append, List.take_append_drop]
    have hlen := congrArg utf8Length hsplit
    rw [utf8Length_append] at hlen
    have hhead : headAt file o c cs = ⟨(headToken c cs).1,
        String.ofList (c :: cs.take (headToken c cs).2),
        .ofBytes file o (utf8Length (c :: cs.take (headToken c cs).2))⟩ := by
      rw [headAt, Span.ofBytes, Position.ofByte, Position.ofByte, clampOffset_of_le (by omega),
        clampOffset_of_le (by omega)]
    rw [Scanner.lexemes_token hc, ← hhead]
    constructor
    · intro hts
      obtain ⟨us, rfl, hus⟩ := hts.exists_eq_cons hc
      have hparts : Tokenized file o
          ((c :: cs.take (headToken c cs).2) ++ cs.drop (headToken c cs).2)
          ([headAt file o c cs] ++ us) := hsplit ▸ hts
      rw [(ih (by omega)).mp (hparts.of_append (by simp [headAt]) hus)]
    · rintro rfl
      have hplaced : (headAt file o c cs).Placed file o (c :: cs) := placed_headAt hc
      rw [hsplit] at hplaced ⊢
      exact .cons (by simp) hplaced rfl ((ih (by omega)).mpr rfl)

/-- A text of less than four gigabytes is cut in one way into tokens, each of them as long as
possible, with only blanks between them and the end token behind them: the way of `tokenize`. -/
theorem eq_tokenize_iff {text : String} (h : utf8Length text.toList ≤ maxOffset) :
    ts = tokenize text file ↔
      ∃ body, ts = body ++ [.endAt ⟨utf8Length text.toList, file⟩] ∧
        Tokenized file 0 text.toList body := by
  have hmax : 0 + utf8Length text.toList ≤ maxOffset := by
    rw [Nat.zero_add]
    exact h
  have hfinish : (Scanner.ofText text file).finish = .endAt ⟨utf8Length text.toList, file⟩ := by
    rw [Scanner.finish, Scanner.ofText, Span.ofBytes, Position.ofByte, Position.ofByte,
      Nat.add_zero, clampOffset_of_le hmax, Nat.zero_add]
    rfl
  have hall : tokenize text file =
      (Scanner.ofText text file).lexemes ++ [.endAt ⟨utf8Length text.toList, file⟩] := by
    rw [tokenize, (Scanner.gives_lexemes _).toList_eq (Scanner.kind_ne_eof_of_mem_lexemes _) rfl,
      hfinish]
  rw [hall]
  constructor
  · rintro rfl
    exact ⟨_, rfl, (tokenized_iff hmax).mpr rfl⟩
  · rintro ⟨body, rfl, hbody⟩
    rw [(tokenized_iff hmax).mp hbody]
    rfl

/-- In `let é==1` the letter with two bytes is unknown, and the equals signs stay together. -/
theorem eq_tokenize_iff_equal :
    let span (i j : Nat) : Span := ⟨⟨i, "f"⟩, ⟨j, "f"⟩⟩
    ∃ body, [⟨.kwLet, "let", span 0 3⟩, ⟨.illegal, "é", span 4 6⟩, ⟨.equal, "==", span 6 8⟩,
        ⟨.integer, "1", span 8 9⟩, ⟨.eof, "", span 9 9⟩] =
        body ++ [Token.endAt ⟨utf8Length "let é==1".toList, "f"⟩] ∧
      Tokenized "f" 0 "let é==1".toList body := by
  intro span
  exact (eq_tokenize_iff (by decide +kernel)).mp (by decide +kernel)

end MonkeySyntax
