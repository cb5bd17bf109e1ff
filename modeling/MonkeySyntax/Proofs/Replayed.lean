import MonkeySyntax.Proofs.Lexemes
import MonkeySyntax.Proofs.Lockstep
import MonkeySyntax.Scan.Lexer

/-! Texts and replayed lists. A lexer that starts at the head of a text gives, pull for pull, what
the list of its tokens gives when it is replayed, so a parser cannot tell the two apart. -/
namespace MonkeySyntax

open Text TokenSource

theorem Scanner.exists_next_eq_drop (s : Scanner) : ∃ n, s.next.2 = s.drop n := by
  have hread : ∀ s : Scanner, ∃ n, s.read.2 = s.drop n := by
    intro s
    unfold read
    split
    · exact ⟨0, by simp [drop]⟩
    · exact ⟨_, rfl⟩
  obtain ⟨n, hn⟩ := hread s.skipBlanks
  exact ⟨_, hn.trans (drop_drop _ n s)⟩

namespace Lexer

variable {l : Lexer} {s : Scanner}

/-- Token number `n` of those that a lexer gives, counted from zero. There is none if the lexer
stands inside a character. -/
def nth? : Nat → Lexer → Option Token
  | 0, l => l.next?.map Prod.fst
  | n + 1, l => l.next?.bind fun p => p.2.nth? n

theorem next?_of_scanner? (h : l.scanner? = some s) :
    l.next? = some (s.next.1, { l with position := s.next.2.offset }) := by
  rw [next?, h]
  rfl

/-- A lexer between two characters, or at the end, is a scanner of what comes behind them. -/
theorem scanner?_of_append {a rest : List Char} (htext : l.text = a ++ rest)
    (hpos : l.position = utf8Length a) : l.scanner? = some ⟨l.file, l.position, rest⟩ := by
  unfold scanner?
  split
  · next hend =>
    -- what is left of the text has no bytes
    have hle : utf8Length l.text ≤ l.position := of_decide_eq_true hend
    have hchars := length_le_utf8Length rest
    rw [htext, hpos, utf8Length_append] at hle
    have hnil : rest = [] := List.length_eq_zero_iff.mp (by omega)
    rw [hnil]
  · rw [htext, hpos, dropBytes_append]
    rfl

theorem scanner?_next (h : l.scanner? = some s) :
    scanner? { l with position := s.next.2.offset } = some s.next.2 := by
  obtain ⟨n, hn⟩ := s.exists_next_eq_drop
  unfold scanner? at h
  split at h
  · next hend =>
    obtain rfl := Option.some.inj h
    have hstay : Scanner.next ⟨l.file, l.position, []⟩ = (_, ⟨l.file, l.position, []⟩) :=
      Scanner.next_nil
    rw [hstay]
    exact if_pos hend
  · obtain ⟨rest, hrest, rfl⟩ := Option.map_eq_some_iff.mp h
    obtain ⟨before, htext, hlen⟩ := dropBytes_eq_some_iff.mp hrest
    rw [hn]
    apply scanner?_of_append (a := before ++ rest.take n)
    · rw [List.append_assoc, List.take_append_drop, htext]
    · rw [utf8Length_append, hlen]
      rfl

theorem nth?_of_scanner? (h : l.scanner? = some s) (n : Nat) : l.nth? n = some (nth n s) := by
  induction n generalizing l s with
  | zero =>
    rw [nth?, next?_of_scanner? h]
    rfl
  | succ n ih =>
    rw [nth?, next?_of_scanner? h]
    exact ih (scanner?_next h)

end Lexer

/-- The tokens of a source up to its end, replayed, are that source. -/
theorem Replay.nth_ofList_toList {σ : Type} [TokenSource σ] {s : σ} {ts : List Token} {e : Token}
    (h : Gives s ts e) (hts : ∀ t ∈ ts, t.kind ≠ .eof) (he : e.kind = .eof) (n : Nat) :
    nth n (Replay.ofList (toList s)) = nth n s := by
  rw [h.toList_eq hts he, gives_replay hts he n, h n]

theorem nth_ofList_tokenize (text file : String) (n : Nat) :
    nth n (Replay.ofList (tokenize text file)) = nth n (Scanner.ofText text file) :=
  Replay.nth_ofList_toList (Scanner.gives_lexemes _) (Scanner.kind_ne_eof_of_mem_lexemes _) rfl n

theorem parse_ofList_tokenize (text file : String) :
    parse (Replay.ofList (tokenize text file)) = parseText text file :=
  parse_eq_of_nth_eq (nth_ofList_tokenize text file)

/-- A text and the list of its tokens are interchangeable. A lexer on the text, the scanner that the
text is parsed from and the replayed list give the same token at each pull, also behind the end
token, so the text and the list are parsed alike. Any list is replayed up to its first end token,
and that token is repeated; a list without one is followed by end tokens where its last token
stops. -/
theorem replay_interchangeable :
    (∀ (text file : String) (n : Nat),
      (Lexer.ofText text file).nth? n = some (nth n (Scanner.ofText text file)) ∧
        nth n (Scanner.ofText text file) = nth n (Replay.ofList (tokenize text file))) ∧
    (∀ text file : String, parse (Replay.ofList (tokenize text file)) = parseText text file) ∧
    ∀ (ts : List Token) (n : Nat),
      nth n (Replay.ofList ts) =
        (ts.takeWhile fun t => t.kind ≠ .eof).getD n
          ((ts.find? fun t => t.kind = .eof).getD
            (.endAt ((ts.getLast?.map fun t => t.span.stop).getD .unknown))) := by
  refine ⟨?_, parse_ofList_tokenize, ?_⟩
  · intro text file n
    exact ⟨Lexer.nth?_of_scanner? (Lexer.scanner?_ofText text file) n,
      (nth_ofList_tokenize text file n).symm⟩
  · intro ts n
    have hend : Replay.endOf ts =
        .endAt ((ts.getLast?.map fun t => t.span.stop).getD .unknown) := by
      unfold Replay.endOf
      cases ts.getLast? <;> rfl
    rw [← hend]
    exact gives_ofList ts n

end MonkeySyntax
