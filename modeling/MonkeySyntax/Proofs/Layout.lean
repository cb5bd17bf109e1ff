import Mathlib.Data.List.Forall2
import Mathlib.Data.List.GetD
import MonkeySyntax.Proofs.Accuracy
import MonkeySyntax.Proofs.Replayed
import MonkeySyntax.Proofs.Reprint

/-! Layout. Lists of tokens that differ in their places only are read alike: the same statements but
for places, with as many pulls, and the same faults, at the tokens with the same numbers. The tokens
of two texts differ in their places only exactly if the texts differ in their blanks only. -/
namespace MonkeySyntax

open Scan Text

open TokenSource (gives_ofList nth)

variable {φ : Position → Position} {ts us : List Token} {t u : Token}

/-- The tokens agree but for their places. -/
structure Token.Alike (t u : Token) : Prop where
  kind : t.kind = u.kind
  literal : t.literal = u.literal

theorem Token.alike_iff_bare_eq : t.Alike u ↔ t.bare = u.bare := by
  constructor
  · rintro ⟨hk, hl⟩
    rw [bare, bare, relocate, relocate, hk, hl]
    rfl
  · intro h
    have hk : t.bare.kind = u.bare.kind := by rw [h]
    have hl : t.bare.literal = u.bare.literal := by rw [h]
    exact ⟨hk, hl⟩

theorem Token.forall₂_alike_iff :
    List.Forall₂ Alike ts us ↔ ts.map bare = us.map bare := by
  have hbare : List.Forall₂ (fun t u : Token => t.bare = u.bare) ts us ↔
      ts.map bare = us.map bare := by
    rw [← List.forall₂_eq_eq_eq, List.forall₂_map_left_iff, List.forall₂_map_right_iff]
  rw [← hbare]
  constructor
  · exact fun h => h.imp fun _ _ => alike_iff_bare_eq.mp
  · exact fun h => h.imp fun _ _ => alike_iff_bare_eq.mpr

namespace Replay

/-- The number of tokens before the first end token. -/
def size (ts : List Token) : Nat := (ts.takeWhile fun t => t.kind ≠ .eof).length

def startOf (ts : List Token) (i : Nat) : Position := (ts.getD i (endOf ts)).span.start

theorem size_map_relocate (φ : Position → Position) (ts : List Token) :
    size (ts.map (Token.relocate φ)) = size ts := by
  rw [size, List.takeWhile_map, List.length_map]
  rfl

theorem endOf_map_relocate (hφ : φ .unknown = .unknown) (ts : List Token) :
    endOf (ts.map (Token.relocate φ)) = (endOf ts).relocate φ := by
  unfold endOf
  rw [List.getLast?_map]
  cases ts.getLast? with
  | none =>
    change Token.endAt .unknown = Token.endAt (φ .unknown)
    rw [hφ]
  | some t => rfl

theorem startOf_map_relocate (hφ : φ .unknown = .unknown) (ts : List Token) (i : Nat) :
    startOf (ts.map (Token.relocate φ)) i = φ (startOf ts i) := by
  rw [startOf, endOf_map_relocate hφ, List.getD_map]
  rfl

theorem nth_ofList_map_relocate (hφ : φ .unknown = .unknown) (ts : List Token) (k : Nat) :
    nth k (ofList (ts.map (Token.relocate φ))) = (nth k (ofList ts)).relocate φ := by
  rw [gives_ofList _ k, gives_ofList ts k, endOf_map_relocate hφ, List.takeWhile_map,
    List.find?_map, Option.getD_map, List.getD_map]
  rfl

theorem nth_ofList_of_le {i : Nat} (h : i ≤ size ts) :
    nth i (ofList ts) = ts.getD i (endOf ts) := by
  unfold size at h
  have hlast : ∀ last : Token, (ts.takeWhile fun t => t.kind ≠ .eof).getD i
      ((ts.find? fun t => t.kind = .eof).getD last) = ts.getD i last := by
    intro last
    induction ts generalizing i with
    | nil => rfl
    | cons t ts ih =>
      by_cases ht : t.kind = .eof
      · obtain rfl : i = 0 := by simpa [ht] using h
        simp [ht]
      · cases i with
        | zero => simp [ht]
        | succ i => simpa [ht] using ih (by simpa [ht] using h)
  rw [gives_ofList ts i, hlast]

end Replay

theorem parse_map_relocate (hφ : φ .unknown = .unknown) (ts : List Token) :
    let p := parse (Replay.ofList ts)
    let q := parse (Replay.ofList (ts.map (Token.relocate φ)))
    q.program.statements = p.program.statements.map (Stmt.relocate φ) ∧
      q.diagnostics = p.diagnostics.map (Diagnostic.relocate φ) ∧ q.pulled = p.pulled := by
  intro p q
  obtain ⟨hout, hpulled⟩ := parse_of_nth_eq_relocate (Replay.nth_ofList_map_relocate hφ ts)
  obtain ⟨hstmts, hdiags⟩ := Parsed.eq_map_of_outcomes hout
  exact ⟨hstmts, hdiags, hpulled⟩

theorem exists_raises_le_size (ts : List Token) :
    ∃ places, (Window.ofSource (Replay.ofList ts)).Raises 0
      (parse (Replay.ofList ts)).diagnostics places ∧ ∀ i ∈ places, i ≤ Replay.size ts := by
  have hts : ∀ t ∈ ts.takeWhile fun t => t.kind ≠ .eof, t.kind ≠ .eof := by
    intro t ht
    simpa using List.mem_takeWhile_imp ht
  have he : ((ts.find? fun t => t.kind = .eof).getD (Replay.endOf ts)).kind = .eof := by
    cases hf : ts.find? fun t => t.kind = .eof with
    | none => rfl
    | some t => simpa using List.find?_some hf
  obtain ⟨places, h⟩ := exists_parse_raises (Replay.ofList ts)
  exact ⟨places, h, h.le_length (gives_ofList ts).shows he hts⟩

theorem exists_raised (ts : List Token) :
    ∃ raised : List (Fault × Nat), (∀ r ∈ raised, r.2 ≤ Replay.size ts) ∧
      ∀ φ : Position → Position, φ .unknown = .unknown →
        (parse (Replay.ofList (ts.map (Token.relocate φ)))).diagnostics =
          raised.map fun r => ⟨r.1, Replay.startOf (ts.map (Token.relocate φ)) r.2⟩ := by
  obtain ⟨places, h, hle⟩ := exists_raises_le_size ts
  have hpos := h.map_position
  generalize hds : (parse (Replay.ofList ts)).diagnostics = ds at hpos
  refine ⟨(ds.map Diagnostic.fault).zip places, fun r hr => hle _ (List.of_mem_zip hr).2,
    fun φ hφ => ?_⟩
  have hstart : ds.map (fun d => φ d.position) =
      places.map (Replay.startOf (ts.map (Token.relocate φ))) := by
    calc ds.map (fun d => φ d.position)
        = (places.map fun i => ((Window.ofSource (Replay.ofList ts)).nth i).span.start).map φ := by
          rw [← hpos, List.map_map]
          rfl
      _ = places.map (Replay.startOf (ts.map (Token.relocate φ))) := by
          rw [List.map_map]
          refine List.map_congr_left fun i hi => ?_
          rw [Function.comp_apply, TokenSource.nth_ofSource, Replay.nth_ofList_of_le (hle i hi),
            Replay.startOf_map_relocate hφ]
          rfl
  calc (parse (Replay.ofList (ts.map (Token.relocate φ)))).diagnostics
      = ds.map (Diagnostic.relocate φ) := by rw [(parse_map_relocate hφ ts).2.1, hds]
    _ = List.zipWith Diagnostic.mk (ds.map Diagnostic.fault) (ds.map fun d => φ d.position) := by
        rw [List.zipWith_map, List.zipWith_self]
        rfl
    _ = ((ds.map Diagnostic.fault).zip places).map
          fun r => ⟨r.1, Replay.startOf (ts.map (Token.relocate φ)) r.2⟩ := by
        rw [hstart, List.zipWith_map_right, List.zip, List.map_zipWith]

/-- The token with its number in place of its places. -/
def Token.numbered (n : Nat) (t : Token) : Token :=
  ⟨t.kind, t.literal, ⟨⟨n, "start"⟩, ⟨n, "stop"⟩⟩⟩

/-- The place in the list that a numbered token has there. Other places stay. -/
def Position.lookUp (ts : List Token) (p : Position) : Position :=
  if p.file = "start" then (ts[p.offset]?.map fun t => t.span.start).getD p
  else if p.file = "stop" then (ts[p.offset]?.map fun t => t.span.stop).getD p
  else p

theorem Position.lookUp_unknown (ts : List Token) : lookUp ts .unknown = .unknown := rfl

theorem Token.map_relocate_numbered (ts : List Token) :
    (ts.mapIdx numbered).map (relocate (Position.lookUp ts)) = ts := by
  apply List.ext_getElem
  · rw [List.length_map, List.length_mapIdx]
  · intro i hi hi'
    simp [numbered, relocate, Span.relocate, Position.lookUp, hi']

theorem Token.mapIdx_numbered_eq (h : List.Forall₂ Alike ts us) :
    ts.mapIdx numbered = us.mapIdx numbered := by
  have hbare : ∀ ts : List Token, ts.mapIdx numbered = (ts.map bare).mapIdx numbered := by
    intro ts
    apply List.ext_getElem
    · simp
    · intro i hi hi'
      simp [numbered, bare]
  rw [hbare ts, hbare us, forall₂_alike_iff.mp h]

/-- Readings of the tokens `ts` and `us` that agree but for places. What was raised is a row of
faults, each with the number of the token at fault. -/
structure Parsed.Alike (ts us : List Token) (p q : Parsed) : Prop where
  statements : p.program.statements.map (Stmt.relocate Position.forget) =
    q.program.statements.map (Stmt.relocate Position.forget)
  render : p.program.render = q.program.render
  listing : p.program.listing = q.program.listing
  pulled : p.pulled = q.pulled
  diagnostics : ∃ raised : List (Fault × Nat), (∀ r ∈ raised, r.2 ≤ Replay.size ts) ∧
    p.diagnostics = raised.map (fun r => ⟨r.1, Replay.startOf ts r.2⟩) ∧
      q.diagnostics = raised.map fun r => ⟨r.1, Replay.startOf us r.2⟩

theorem alike_map_relocate {ψ : Position → Position} (hφ : φ .unknown = .unknown)
    (hψ : ψ .unknown = .unknown) (ts : List Token) :
    Parsed.Alike (ts.map (Token.relocate φ)) (ts.map (Token.relocate ψ))
      (parse (Replay.ofList (ts.map (Token.relocate φ))))
      (parse (Replay.ofList (ts.map (Token.relocate ψ)))) := by
  obtain ⟨hstmts, -, hpulled⟩ := parse_map_relocate hφ ts
  obtain ⟨hstmts', -, hpulled'⟩ := parse_map_relocate hψ ts
  obtain ⟨raised, hle, hraised⟩ := exists_raised ts
  have hforget : ∀ φ : Position → Position,
      Stmt.relocate Position.forget ∘ Stmt.relocate φ = Stmt.relocate Position.forget :=
    fun φ => funext (Stmt.forget_relocate φ)
  have hsame : (parse (Replay.ofList (ts.map (Token.relocate φ)))).program.statements.map
        (Stmt.relocate Position.forget) =
      (parse (Replay.ofList (ts.map (Token.relocate ψ)))).program.statements.map
        (Stmt.relocate Position.forget) := by
    rw [hstmts, hstmts', List.map_map, List.map_map, hforget, hforget]
  have hbare := Program.bare_eq_of_forget hsame
  exact {
    statements := hsame
    render := by rw [← Program.render_bare, hbare, Program.render_bare]
    listing := by rw [← Program.listing_bare, hbare, Program.listing_bare]
    pulled := hpulled.trans hpulled'.symm
    diagnostics := by
      refine ⟨raised, ?_, hraised φ hφ, hraised ψ hψ⟩
      rw [Replay.size_map_relocate]
      exact hle }

theorem alike_of_forall₂ (h : List.Forall₂ Token.Alike ts us) :
    Parsed.Alike ts us (parse (Replay.ofList ts)) (parse (Replay.ofList us)) := by
  have hnumbered := alike_map_relocate (Position.lookUp_unknown ts) (Position.lookUp_unknown us)
    (ts.mapIdx Token.numbered)
  have hus : (ts.mapIdx Token.numbered).map (Token.relocate (Position.lookUp us)) = us := by
    rw [Token.mapIdx_numbered_eq h, Token.map_relocate_numbered]
  rwa [Token.map_relocate_numbered, hus] at hnumbered

/-- The text `l ++ cs` starts with the lexeme `l` of kind `k`, and with no longer one. -/
def Scan.Longest (k : TokenKind) (l cs : List Char) : Prop :=
  Lexeme k l ∧ ∀ k' l', Lexeme k' l' → l' <+: l ++ cs → l'.length ≤ l.length

/-- Texts that differ in layout only: the same lexemes come one behind the other, each as long as
possible, and between them any blanks or none. -/
inductive Relaid : List Char → List Char → Prop
  | nil : Relaid [] []
  | blankLeft {c : Char} {cs ds : List Char} : isBlank c → Relaid cs ds → Relaid (c :: cs) ds
  | blankRight {c : Char} {cs ds : List Char} : isBlank c → Relaid cs ds → Relaid cs (c :: ds)
  | lexeme {k : TokenKind} {l cs ds : List Char} : Longest k l cs → Longest k l ds →
      Relaid cs ds → Relaid (l ++ cs) (l ++ ds)

section Texts

variable {f f' : String} {o o' : Nat} {c : Char} {l cs ds : List Char} {k : TokenKind}

theorem Scan.longest_headToken (hc : ¬isBlank c) (cs : List Char) :
    Longest (headToken c cs).1 (c :: cs.take (headToken c cs).2) (cs.drop (headToken c cs).2) := by
  obtain ⟨hlex, hmax⟩ := lexeme_headToken hc cs
  refine ⟨hlex, fun k' l' hl hpre => ?_⟩
  rw [List.cons_append, List.take_append_drop] at hpre
  rw [List.length_cons, List.length_take, Nat.min_eq_left (headToken_length_le c cs)]
  exact hmax k' l' hl hpre

theorem Scan.Longest.lexemes_eq (h : Longest k l cs) :
    Scanner.lexemes ⟨f, o, l ++ cs⟩ =
      ⟨k, String.ofList l, .ofBytes f o (utf8Length l)⟩ ::
        Scanner.lexemes ⟨f, o + utf8Length l, cs⟩ := by
  obtain ⟨hlex, hmax⟩ := h
  obtain ⟨c, as, rfl, hb, -⟩ := hlex.exists_headToken
  have hhead : headToken c (as ++ cs) = (k, as.length) := hlex.headToken_eq_of_longest hmax
  rw [List.cons_append, Scanner.lexemes_token hb, hhead, List.take_left, List.drop_left]

theorem Relaid.bare_lexemes_eq (h : Relaid cs ds) (f f' : String) (o o' : Nat) :
    (Scanner.lexemes ⟨f, o, cs⟩).map Token.bare =
      (Scanner.lexemes ⟨f', o', ds⟩).map Token.bare := by
  induction h generalizing o o' with
  | nil => rw [Scanner.lexemes_nil, Scanner.lexemes_nil]
  | blankLeft hc _ ih => rw [Scanner.lexemes_blank hc, ih]
  | blankRight hc _ ih => rw [Scanner.lexemes_blank hc, ih]
  | lexeme hcs hds _ ih =>
    rw [hcs.lexemes_eq, hds.lexemes_eq, List.map_cons, List.map_cons, ih]
    rfl

theorem Relaid.of_lexemes_eq_nil (h : Scanner.lexemes ⟨f, o, ds⟩ = []) : Relaid [] ds := by
  induction ds using Scanner.text_induction generalizing o with
  | nil => exact .nil
  | blank c ds hc ih =>
    rw [Scanner.lexemes_blank hc] at h
    exact .blankRight hc (ih h)
  | token c ds hc _ =>
    rw [Scanner.lexemes_token hc] at h
    cases h

theorem Relaid.of_bare_lexemes_eq
    (h : (Scanner.lexemes ⟨f, o, cs⟩).map Token.bare =
      (Scanner.lexemes ⟨f', o', ds⟩).map Token.bare) : Relaid cs ds := by
  -- Blanks at the head of either text are left out first, then both start with the same lexeme.
  induction cs using Scanner.text_induction generalizing o o' ds with
  | nil =>
    rw [Scanner.lexemes_nil, List.map_nil, eq_comm, List.map_eq_nil_iff] at h
    exact .of_lexemes_eq_nil h
  | blank c cs hc ih =>
    rw [Scanner.lexemes_blank hc] at h
    exact .blankLeft hc (ih h)
  | token c cs hc ih =>
    induction ds using Scanner.text_induction generalizing o' with
    | nil =>
      rw [Scanner.lexemes_token hc, Scanner.lexemes_nil] at h
      cases h
    | blank d ds hd ihd =>
      rw [Scanner.lexemes_blank hd] at h
      exact .blankRight hd (ihd h)
    | token d ds hd _ =>
      rw [Scanner.lexemes_token hc, Scanner.lexemes_token hd, List.map_cons, List.map_cons] at h
      obtain ⟨hfirst, hrest⟩ := List.cons.inj h
      obtain ⟨hkind, hlit⟩ := Token.alike_iff_bare_eq.mpr hfirst
      have hchars := String.ofList_injective hlit
      have hlongest := longest_headToken hd ds
      simp only at hkind
      rw [← hkind, ← hchars] at hlongest
      have hcs : c :: cs = c :: cs.take (headToken c cs).2 ++ cs.drop (headToken c cs).2 := by
        rw [List.cons_append, List.take_append_drop]
      have hds : d :: ds = c :: cs.take (headToken c cs).2 ++ ds.drop (headToken d ds).2 := by
        rw [hchars, List.cons_append, List.take_append_drop]
      rw [hcs, hds]
      exact .lexeme (longest_headToken hc cs) hlongest (ih hrest)

end Texts

/-- Texts have tokens that agree but for their places exactly if they differ in layout only. -/
theorem forall₂_tokenize_iff (text text' file file' : String) :
    List.Forall₂ Token.Alike (tokenize text file) (tokenize text' file') ↔
      Relaid text.toList text'.toList := by
  have hall : ∀ text file : String, (tokenize text file).map Token.bare =
      (Scanner.ofText text file).lexemes.map Token.bare ++ [Token.endAt .unknown] := by
    intro text file
    rw [tokenize, (Scanner.gives_lexemes _).toList_eq (Scanner.kind_ne_eof_of_mem_lexemes _) rfl,
      List.map_append]
    rfl
  rw [Token.forall₂_alike_iff, hall, hall, List.append_left_inj]
  exact ⟨Relaid.of_bare_lexemes_eq, fun h => h.bare_lexemes_eq file file' 0 0⟩

/-- Layout never matters. Lists of tokens that agree but for places are read alike. So are texts
that differ in layout only, which are those with such tokens. -/
theorem parse_alike :
    (∀ ts us : List Token, List.Forall₂ Token.Alike ts us →
      Parsed.Alike ts us (parse (Replay.ofList ts)) (parse (Replay.ofList us))) ∧
    ∀ text text' file file' : String,
      (List.Forall₂ Token.Alike (tokenize text file) (tokenize text' file') ↔
        Relaid text.toList text'.toList) ∧
      (Relaid text.toList text'.toList →
        Parsed.Alike (tokenize text file) (tokenize text' file') (parseText text file)
          (parseText text' file')) := by
  refine ⟨fun ts us h => alike_of_forall₂ h, fun text text' file file' =>
    ⟨forall₂_tokenize_iff text text' file file', fun h => ?_⟩⟩
  have halike := alike_of_forall₂ ((forall₂_tokenize_iff text text' file file').mpr h)
  rwa [parse_ofList_tokenize, parse_ofList_tokenize] at halike

/-- In `let x=a b;` the name `b` comes where the semicolon has to be, whatever the layout. -/
theorem parse_alike_spread :
    let text := "let x=a b;"
    let text' := "let\n  x = a\tb ;"
    let ts := tokenize text "f"
    let us := tokenize text' "g"
    List.Forall₂ Token.Alike ts us ∧ Relaid text.toList text'.toList ∧
      Parsed.Alike ts us (parse (Replay.ofList ts)) (parse (Replay.ofList us)) ∧
      Parsed.Alike ts us (parseText text "f") (parseText text' "g") ∧
      (parseText text "f").diagnostics = [⟨.unexpected .semicolon .identifier, ⟨8, "f"⟩⟩] ∧
      (parseText text' "g").diagnostics = [⟨.unexpected .semicolon .identifier, ⟨12, "g"⟩⟩] := by
  intro text text' ts us
  have htokens : List.Forall₂ Token.Alike ts us := Token.forall₂_alike_iff.mpr (by decide +kernel)
  have hrelaid := (parse_alike.2 text text' "f" "g").1.mp htokens
  exact ⟨htokens, hrelaid, parse_alike.1 ts us htokens,
    (parse_alike.2 text text' "f" "g").2 hrelaid, by decide +kernel, by decide +kernel⟩

end MonkeySyntax
