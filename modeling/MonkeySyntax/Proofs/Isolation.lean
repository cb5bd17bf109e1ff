import MonkeySyntax.Proofs.Lexemes
import MonkeySyntax.Proofs.Lockstep

/-! Semicolons keep the parts of a program apart: what stands before a semicolon and what stands
behind it are read as if each of them were alone. -/
namespace MonkeySyntax

open Grammar Window

variable {σ τ υ : Type} [TokenSource σ] [TokenSource τ] [TokenSource υ] {φ : Position → Position}

section

variable {v : Window σ} {w : Window τ} {ts us : List Token} {t d e : Token}

theorem Window.Shows.lt_length {i : Nat} (hv : v.Shows ts d) (hlast : ts.getLast? = some t)
    (ht : t.kind = .semicolon) (hi : ∀ j < i, (v.nth j).kind ≠ .semicolon) : i < ts.length := by
  have hne : ts ≠ [] := by
    rintro rfl
    cases hlast
  have hpos := List.length_pos_iff.mpr hne
  apply Nat.not_le.mp
  intro hle
  apply hi (ts.length - 1) (by omega)
  rw [hv, List.getD_eq_getElem?_getD, ← List.getLast?_eq_getElem?, hlast]
  exact ht

theorem Window.Shows.mirrors (hv : v.Shows ts d) (hw : w.Shows (ts ++ us) e)
    (hlast : ts.getLast? = some t) (ht : t.kind = .semicolon) : Mirrors id v w := by
  intro i hi
  have hlt := hv.lt_length hlast ht hi
  rw [hv, hw, List.getD_eq_getElem?_getD, List.getD_eq_getElem?_getD,
    List.getElem?_append_left hlt, List.getElem?_eq_getElem hlt]
  rfl

end

theorem readAll_append (n : Nat) {ts us : List Token} {d e : Token} {v : Window σ} {w : Window τ}
    {x : Window υ} (hv : v.Shows ts d) (hd : d.kind = .eof)
    (hw : w.Shows (ts ++ us.map (Token.relocate φ)) (e.relocate φ)) (hx : x.Shows us e)
    (hts : ∀ t ∈ ts, t.kind ≠ .eof) (hlast : ∀ t ∈ ts.getLast?, t.kind = .semicolon) :
    (readAll (standard.readStmt (standard.readExpr n)) w).1 =
      (readAll (standard.readStmt (standard.readExpr n)) v).1 ++
        (readAll (standard.readStmt (standard.readExpr n)) x).1.map
          (relocateResult φ (Stmt.relocate φ)) := by
  -- Induction on the tokens before the semicolon: each piece uses up some of them.
  induction hl : ts.length using Nat.strongRecOn generalizing ts v w with
  | _ m ih =>
    cases hg : ts.getLast? with
    | none =>
      obtain rfl := List.getLast?_eq_none_iff.mp hg
      have hve : v.current.kind = .eof := by rw [hv.current_eq]; exact hd
      have hc : Copies φ x w := hx.copies hw
      rw [readAll_of_eof hve, (readAll_of_copies n hc).1]
      rfl
    | some t =>
      have ht := hlast t hg
      have hne : ts ≠ [] := fun h => by simp [h] at hg
      have hpos := List.length_pos_iff.mpr hne
      have hm := hv.mirrors hw hg ht
      have hve : v.current.kind ≠ .eof := by
        rw [hv.current_eq, List.getD_eq_getElem?_getD, List.getElem?_eq_getElem hpos]
        exact hts _ (List.getElem_mem hpos)
      have hwe : w.current.kind ≠ .eof := by
        rw [hm.current_eq]
        exact hve
      obtain ⟨_, _, ⟨i, rfl, rfl, hi⟩, hp, hp'⟩ := exists_readPiece n hm
      have hlt := hv.lt_length hg ht hi
      have hv' := hv.after (i + 1)
      have hw' := hw.after (i + 1)
      rw [List.drop_append_of_le_length hlt] at hw'
      have hrest := ih _ (by rw [← hl, List.length_drop]; omega) hv' hw'
        (fun u hu => hts u (List.mem_of_mem_drop hu))
        (fun u hu => hlast u (mem_getLast?_of_drop hu)) rfl
      rw [readAll_of_ne_eof hve, readAll_of_ne_eof hwe, hp', hp, relocateResult_id, ← after_succ,
        ← after_succ, hrest, List.cons_append]

theorem parse_append {s : σ} {a : τ} {b : υ} {ts us : List Token} {d e : Token}
    (hs : TokenSource.Gives s (ts ++ us.map (Token.relocate φ)) (e.relocate φ))
    (ha : TokenSource.Gives a ts d) (hb : TokenSource.Gives b us e) (hd : d.kind = .eof)
    (hts : ∀ t ∈ ts, t.kind ≠ .eof) (hlast : ∀ t ∈ ts.getLast?, t.kind = .semicolon) :
    (parse s).program.statements =
        (parse a).program.statements ++ (parse b).program.statements.map (Stmt.relocate φ) ∧
      (parse s).diagnostics =
        (parse a).diagnostics ++ (parse b).diagnostics.map (Diagnostic.relocate φ) := by
  apply Parsed.eq_append_of_outcomes
  rw [parse_outcomes, parse_outcomes, parse_outcomes]
  exact readAll_append nestingLimit ha.shows hd hs.shows hb.shows hts hlast

/-- What is behind a semicolon is read as if nothing were before it, and what is before it as if
nothing were behind it, be they tokens of any sources or texts. In a text, places behind the
semicolon are counted from the start of the whole. -/
theorem parse_append_semicolon :
    (∀ {σ τ υ : Type} [TokenSource σ] [TokenSource τ] [TokenSource υ] (s : σ) (a : τ) (b : υ)
      (ts us : List Token) (t d e : Token), TokenSource.Gives s (ts ++ us) e →
        TokenSource.Gives a ts d → TokenSource.Gives b us e → (∀ u ∈ ts, u.kind ≠ .eof) →
        d.kind = .eof → ts.getLast? = some t → t.kind = .semicolon →
        (parse s).program.statements =
            (parse a).program.statements ++ (parse b).program.statements ∧
          (parse s).diagnostics = (parse a).diagnostics ++ (parse b).diagnostics) ∧
      ∀ first second file : String, first.toList.getLast? = some ';' →
        Text.utf8Length (first ++ second).toList ≤ maxOffset →
        (parseText (first ++ second) file).program.statements =
            (parseText first file).program.statements ++
              (parseText second file).program.statements.map
                (Stmt.relocate (Position.shift (Text.utf8Length first.toList))) ∧
          (parseText (first ++ second) file).diagnostics =
            (parseText first file).diagnostics ++
              (parseText second file).diagnostics.map
                (Diagnostic.relocate (Position.shift (Text.utf8Length first.toList))) := by
  constructor
  · intro σ τ υ _ _ _ s a b ts us t d e hs ha hb hts hd hlast ht
    have hid : us.map (Token.relocate id) = us := List.map_id us
    have hlast' : ∀ u ∈ ts.getLast?, u.kind = .semicolon := by
      intro u hu
      obtain rfl : t = u := Option.some.inj (hlast.symm.trans hu)
      exact ht
    have h := parse_append (φ := id) (hid.symm ▸ hs) ha hb hd hts hlast'
    have hstmt : Stmt.relocate id = id := funext Stmt.relocate_id
    have hdiag : Diagnostic.relocate id = id := rfl
    rw [hstmt, hdiag, List.map_id, List.map_id] at h
    exact h
  · intro first second file hlast hlen
    rw [String.toList_append, Text.utf8Length_append] at hlen
    have hsemi := Scanner.getLast?_lexemes (f := file) (o := 0) hlast
    have hapart : ∀ x ∈ first.toList.getLast?, ∀ y ∈ second.toList.head?, Scan.Apart x y := by
      intro x hx y _
      obtain rfl : ';' = x := Option.some.inj (hlast.symm.trans hx)
      exact ⟨fun hw => absurd hw.1 (by decide), fun hw => absurd hw.1 (by decide)⟩
    have hlex : (Scanner.ofText (first ++ second) file).lexemes =
        (Scanner.ofText first file).lexemes ++ (Scanner.ofText second file).lexemes.map
          (Token.relocate (Position.shift (Text.utf8Length first.toList))) := by
      unfold Scanner.ofText
      rw [String.toList_append, Scanner.lexemes_append hapart, Scanner.lexemes_add (by omega)]
    have hfin : (Scanner.ofText (first ++ second) file).finish =
        (Scanner.ofText second file).finish.relocate
          (Position.shift (Text.utf8Length first.toList)) := by
      unfold Scanner.ofText
      rw [String.toList_append, Scanner.finish_append, Scanner.finish_add (by omega)]
    have hs := Scanner.gives_lexemes (.ofText (first ++ second) file)
    rw [hlex, hfin] at hs
    apply parse_append hs (Scanner.gives_lexemes _) (Scanner.gives_lexemes _) rfl
    · exact Scanner.kind_ne_eof_of_mem_lexemes _
    · intro u hu
      obtain ⟨t, ht, hk⟩ := hsemi
      obtain rfl : t = u := Option.some.inj (ht.symm.trans hu)
      exact hk

/-- The malformed binding in front of the semicolon leaves the expression behind it alone. -/
theorem parse_append_semicolon_malformed :
    let keyword : Token := .unplaced .kwLet "let"
    let semicolon : Token := .unplaced .semicolon ";"
    let name : Token := .unplaced .identifier "x"
    let stop : Token := .endAt .unknown
    (parse (Replay.ofList ([keyword, semicolon, name] ++ [stop]))).program.statements =
        (parse (Replay.ofList ([keyword, semicolon] ++ [stop]))).program.statements ++
          (parse (Replay.ofList ([name] ++ [stop]))).program.statements ∧
      (parseText ("let 1;" ++ "x") "f").program.statements =
        (parseText "let 1;" "f").program.statements ++
          (parseText "x" "f").program.statements.map (Stmt.relocate (Position.shift 6)) ∧
      (parseText ("let 1;" ++ "x") "f").diagnostics ≠ [] := by
  intro keyword semicolon name stop
  have hs : TokenSource.Gives (Replay.ofList ([keyword, semicolon, name] ++ [stop]))
      ([keyword, semicolon] ++ [name]) stop := TokenSource.gives_replay (by decide) rfl
  have ha : TokenSource.Gives (Replay.ofList ([keyword, semicolon] ++ [stop]))
      [keyword, semicolon] stop := TokenSource.gives_replay (by decide) rfl
  have hb : TokenSource.Gives (Replay.ofList ([name] ++ [stop])) [name] stop :=
    TokenSource.gives_replay (by decide) rfl
  have htokens := parse_append_semicolon.1 _ _ _ _ _ semicolon stop stop hs ha hb (by decide)
    rfl rfl rfl
  have htext := parse_append_semicolon.2 "let 1;" "x" "f" (by decide +kernel) (by decide +kernel)
  exact ⟨htokens.1, htext.1, by decide +kernel⟩

end MonkeySyntax
