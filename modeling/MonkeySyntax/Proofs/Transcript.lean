import MonkeySyntax.Command
import MonkeySyntax.Proofs.Lines
import MonkeySyntax.Proofs.Spelling

/-! What a session writes: for each line an answer to that line, up to the first line that is no
text. The tokens that are listed for the lines of a text are the tokens of the text. -/
namespace MonkeySyntax

open Scan Text

section Tokens

variable {c : Char} {cs : List Char} {ts : List Token} {lines : List (List Char)}

theorem Spells.of_dropLastIf (hb : isBlank c) (hc : isBreak c) (h : Spells (dropLastIf c cs) ts) :
    Spells cs ts := by
  unfold dropLastIf at h
  by_cases hlast : cs.getLast? = some c
  · obtain ⟨cs, rfl⟩ := List.getLast?_eq_some_iff.mp hlast
    rw [if_pos hlast, List.dropLast_concat] at h
    rw [← List.append_nil ts]
    exact h.append_cons (.blank hb .nil) hc
  · rwa [if_neg hlast] at h

theorem Text.Lines.spells (h : Lines '\n' '\r' cs lines) :
    Spells cs (lines.flatMap fun line => Scanner.lexemes ⟨defaultFile, 0, line⟩) := by
  induction h with
  | nil => exact .nil
  | last _ _ =>
    rw [List.flatMap_singleton]
    exact spells_lexemes _
  | @cons line rest lines _ _ ih =>
    have hline := spells_lexemes (dropLastIf '\r' line)
    exact (hline.of_dropLastIf (by decide) (by decide)).append_cons (.blank (by decide) ih)
      (by decide)

theorem Token.map_render_eq {us : List Token} (h : ts.map bare = us.map bare) :
    ts.map render = us.map render := by
  have hbare : ∀ vs : List Token, (vs.map bare).map render = vs.map render := by
    intro vs
    rw [List.map_map]
    rfl
  rw [← hbare ts, h, hbare us]

end Tokens

namespace Session

variable {mode : Mode} {bytes : List UInt8} {text : String}

theorem unlines_append (ls ms : List String) : unlines (ls ++ ms) = unlines ls ++ unlines ms := by
  rw [unlines, List.map_append, String.join_append]
  rfl

theorem join_map_unlines {α : Type} (f : α → List String) (as : List α) :
    String.join (as.map fun a => unlines (f a)) = unlines (as.flatMap f) := by
  induction as with
  | nil => rfl
  | cons a as ih => rw [List.map_cons, String.join_cons, ih, List.flatMap_cons, unlines_append]

theorem answerTokens_eq (line : String) :
    answerTokens line =
      unlines ((Scanner.lexemes ⟨defaultFile, 0, line.toList⟩).map Token.render) := by
  have hlexemes : ((Scanner.ofText line defaultFile).lexemes.filter fun t => t.kind ≠ .eof) =
      (Scanner.ofText line defaultFile).lexemes :=
    List.filter_eq_self.mpr fun t ht => by
      simpa using Scanner.kind_ne_eof_of_mem_lexemes _ t ht
  have hfinish : [(Scanner.ofText line defaultFile).finish].filter (fun t => t.kind ≠ .eof) = [] :=
    rfl
  rw [answerTokens, tokenize_eq_append, List.filter_append, hlexemes, hfinish, List.append_nil]
  rfl

/-- The listings of the lines of a text are one behind the other the listing of the text. -/
theorem join_answerTokens {texts : List String}
    (h : Lines '\n' '\r' text.toList (texts.map String.toList)) (file : String) :
    String.join (texts.map answerTokens) =
      unlines ((Scanner.ofText text file).lexemes.map Token.render) := by
  have htokens := h.spells file 0
  rw [List.flatMap_map] at htokens
  calc String.join (texts.map answerTokens)
      = String.join (texts.map fun line =>
          unlines ((Scanner.lexemes ⟨defaultFile, 0, line.toList⟩).map Token.render)) := by
        rw [funext answerTokens_eq]
    _ = unlines ((texts.flatMap fun line =>
          Scanner.lexemes ⟨defaultFile, 0, line.toList⟩).map Token.render) := by
        rw [join_map_unlines, List.map_flatMap]
    _ = unlines ((Scanner.ofText text file).lexemes.map Token.render) := by
        rw [← Token.map_render_eq htokens]
        rfl

theorem lineText?_eq_some_iff :
    lineText? bytes = some text ↔ ofPiece 10 13 bytes = bytesOf text := fromUTF8?_eq_some_iff

/-- Lines are answered up to the first one that is no text, which ends the session. -/
theorem exists_answered (mode : Mode) (ps : List (List UInt8)) :
    ∃ (texts : List String) (rest : List (List UInt8)),
      ps.map (ofPiece 10 13) = texts.map bytesOf ++ rest ∧
      (∀ line ∈ rest.head?, ∀ text, line ≠ bytesOf text) ∧
      (answerLines mode ps).output =
        String.join (texts.map fun text => prompt ++ answer mode text) ++ prompt ∧
      ((answerLines mode ps).fault = none ↔ rest = []) := by
  induction ps with
  | nil => exact ⟨[], [], rfl, by simp, by simp [answerLines], by simp [answerLines]⟩
  | cons p ps ih =>
    cases hp : lineText? p with
    | none =>
      refine ⟨[], (p :: ps).map (ofPiece 10 13), rfl, ?_, ?_, ?_⟩
      · intro line hline text hline'
        obtain rfl := Option.some.inj hline
        rw [lineText?_eq_some_iff.mpr hline'] at hp
        cases hp
      · simp [answerLines, reply, hp]
      · simp [answerLines, reply, hp]
    | some text =>
      have hreply : reply mode p = .ok (answer mode text) := by rw [reply, hp]
      obtain ⟨texts, rest, hall, hrest, hout, hfault⟩ := ih
      refine ⟨text :: texts, rest, ?_, hrest, ?_, ?_⟩
      · rw [List.map_cons, lineText?_eq_some_iff.mp hp, hall]
        rfl
      · simp only [answerLines, hreply, hout, List.map_cons, String.join_cons, String.append_assoc]
      · simp only [answerLines, hreply, hfault]

theorem exists_lexResponse (text path : String) (input : List UInt8) :
    ∃ texts : List String,
      (∀ lines, Lines 10 13 (bytesOf text) lines ↔ lines = texts.map bytesOf) ∧
      (Command.lex path).respond (.bytes text.toUTF8) input =
        ⟨0, String.join (texts.map answerTokens) ++ "\x7bType:EOF Literal:\x7d\n", ""⟩ := by
  obtain ⟨texts, hchars, hbytes⟩ := exists_lines_bytesOf text
  have hfile : FileContent.text (.bytes text.toUTF8) = .ok text := by
    have hread : String.fromUTF8? text.toUTF8 = some text := fromUTF8?_eq_some_iff.mpr rfl
    rw [FileContent.text, hread]
  refine ⟨texts, fun lines => hbytes.eq_map_pieces ▸ lines_iff, ?_⟩
  rw [Command.respond, hfile, join_answerTokens hchars (Command.fileName path)]
  simp only [Command.lexResponse, tokenize_eq_append, List.map_append, unlines_append]
  rfl

/-- A session is its lines, each answered by itself. A line ends at a line feed, and a carriage
return right before that is no part of it. Before each line that is a text, and once more at the
end, stands a prompt; the first line that is no text ends the session with a fault. What is answered
to the lines of a text in token mode is the listing of a file with that text, but for its end. -/
theorem run_lines :
    (∀ (mode : Mode) (input : List UInt8), ∃ (texts : List String) (rest : List (List UInt8)),
      (∀ lines, Lines 10 13 input lines ↔ lines = texts.map bytesOf ++ rest) ∧
      (∀ line ∈ rest.head?, ∀ text, line ≠ bytesOf text) ∧
      (run mode input).output =
        String.join (texts.map fun text => ">> " ++ answer mode text) ++ ">> " ∧
      ((run mode input).fault = none ↔
        ∀ line ∈ texts.map bytesOf ++ rest, ∃ text, line = bytesOf text)) ∧
    (∀ line : String,
      answer .parse line =
        (if (parseText line "repl").isOk then (parseText line "repl").program.render ++ "\n"
          else String.join ("parser errors:\n" ::
            (parseText line "repl").diagnostics.map fun d => "\t" ++ d.message ++ "\n")) ∧
      answer .tokens line =
        String.join ((tokenize line "repl").dropLast.map fun t => t.render ++ "\n")) ∧
    ∀ (text path : String) (input : List UInt8), ∃ texts : List String,
      (∀ lines, Lines 10 13 (bytesOf text) lines ↔ lines = texts.map bytesOf) ∧
      (Command.lex path).respond (.bytes text.toUTF8) input =
        ⟨0, String.join (texts.map (answer .tokens)) ++ "\x7bType:EOF Literal:\x7d\n", ""⟩ := by
  refine ⟨?_, fun line => ⟨?_, ?_⟩, exists_lexResponse⟩
  · intro mode input
    obtain ⟨texts, rest, hall, hrest, hout, hfault⟩ := exists_answered mode (pieces 10 input)
    refine ⟨texts, rest, fun lines => hall ▸ lines_iff, hrest, hout, hfault.trans ?_⟩
    constructor
    · rintro rfl line hline
      rw [List.append_nil] at hline
      obtain ⟨text, -, rfl⟩ := List.mem_map.mp hline
      exact ⟨text, rfl⟩
    · intro h
      cases rest with
      | nil => rfl
      | cons line rest =>
        obtain ⟨text, htext⟩ := h line (List.mem_append_right _ List.mem_cons_self)
        exact absurd htext (hrest line rfl text)
  · have hreport : errorReport (parseText line defaultFile).messages =
        String.join ("parser errors:\n" ::
          (parseText line defaultFile).diagnostics.map fun d => "\t" ++ d.message ++ "\n") := by
      rw [errorReport, unlines, List.map_cons, List.map_map, Parsed.messages, List.map_map]
      rfl
    rw [answer, answerProgram, hreport]
    rfl
  · have hlexemes : (tokenize line "repl").dropLast =
        Scanner.lexemes ⟨defaultFile, 0, line.toList⟩ := by
      rw [tokenize_eq_append, List.dropLast_concat]
      rfl
    rw [answer, answerTokens_eq, hlexemes, unlines, List.map_map]
    rfl

/-- The byte 255 is no text: the line before it is answered, the one behind it is not. -/
theorem run_lines_unreadable :
    let input : List UInt8 := [49, 59, 13, 10, 255, 10, 120]
    (run .parse input).output = ">> 1\n>> " ∧
      ∃ (texts : List String) (rest : List (List UInt8)),
        [[49, 59], [255], [120]] = texts.map bytesOf ++ rest ∧
        (∀ line ∈ rest.head?, ∀ text, line ≠ bytesOf text) ∧
        (run .parse input).output =
          String.join (texts.map fun text => ">> " ++ answer .parse text) ++ ">> " ∧
        ¬ ∀ line ∈ texts.map bytesOf ++ rest, ∃ text, line = bytesOf text := by
  intro input
  obtain ⟨texts, rest, hlines, hrest, hout, hfault⟩ := run_lines.1 .parse input
  have hsplit := (hlines [[49, 59], [255], [120]]).mp (lines_iff.mpr (by decide))
  have hended : (run .parse input).fault ≠ none := by decide +kernel
  exact ⟨by decide +kernel, texts, rest, hsplit, hrest, hout, mt hfault.mpr hended⟩

end Session
end MonkeySyntax
