import Mathlib.Data.List.Forall2
import MonkeySyntax.Proofs.Reprint

/-! Listings are unambiguous. The tokens of a row of statements can be read back with as many levels
as the row needs, so a listing determines its program however deep its expressions are. -/
namespace MonkeySyntax

open Grammar Text

namespace Sentence

variable {n : Nat} {xs ys : List Sentence}

theorem exists_levels_le (xs : List Sentence) : ∃ n, ∀ x ∈ xs, x.value.levels ≤ n := by
  induction xs with
  | nil => exact ⟨0, by simp⟩
  | cons x xs ih =>
    obtain ⟨n, hn⟩ := ih
    refine ⟨max x.value.levels n, List.forall_mem_cons.mpr ⟨Nat.le_max_left _ _, fun y hy => ?_⟩⟩
    exact Nat.le_trans (hn y hy) (Nat.le_max_right _ _)

theorem readAll_bare (hx : Separated xs) (hn : ∀ x ∈ xs, x.value.levels ≤ n) :
    (readAll (standard.readStmt (standard.readExpr n)) (.ofSource
        (Replay.ofList ((xs.flatMap tokens).map Token.bare ++ [.endAt .unknown])))).1 =
      ((xs.map stmt).map (Stmt.relocate Position.forget)).map .ok := by
  have htokens : ∀ t ∈ xs.flatMap tokens, t.kind ≠ .eof := kind_ne_eof_of_mem_flatMap
  have hbare : ∀ t ∈ (xs.flatMap tokens).map Token.bare, t.kind ≠ .eof :=
    List.forall_mem_map.mpr htokens
  have hs := TokenSource.gives_replay (e := .endAt .unknown) htokens rfl
  have hs' := TokenSource.gives_replay (e := .endAt .unknown) hbare rfl
  obtain ⟨hcopy, -⟩ := readAll_of_copies n (hs.shows.copies hs'.shows)
  rw [hcopy, readAll_of_separated hx hs.shows rfl hn, List.map_map, List.map_map, List.map_map]
  rfl

theorem map_forget_eq_of_bare_eq (hx : Separated xs) (hy : Separated ys)
    (h : (xs.flatMap tokens).map Token.bare = (ys.flatMap tokens).map Token.bare) :
    (xs.map stmt).map (Stmt.relocate Position.forget) =
      (ys.map stmt).map (Stmt.relocate Position.forget) := by
  obtain ⟨n, hn⟩ := exists_levels_le (xs ++ ys)
  have hxs := readAll_bare hx fun x hmem => hn x (List.mem_append_left ys hmem)
  have hys := readAll_bare hy fun y hmem => hn y (List.mem_append_right xs hmem)
  rw [h, hys] at hxs
  exact (List.map_injective_iff.mpr (fun _ _ => Except.ok.inj) hxs).symm

/-- Statements whose written forms have the same tokens are the same but for places. -/
theorem bare_eq_of_written (h : ((xs.map written).flatMap tokens).map Token.bare =
      ((ys.map written).flatMap tokens).map Token.bare) :
    Program.bare ⟨xs.map stmt⟩ = Program.bare ⟨ys.map stmt⟩ := by
  rw [← bare_map_written xs, ← bare_map_written ys]
  exact Program.bare_eq_of_forget
    (map_forget_eq_of_bare_eq (separated_written xs) (separated_written ys) h)

end Sentence

theorem Spells.bare_eq {cs : List Char} {ts us : List Token} (h : Spells cs ts)
    (h' : Spells cs us) : ts.map Token.bare = us.map Token.bare :=
  (h defaultFile 0).symm.trans (h' defaultFile 0)

theorem Program.bare_eq_iff {p q : Program} :
    p.bare = q.bare ↔ List.Forall₂ (fun s t => s.bare = t.bare) p.statements q.statements := by
  rw [bare, bare, Program.mk.injEq, ← List.forall₂_eq_eq_eq, List.forall₂_map_left_iff,
    List.forall₂_map_right_iff]

/-- Programs that were read without a diagnostic have the same listing exactly if they have as many
statements and each is the same as the one in its place, but for places. The expressions may be
too deep for the listing to be read again. -/
theorem parseText_listing_eq_iff {text file text' file' : String} (h : (parseText text file).isOk)
    (h' : (parseText text' file').isOk) :
    (parseText text file).program.listing = (parseText text' file').program.listing ↔
      List.Forall₂ (fun s t => s.bare = t.bare) (parseText text file).program.statements
        (parseText text' file').program.statements := by
  rw [← Program.bare_eq_iff]
  constructor
  · intro hl
    obtain ⟨xs, hxs, hp⟩ := exists_sentences h
    obtain ⟨ys, hys, hq⟩ := exists_sentences h'
    rw [hp, hq] at hl ⊢
    have hspells := Sentence.spells_listing hxs
    rw [hl] at hspells
    exact Sentence.bare_eq_of_written (hspells.bare_eq (Sentence.spells_listing hys))
  · intro hb
    rw [← Program.listing_bare, hb, Program.listing_bare]

/-- Of 64 minus signs one behind the other a listing shows 64 parentheses, for which there are not
levels enough; it still determines the program, which keeps the digits of `007`. -/
theorem parseText_listing_eq_iff_deep :
    let signs := String.ofList (List.replicate 64 '-')
    let p := (parseText (signs ++ "007; b") "f").program
    let q := (parseText ("(" ++ signs ++ "(007))\nb;") "g").program
    p.listing = q.listing ∧ (∃ s ∈ p.statements, nestingLimit < s.value.writtenLevels) ∧
      List.Forall₂ (fun s t => s.bare = t.bare) p.statements q.statements := by
  intro signs p q
  have hp : (parseText (signs ++ "007; b") "f").isOk := by decide +kernel
  have hq : (parseText ("(" ++ signs ++ "(007))\nb;") "g").isOk := by decide +kernel
  have hl : p.listing = q.listing := by decide +kernel
  exact ⟨hl, by decide +kernel, (parseText_listing_eq_iff hp hq).mp hl⟩

end MonkeySyntax
