import MonkeySyntax.Proofs.Reprint

/-! How high the trees of a program can be. The limit on levels bounds how deep expressions are
inside one another, but a left operand is on the level of its operation, so that a row of operators
makes a tree as high as the row is long. Up to the factor of the limit nothing else does. -/
namespace MonkeySyntax

open Grammar Text

namespace Expr

/-- The number of nodes on the longest path from the root to a leaf. -/
def height : Expr → Nat
  | unary _ _ e => e.height + 1
  | binary _ _ l r => max l.height r.height + 1
  | _ => 1

/-- The same, where the step to a left operand does not count. -/
def nesting : Expr → Nat
  | unary _ _ e => e.nesting + 1
  | binary _ _ l r => max l.nesting (r.nesting + 1)
  | _ => 1

/-- The number of nodes from the root on along left operands. -/
def row : Expr → Nat
  | binary _ _ l _ => l.row + 1
  | _ => 1

/-- The longest row that starts anywhere in the tree. -/
def longestRow : Expr → Nat
  | unary _ _ e => e.longestRow
  | binary _ _ l r => max (l.row + 1) (max l.longestRow r.longestRow)
  | _ => 1

theorem row_pos (e : Expr) : 0 < e.row := by
  cases e <;> exact Nat.succ_pos _

theorem row_le_longestRow (e : Expr) : e.row ≤ e.longestRow := by
  induction e with
  | unary t op e ih => exact Nat.le_trans e.row_pos ih
  | binary t op l r hl hr => exact Nat.le_max_left _ _
  | _ => exact Nat.le_refl 1

theorem row_le_height (e : Expr) : e.row ≤ e.height := by
  induction e with
  | binary t op l r hl hr => exact Nat.succ_le_succ (Nat.le_trans hl (Nat.le_max_left _ _))
  | _ => exact Nat.succ_le_succ (Nat.zero_le _)

theorem longestRow_le_height (e : Expr) : e.longestRow ≤ e.height := by
  induction e with
  | unary t op e ih => exact Nat.le_succ_of_le ih
  | binary t op l r hl hr =>
    have := l.row_le_height
    rw [longestRow, height]
    omega
  | _ => exact Nat.le_refl 1

/-- A path to a leaf runs along a row on each of the levels that it goes through; the one on the
first level starts at the root. -/
theorem height_le_add_row {c : Nat} (e : Expr) (h : e.longestRow ≤ c) :
    e.height + c ≤ e.nesting * c + e.row := by
  induction e with
  | unary t op e ih =>
    have hrow : e.row ≤ c := Nat.le_trans e.row_le_longestRow h
    have hinner := ih h
    change e.height + 1 + c ≤ (e.nesting + 1) * c + 1
    rw [Nat.add_one_mul]
    omega
  | binary t op l r hl hr =>
    obtain ⟨-, hlr⟩ := Nat.max_le.mp h
    obtain ⟨hlc, hrc⟩ := Nat.max_le.mp hlr
    have hleft := hl hlc
    have hright := hr hrc
    have hrow : r.row ≤ c := Nat.le_trans r.row_le_longestRow hrc
    have hln := Nat.mul_le_mul_right c (Nat.le_max_left l.nesting (r.nesting + 1))
    have hrn := Nat.mul_le_mul_right c (Nat.le_max_right l.nesting (r.nesting + 1))
    rw [Nat.add_one_mul] at hrn
    change max l.height r.height + 1 + c ≤ max l.nesting (r.nesting + 1) * c + (l.row + 1)
    omega
  | _ => simp [height, nesting, row, Nat.add_comm]

theorem height_le_mul (e : Expr) : e.height ≤ e.nesting * e.longestRow := by
  have := e.height_le_add_row (Nat.le_refl _)
  have := e.row_le_longestRow
  omega

theorem height_relocate (φ : Position → Position) (e : Expr) :
    (e.relocate φ).height = e.height := by
  induction e with
  | unary t op e ih => rw [relocate, height, height, ih]
  | binary t op l r hl hr => rw [relocate, height, height, hl, hr]
  | _ => rfl

end Expr

theorem Stmt.height_value_bare (s : Stmt) : s.bare.value.height = s.value.height := by
  cases s <;> exact Expr.height_relocate _ _

namespace Grouped

/-- Reading a tree takes a level for each step of its nesting, and more for its parentheses. -/
theorem nesting_expr_le (g : Grouped) : g.expr.nesting ≤ g.levels := by
  induction g with
  | atom t e h =>
    cases Expr.ofToken?_eq_some_iff.mp h <;> exact Nat.le_refl 1
  | unary t op h x ih => exact Nat.succ_le_succ ih
  | binary l t op h r hl hr =>
    rw [expr, Expr.nesting, levels]
    omega
  | group o ho x c hc ih => exact Nat.le_succ_of_le ih

def one : Grouped := .atom (.unplaced .integer "1") (.int (.unplaced .integer "1") 1) (by decide)

/-- The sum of `n + 1` ones. -/
def sum : Nat → Grouped
  | 0 => one
  | n + 1 => .binary (sum n) (.unplaced .plus "+") .add rfl one

theorem wellShaped_sum (n : Nat) : (sum n).WellShaped := by
  induction n with
  | zero => trivial
  | succ n ih =>
    refine ⟨ih, trivial, ?_, by simp [one, top?]⟩
    intro q hq
    cases n with
    | zero => cases hq
    | succ n =>
      obtain rfl := Option.some.inj hq
      exact Nat.le_refl _

theorem levels_sum_le (n : Nat) : (sum n).levels ≤ 2 := by
  induction n with
  | zero => exact Nat.le_succ 1
  | succ n ih => exact Nat.max_le.mpr ⟨ih, Nat.le_refl 2⟩

theorem height_sum (n : Nat) : (sum n).expr.height = n + 1 := by
  induction n with
  | zero => rfl
  | succ n ih =>
    change max (sum n).expr.height 1 + 1 = n + 1 + 1
    rw [ih]
    exact congrArg Nat.succ (Nat.max_eq_left (Nat.le_add_left 1 n))

def sumText (n : Nat) : String := String.join ("1" :: List.replicate n "+1")

theorem toList_sumText_succ (n : Nat) :
    (sumText (n + 1)).toList = (sumText n).toList ++ ['+', '1'] := by
  have hjoin : sumText (n + 1) = sumText n ++ "+1" := by
    rw [sumText, List.replicate_succ', ← List.cons_append, String.join_append]
    rfl
  rw [hjoin, String.toList_append]
  rfl

theorem spells_sum (n : Nat) : Spells (sumText n).toList (sum n).tokens := by
  have hone : Spells ['1'] [.unplaced .integer "1"] :=
    .of_spelled (t := .unplaced .integer "1") ⟨'1', [], rfl, by decide, by decide⟩
  induction n with
  | zero => exact hone
  | succ n ih =>
    have hplus : Spells ['+'] [.unplaced .plus "+"] :=
      .of_spelled (t := .unplaced .plus "+") ⟨'+', [], rfl, by decide, by decide⟩
    rw [toList_sumText_succ]
    exact ih.append_cons (hplus.cons hone (by decide)) (by decide)

end Grouped

theorem parseText_sumText (n : Nat) (file : String) :
    (parseText (Grouped.sumText n) file).isOk ∧
      ∃ s, (parseText (Grouped.sumText n) file).program.statements = [s] ∧
        s.value.height = n + 1 := by
  let x : Sentence := .expr (.sum n) none (by simp)
  have htokens : [x].flatMap Sentence.tokens = (Grouped.sum n).tokens := by
    simp [x, Sentence.tokens]
  have hsep : Sentence.Separated [x] := ⟨Grouped.wellShaped_sum n, ⟨by decide, rfl⟩, trivial⟩
  have hlev : ∀ y ∈ [x], y.value.levels ≤ nestingLimit := by
    intro y hy
    obtain rfl := List.mem_singleton.mp hy
    exact Nat.le_trans (Grouped.levels_sum_le n) (by decide)
  have hts : ∀ t ∈ [x].flatMap Sentence.tokens, t.kind ≠ .eof := Sentence.kind_ne_eof_of_mem_flatMap
  obtain ⟨hp, hd⟩ := Sentence.parse_of_separated hsep
    (TokenSource.gives_replay (e := .endAt .unknown) hts rfl) rfl hlev
  obtain ⟨hprog, hfaults⟩ := parseText_of_spells (htokens ▸ Grouped.spells_sum n) hts file
  rw [hp] at hprog
  rw [hd] at hfaults
  constructor
  · rw [Parsed.isOk, List.map_eq_nil_iff.mp hfaults]
    rfl
  · obtain ⟨s, hs, hbare⟩ := List.map_eq_singleton_iff.mp (congrArg Program.statements hprog)
    refine ⟨s, hs, ?_⟩
    rw [← s.height_value_bare, hbare, Stmt.height_value_bare]
    exact Grouped.height_sum n

/-- The limit on levels bounds how deep the expressions of a program are inside one another, but for
left operands. The trees are as high as their longest row at least, and at most by the factor of the
limit higher: they stay low exactly where the rows of operators are short. -/
theorem parse_height {σ : Type} [TokenSource σ] (s : σ) (x : Stmt)
    (hx : x ∈ (parse s).program.statements) :
    x.value.nesting ≤ nestingLimit ∧ x.value.longestRow ≤ x.value.height ∧
      x.value.height ≤ nestingLimit * x.value.longestRow := by
  obtain ⟨w, v, hr⟩ := exists_run_of_mem_readAll (Parsed.mem_statements_iff.mp hx)
  obtain ⟨y, -, rfl, hy⟩ := Sentence.exists_of_readStmt hr
  have hnesting : y.stmt.value.nesting ≤ nestingLimit := by
    rw [Sentence.value_stmt]
    exact Nat.le_trans y.value.nesting_expr_le hy
  refine ⟨hnesting, y.stmt.value.longestRow_le_height, ?_⟩
  exact Nat.le_trans y.stmt.value.height_le_mul (Nat.mul_le_mul_right _ hnesting)

theorem parse_height_sum :
    let one : Token := .unplaced .integer "1"
    let plus : Token := .unplaced .plus "+"
    let x : Stmt := .expr one (.binary plus .add (.binary plus .add (.int one 1) (.int one 1))
      (.int one 1))
    x ∈ (parse (Replay.ofList [one, plus, one, plus, one])).program.statements ∧
      x.value.longestRow = 3 ∧ 3 ≤ x.value.height ∧ x.value.height ≤ 128 * 3 := by
  intro one plus x
  have hx : x ∈ (parse (Replay.ofList [one, plus, one, plus, one])).program.statements := by
    decide +kernel
  obtain ⟨-, hlow, hhigh⟩ := parse_height _ x hx
  exact ⟨hx, rfl, hlow, hhigh⟩

/-- No bound holds for the trees of all programs. -/
theorem parse_height_unbounded :
    ¬ ∃ bound : Nat, ∀ {σ : Type} [TokenSource σ] (s : σ), ∀ x ∈ (parse s).program.statements,
      x.value.height ≤ bound := by
  rintro ⟨bound, hbound⟩
  obtain ⟨-, x, hx, hheight⟩ := parseText_sumText bound "repl"
  have hmem : x ∈ (parse (Scanner.ofText (Grouped.sumText bound) "repl")).program.statements := by
    change x ∈ (parseText (Grouped.sumText bound) "repl").program.statements
    rw [hx]
    exact List.mem_singleton.mpr rfl
  have := hbound _ x hmem
  omega

end MonkeySyntax
