import MonkeySyntax.Parse.Expression

/-! Reading statements and programs. A statement is read up to its semicolon, which stays the
current token. A malformed one gives a diagnostic, and reading goes on behind its semicolon. -/
namespace MonkeySyntax

open Step

variable {σ : Type} [TokenSource σ]

namespace StmtRule

/-- Reads a name, an equals sign, a value and a semicolon behind the current keyword. -/
def readBinding (nested : Power → Step σ Expr) : Step σ Stmt := do
  let t ← current
  let name ← expect .identifier
  let _ ← expect .assign
  advance
  let e ← nested .lowest
  let _ ← expect .semicolon
  return .binding t ⟨name, name.literal⟩ e

def readRet (nested : Power → Step σ Expr) : Step σ Stmt := do
  let t ← current
  advance
  let e ← nested .lowest
  let _ ← expect .semicolon
  return .ret t e

/-- Reads an expression, and the semicolon behind it if there is one. -/
def readExprStmt (nested : Power → Step σ Expr) : Step σ Stmt := do
  let t ← current
  let e ← nested .lowest
  if (← peek).kind = .semicolon then advance
  return .expr t e

def read (nested : Power → Step σ Expr) : StmtRule → Step σ Stmt
  | binding => readBinding nested
  | ret => readRet nested
  | expr => readExprStmt nested

end StmtRule

def Grammar.readStmt (g : Grammar) (nested : Power → Step σ Expr) : Step σ Stmt := do
  let t ← current
  ((g.statement t.kind).getD .expr).read nested

/-- Moves on to the next semicolon or to the end, starting with the current token. -/
def Window.skipStatement (w : Window σ) : Window σ :=
  if w.current.kind = .semicolon ∨ w.current.kind = .eof then w else w.advance.skipStatement
termination_by w.pending
decreasing_by exact pending_advance_lt (pending_pos_of_current (by simp_all))

theorem Window.reaches_skipStatement (w : Window σ) : w.Reaches w.skipStatement := by
  fun_induction skipStatement w with
  | case1 w => exact .refl w
  | case2 w _ ih => exact (Reaches.advance w).trans ih

/-- Reads statements to the end of the source: what each one gave, and the last window. -/
def readAll (stmt : Step σ Stmt) (w : Window σ) : List (Except Diagnostic Stmt) × Window σ :=
  if w.current.kind = .eof then ([], w)
  else
    let result := stmt.run w
    match result.1 with
    | .ok s =>
      let later := readAll stmt result.2.advance
      (.ok s :: later.1, later.2)
    | .error d =>
      let later := readAll stmt result.2.skipStatement.advance
      (.error d :: later.1, later.2)
termination_by w.pending
decreasing_by
  all_goals
    have hpos := Window.pending_pos_of_current (w := w) (by assumption)
    have hle := (stmt.forward w).pending_le
  · exact Window.pending_advance_lt_of_le hpos hle
  · exact Window.pending_advance_lt_of_le hpos
      (Nat.le_trans (Window.reaches_skipStatement _).pending_le hle)

/-- What reading a program gave: a statement or a diagnostic for each piece that was read, in
order, and the number of tokens that were pulled for it. -/
structure Parsed where
  outcomes : List (Except Diagnostic Stmt)
  pulled : Nat

namespace Parsed

def program (p : Parsed) : Program :=
  ⟨p.outcomes.filterMap fun
    | .ok s => some s
    | .error _ => none⟩

def diagnostics (p : Parsed) : List Diagnostic :=
  p.outcomes.filterMap fun
    | .ok _ => none
    | .error d => some d

def messages (p : Parsed) : List String := p.diagnostics.map Diagnostic.message

def isOk (p : Parsed) : Bool := p.diagnostics.isEmpty

/-- The program if all of it could be read, the diagnostics otherwise. -/
def toExcept (p : Parsed) : Except (List Diagnostic) Program :=
  if p.isOk then .ok p.program else .error p.diagnostics

/-- Every piece counts once, as a statement or as a diagnostic. -/
theorem length_statements_add_length_diagnostics (p : Parsed) :
    p.program.statements.length + p.diagnostics.length = p.outcomes.length := by
  unfold program diagnostics
  induction p.outcomes with
  | nil => rfl
  | cons o os ih => cases o <;> simp_all <;> omega

end Parsed
end MonkeySyntax
