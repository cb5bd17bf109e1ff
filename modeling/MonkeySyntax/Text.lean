/-! Texts as lists of characters: blanks, lengths in UTF-8, lines, and the line that holds a given
byte. -/
namespace MonkeySyntax.Text

/-- The code points with the Unicode property White_Space, as closed ranges. -/
def blankRanges : List (Nat × Nat) :=
  [(0x09, 0x0D), (0x20, 0x20), (0x85, 0x85), (0xA0, 0xA0), (0x1680, 0x1680), (0x2000, 0x200A),
    (0x2028, 0x2029), (0x202F, 0x202F), (0x205F, 0x205F), (0x3000, 0x3000)]

def isBlank (c : Char) : Bool :=
  blankRanges.any fun (lo, hi) => lo ≤ c.toNat && c.toNat ≤ hi

def trimEnd (cs : List Char) : List Char :=
  (cs.reverse.dropWhile isBlank).reverse

def utf8Length : List Char → Nat
  | [] => 0
  | c :: cs => c.utf8Size + utf8Length cs

/-- The text after the first `n` bytes, if byte `n` is the start of a character or the end. -/
def dropBytes : Nat → List Char → Option (List Char)
  | 0, cs => some cs
  | _ + 1, [] => none
  | n + 1, c :: cs => if c.utf8Size ≤ n + 1 then dropBytes (n + 1 - c.utf8Size) cs else none

@[simp] theorem utf8Length_nil : utf8Length [] = 0 := rfl

@[simp] theorem utf8Length_cons (c : Char) (cs : List Char) :
    utf8Length (c :: cs) = c.utf8Size + utf8Length cs := rfl

@[simp] theorem utf8Length_append (cs ds : List Char) :
    utf8Length (cs ++ ds) = utf8Length cs + utf8Length ds := by
  induction cs with
  | nil => simp
  | cons c cs ih => simp [ih, Nat.add_assoc]

theorem length_le_utf8Length (cs : List Char) : cs.length ≤ utf8Length cs := by
  induction cs with
  | nil => simp
  | cons c cs ih =>
    have := c.utf8Size_pos
    simp only [List.length_cons, utf8Length_cons]
    omega

theorem dropBytes_append (l r : List Char) : dropBytes (utf8Length l) (l ++ r) = some r := by
  induction l with
  | nil => simp [dropBytes]
  | cons c l ih =>
    have hc := c.utf8Size_pos
    obtain ⟨n, hn⟩ : ∃ n, utf8Length (c :: l) = n + 1 := ⟨utf8Length (c :: l) - 1, by
      rw [utf8Length_cons]; omega⟩
    rw [utf8Length_cons] at hn
    have hle : c.utf8Size ≤ n + 1 := by omega
    have hsub : n + 1 - c.utf8Size = utf8Length l := by omega
    rw [utf8Length_cons, hn, List.cons_append, dropBytes, if_pos hle, hsub, ih]

/-- Dropping bytes succeeds exactly where the text can be cut between characters. -/
theorem dropBytes_eq_some_iff {n : Nat} {cs r : List Char} :
    dropBytes n cs = some r ↔ ∃ l, cs = l ++ r ∧ utf8Length l = n := by
  constructor
  · intro h
    fun_induction dropBytes n cs with
    | case1 cs =>
      obtain rfl := Option.some.inj h
      exact ⟨[], rfl, rfl⟩
    | case2 => cases h
    | case3 n c cs hle ih =>
      obtain ⟨l, rfl, hl⟩ := ih h
      exact ⟨c :: l, rfl, by rw [utf8Length_cons]; omega⟩
    | case4 => cases h
  · rintro ⟨l, rfl, rfl⟩
    exact dropBytes_append l r

/-- The pieces of a list that `stop` ends. Each piece keeps its `stop`; the last one may lack it. -/
def pieces {α : Type} [DecidableEq α] (stop : α) : List α → List (List α)
  | [] => []
  | a :: as =>
    if a = stop then [a] :: pieces stop as
    else match pieces stop as with
      | [] => [[a]]
      | p :: ps => (a :: p) :: ps

theorem flatten_pieces {α : Type} [DecidableEq α] (stop : α) (as : List α) :
    (pieces stop as).flatten = as := by
  induction as with
  | nil => rfl
  | cons a as ih =>
    rw [pieces]
    split
    · simp [ih]
    · split <;> simp_all

def dropLastIf {α : Type} [DecidableEq α] (a : α) (as : List α) : List α :=
  if as.getLast? = some a then as.dropLast else as

/-- A line of a text: its number, counted from one, what it holds, and a byte in it. -/
structure SourceLine where
  number : Nat
  text : String
  offset : Nat
deriving DecidableEq

namespace SourceLine

/-- The number of spaces at the start of a line. Only spaces count, no other blanks. -/
def indent (l : SourceLine) : Nat := (l.text.toList.takeWhile (· = ' ')).length

def shown (l : SourceLine) : String := String.ofList (trimEnd (l.text.toList.drop l.indent))

def column (l : SourceLine) : Nat := l.offset - l.indent

end SourceLine

/-- The line of the byte `offset`, counted from the start of `line`. Bytes after the last line
stand at the end of that line, before its line feed. -/
def locateFrom (number : Nat) (line : List Char) (later : List (List Char)) (offset : Nat) :
    SourceLine :=
  if offset < utf8Length line then ⟨number, String.ofList line, offset⟩
  else match later with
    | [] => ⟨number, String.ofList line, utf8Length (dropLastIf '\n' line)⟩
    | next :: later => locateFrom (number + 1) next later (offset - utf8Length line)

def locate (text : String) (offset : Nat) : SourceLine :=
  match pieces '\n' text.toList with
  | [] => locateFrom 1 [] [] offset
  | line :: later => locateFrom 1 line later offset

end MonkeySyntax.Text
