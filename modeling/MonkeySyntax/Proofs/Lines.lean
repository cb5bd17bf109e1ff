import MonkeySyntax.Text

/-! Lines of characters and lines of bytes. What ends a line of a text is a byte by itself in UTF-8,
so the lines of a text and the lines of its bytes are the same. -/
namespace MonkeySyntax.Text

section Lines

variable {α : Type} [DecidableEq α] {stop mark : α} {as line rest : List α} {lines : List (List α)}

/-- The lines of a list, without the `stop` that ends a line and without a `mark` right before that
`stop`. Behind the last `stop` there is one more line if anything is left. -/
inductive Lines (stop mark : α) : List α → List (List α) → Prop
  | nil : Lines stop mark [] []
  | last {line : List α} : line ≠ [] → stop ∉ line → Lines stop mark line [line]
  | cons {line rest : List α} {lines : List (List α)} : stop ∉ line → Lines stop mark rest lines →
      Lines stop mark (line ++ stop :: rest) (dropLastIf mark line :: lines)

def ofPiece (stop mark : α) (piece : List α) : List α :=
  if piece.getLast? = some stop then dropLastIf mark piece.dropLast else piece

theorem pieces_of_not_mem (h : stop ∉ line) (hne : line ≠ []) : pieces stop line = [line] := by
  induction line with
  | nil => exact absurd rfl hne
  | cons a line ih =>
    obtain ⟨ha, hline⟩ := List.ne_and_not_mem_of_not_mem_cons h
    rw [pieces, if_neg (Ne.symm ha)]
    by_cases hnil : line = []
    · rw [hnil, pieces]
    · rw [ih hline hnil]

theorem pieces_append_cons (h : stop ∉ line) :
    pieces stop (line ++ stop :: rest) = (line ++ [stop]) :: pieces stop rest := by
  induction line with
  | nil => rw [List.nil_append, pieces, if_pos rfl, List.nil_append]
  | cons a line ih =>
    obtain ⟨ha, hline⟩ := List.ne_and_not_mem_of_not_mem_cons h
    rw [List.cons_append, pieces, if_neg (Ne.symm ha), ih hline, List.cons_append]

theorem ofPiece_of_not_mem (h : stop ∉ line) : ofPiece stop mark line = line :=
  if_neg fun hlast => h (List.mem_of_getLast? hlast)

theorem ofPiece_concat : ofPiece stop mark (line ++ [stop]) = dropLastIf mark line := by
  rw [ofPiece, if_pos List.getLast?_concat, List.dropLast_concat]

theorem exists_lines (stop mark : α) (as : List α) : ∃ lines, Lines stop mark as lines := by
  induction hn : as.length using Nat.strongRecOn generalizing as with
  | _ n ih =>
    by_cases h : stop ∈ as
    · obtain ⟨line, rest, rfl, hline⟩ := List.eq_append_cons_of_mem h
      obtain ⟨lines, hlines⟩ := ih rest.length (by simp [← hn]; omega) rest rfl
      exact ⟨_, .cons hline hlines⟩
    · by_cases hnil : as = []
      · exact ⟨[], hnil ▸ .nil⟩
      · exact ⟨[as], .last hnil h⟩

theorem Lines.eq_map_pieces (h : Lines stop mark as lines) :
    lines = (pieces stop as).map (ofPiece stop mark) := by
  induction h with
  | nil => rfl
  | last hne h => rw [pieces_of_not_mem h hne, List.map_singleton, ofPiece_of_not_mem h]
  | cons h _ ih => rw [pieces_append_cons h, List.map_cons, ofPiece_concat, ih]

/-- The lines of a list are what its pieces show. -/
theorem lines_iff :
    Lines stop mark as lines ↔ lines = (pieces stop as).map (ofPiece stop mark) := by
  constructor
  · exact Lines.eq_map_pieces
  · rintro rfl
    obtain ⟨lines, h⟩ := exists_lines stop mark as
    exact h.eq_map_pieces ▸ h

end Lines

/-- The bytes of characters in UTF-8. -/
def utf8 (cs : List Char) : List UInt8 := cs.flatMap String.utf8EncodeChar

/-- The character takes one byte, which is part of no other character. -/
structure IsSingleByte (c : Char) (b : UInt8) : Prop where
  encode : String.utf8EncodeChar c = [b]
  eq_of_mem : ∀ {d : Char}, b ∈ String.utf8EncodeChar d → d = c

section Bytes

variable {c d : Char} {b : UInt8} {cs ds : List Char}

theorem utf8_append (cs ds : List Char) : utf8 (cs ++ ds) = utf8 cs ++ utf8 ds :=
  List.flatMap_append

theorem utf8_cons (c : Char) (cs : List Char) :
    utf8 (c :: cs) = String.utf8EncodeChar c ++ utf8 cs := rfl

theorem utf8_singleton (c : Char) : utf8 [c] = String.utf8EncodeChar c := List.append_nil _

/-- Bytes of ASCII are no part of longer characters. -/
theorem toNat_eq_of_mem_utf8EncodeChar (h : b ∈ String.utf8EncodeChar c) (hb : b.toNat < 128) :
    c.toNat = b.toNat := by
  have hbyte : ∀ {m n : Nat}, b = UInt8.ofNat m → m = n → n < 256 → b.toNat = n := by
    rintro m n rfl rfl hn
    rw [UInt8.toNat_ofNat', Nat.mod_eq_of_lt hn]
  have hc : c.toNat = c.val.toNat := rfl
  have hmax : c.val.toNat < 1114112 := by
    have := c.valid
    unfold UInt32.isValidChar Nat.isValidChar at this
    omega
  simp only [String.utf8EncodeChar] at h
  split at h
  · have := hbyte (List.mem_singleton.mp h) rfl (by omega)
    omega
  split at h
  · simp only [List.mem_cons, List.not_mem_nil, or_false] at h
    rcases h with h | h
    all_goals
      have := hbyte h rfl (by omega)
      omega
  split at h
  · simp only [List.mem_cons, List.not_mem_nil, or_false] at h
    rcases h with h | h | h
    all_goals
      have := hbyte h rfl (by omega)
      omega
  · simp only [List.mem_cons, List.not_mem_nil, or_false] at h
    rcases h with h | h | h | h
    all_goals
      have := hbyte h rfl (by omega)
      omega

theorem isSingleByte_of_encode (h : String.utf8EncodeChar c = [b]) (hb : b.toNat < 128) :
    IsSingleByte c b := by
  have hc : c.toNat = b.toNat := toNat_eq_of_mem_utf8EncodeChar (by simp [h]) hb
  refine ⟨h, fun hd => Char.toNat_inj.mp ?_⟩
  rw [toNat_eq_of_mem_utf8EncodeChar hd hb, hc]

theorem isSingleByte_lineFeed : IsSingleByte '\n' 10 := isSingleByte_of_encode rfl (by decide)

theorem isSingleByte_carriageReturn : IsSingleByte '\r' 13 :=
  isSingleByte_of_encode rfl (by decide)

theorem utf8_eq_nil_iff : utf8 cs = [] ↔ cs = [] := by
  cases cs with
  | nil => simp [utf8]
  | cons c cs => simp [utf8_cons, String.utf8EncodeChar_ne_nil]

namespace IsSingleByte

theorem mem_utf8_iff (h : IsSingleByte c b) : b ∈ utf8 cs ↔ c ∈ cs := by
  rw [utf8, List.mem_flatMap]
  constructor
  · rintro ⟨d, hd, hb⟩
    exact h.eq_of_mem hb ▸ hd
  · intro hc
    exact ⟨c, hc, by rw [h.encode]; exact List.mem_singleton_self b⟩

theorem getLast?_utf8_iff (h : IsSingleByte c b) :
    (utf8 cs).getLast? = some b ↔ cs.getLast? = some c := by
  rcases List.eq_nil_or_concat cs with rfl | ⟨cs, d, rfl⟩
  · simp [utf8]
  · have hlast : (utf8 cs ++ String.utf8EncodeChar d).getLast? =
        (String.utf8EncodeChar d).getLast? := by
      rw [List.getLast?_append, List.getLast?_eq_some_getLast String.utf8EncodeChar_ne_nil,
        Option.some_or]
    rw [List.concat_eq_append, utf8_append, utf8_singleton, hlast, List.getLast?_concat,
      Option.some.injEq]
    constructor
    · intro hb
      exact h.eq_of_mem (List.mem_of_getLast? hb)
    · rintro rfl
      rw [h.encode]
      rfl

theorem dropLastIf_utf8 (h : IsSingleByte c b) :
    dropLastIf b (utf8 cs) = utf8 (dropLastIf c cs) := by
  unfold dropLastIf
  by_cases hc : cs.getLast? = some c
  · obtain ⟨cs, rfl⟩ := List.getLast?_eq_some_iff.mp hc
    have hlast : utf8 (cs ++ [c]) = utf8 cs ++ [b] := by
      rw [utf8_append, utf8_singleton, h.encode]
    rw [if_pos hc, if_pos (h.getLast?_utf8_iff.mpr hc), hlast, List.dropLast_concat,
      List.dropLast_concat]
  · rw [if_neg hc, if_neg (mt h.getLast?_utf8_iff.mp hc)]

end IsSingleByte

/-- The lines of a text, as bytes, are the lines of its bytes. -/
theorem Lines.utf8 {lines : List (List Char)} (h : Lines '\n' '\r' cs lines) :
    Lines 10 13 (utf8 cs) (lines.map utf8) := by
  induction h with
  | nil => exact .nil
  | last hne h =>
    exact .last (mt utf8_eq_nil_iff.mp hne) (mt isSingleByte_lineFeed.mem_utf8_iff.mp h)
  | cons h _ ih =>
    rw [utf8_append, utf8_cons, isSingleByte_lineFeed.encode, List.map_cons,
      ← isSingleByte_carriageReturn.dropLastIf_utf8]
    exact .cons (mt isSingleByte_lineFeed.mem_utf8_iff.mp h) ih

def bytesOf (text : String) : List UInt8 := text.toUTF8.data.toList

theorem bytesOf_eq (text : String) : bytesOf text = utf8 text.toList := by
  rw [bytesOf, String.toUTF8_eq_toByteArray, ← String.utf8Encode_toList, List.utf8Encode,
    List.toList_data_toByteArray, utf8]

theorem bytesOf_ofList (cs : List Char) : bytesOf (String.ofList cs) = utf8 cs := by
  rw [bytesOf_eq, String.toList_ofList]

/-- Bytes that are a text are the bytes of that text only. -/
theorem fromUTF8?_eq_some_iff {bytes : List UInt8} {text : String} :
    String.fromUTF8? ⟨bytes.toArray⟩ = some text ↔ bytes = bytesOf text := by
  unfold String.fromUTF8?
  constructor
  · intro h
    split at h
    · obtain rfl := Option.some.inj h
      rfl
    · cases h
  · rintro rfl
    exact dif_pos text.isValidUTF8

theorem exists_lines_bytesOf (text : String) :
    ∃ texts : List String, Lines '\n' '\r' text.toList (texts.map String.toList) ∧
      Lines 10 13 (bytesOf text) (texts.map bytesOf) := by
  obtain ⟨lines, h⟩ := exists_lines '\n' '\r' text.toList
  have hchars : (lines.map String.ofList).map String.toList = lines := by
    rw [List.map_map]
    exact (List.map_congr_left fun _ _ => String.toList_ofList).trans (List.map_id lines)
  have hbytes : (lines.map String.ofList).map bytesOf = lines.map utf8 := by
    rw [List.map_map]
    exact List.map_congr_left fun cs _ => bytesOf_ofList cs
  refine ⟨lines.map String.ofList, ?_, ?_⟩
  · rw [hchars]
    exact h
  · rw [hbytes, bytesOf_eq]
    exact h.utf8

end Bytes
end MonkeySyntax.Text
