import MonkeySyntax.Proofs.Grouped

/-! A list of tokens has one well shaped reading at most. Of two readings that start alike, one is
a left operand of the other; where both stop for good, they are the same. -/
namespace MonkeySyntax.Grouped

/-- The tree stops before `ts`: no operator that follows it takes its right operand away. -/
def StopsBefore (g : Grouped) (ts : List Token) : Prop :=
  ∀ q ∈ g.top?, ∀ t ∈ ts.head?, Grammar.standard.continuation? q t.kind = none

/-- `l` is `g`, or a left operand of its left operands. -/
inductive LeftEdge (l : Grouped) : Grouped → Prop
  | refl : LeftEdge l l
  | step {x : Grouped} (t : Token) (op : BinaryOp) (h : t.kind = op.kind) (r : Grouped) :
      LeftEdge l x → LeftEdge l (binary x t op h r)

theorem LeftEdge.sizeOf_le {l g : Grouped} (h : LeftEdge l g) : sizeOf l ≤ sizeOf g := by
  induction h with
  | refl => exact Nat.le_refl _
  | step t op h r _ ih =>
    simp only [binary.sizeOf_spec]
    omega

theorem LeftEdge.antisymm {l g : Grouped} (h : LeftEdge l g) (h' : LeftEdge g l) : l = g := by
  cases h with
  | refl => rfl
  | step t op hk r hx =>
    have h1 := hx.sizeOf_le
    have h2 := h'.sizeOf_le
    simp only [binary.sizeOf_spec] at h2
    omega

/-- Where the left edge of a tree ends, an operator follows that binds no weaker than the tree. -/
theorem LeftEdge.eq_or_operator {l g : Grouped} (h : LeftEdge l g) (hg : g.WellShaped) :
    l = g ∨ ∃ (t : Token) (op : BinaryOp) (ts : List Token) (q : Power), t.kind = op.kind ∧
      g.tokens = l.tokens ++ t :: ts ∧ g.top? = some q ∧ q ≤ op.power := by
  induction h with
  | refl => exact .inl rfl
  | @step x t op hk r _ ih =>
    obtain ⟨hx, -, hl, -⟩ := hg
    right
    rcases ih hx with rfl | ⟨u, o, us, q, hu, hts, hq, hle⟩
    · exact ⟨t, op, r.tokens, op.power, hk, rfl, rfl, Nat.le_refl _⟩
    · have hop : op.power ≤ q := hl q hq
      exact ⟨u, o, us ++ t :: r.tokens, op.power, hu, by simp [tokens, hts], rfl,
        Nat.le_trans hop hle⟩

theorem StopsBefore.of_weaker {g : Grouped} {p : Power} {ts : List Token}
    (hg : ∀ q ∈ g.top?, p ≤ q)
    (h : ∀ t ∈ ts.head?, Grammar.standard.continuation? p t.kind = none) : g.StopsBefore ts :=
  fun q hq t ht => Grammar.continuation?_eq_none_of_le (hg q hq) (h t ht)

theorem StopsBefore.of_operator {g : Grouped} {op : BinaryOp} {t : Token} {ts : List Token}
    (ht : t.kind = op.kind) (hg : ∀ q ∈ g.top?, op.power ≤ q) : g.StopsBefore (t :: ts) := by
  apply StopsBefore.of_weaker hg
  intro u hu
  obtain rfl : t = u := by simpa using hu
  rw [Grammar.standard_continuation?_eq_none_iff]
  intro o ho
  obtain rfl := BinaryOp.kind_injective (ht.symm.trans ho)
  exact Nat.lt_irrefl _

theorem stopsBefore_of_top?_eq_none {g : Grouped} (h : g.top? = none) (ts : List Token) :
    g.StopsBefore ts := by
  intro q hq
  rw [h] at hq
  cases hq

/-- A tree that stops before what follows it is no left operand in a tree that goes on there. -/
theorem LeftEdge.eq_of_stopsBefore {l g : Grouped} {p : Power} {s t : List Token}
    (h : LeftEdge l g) (hg : g.WellShaped) (hp : ∀ q ∈ g.top?, p < q)
    (hs : ∀ u ∈ s.head?, Grammar.standard.continuation? p u.kind = none)
    (hts : l.tokens ++ s = g.tokens ++ t) : l = g := by
  rcases h.eq_or_operator hg with rfl | ⟨u, op, us, q, hu, hgt, hq, hle⟩
  · rfl
  · rw [hgt, List.append_assoc] at hts
    have hsu : s = u :: us ++ t := List.append_cancel_left hts
    have hn := hs u (by simp [hsu])
    rw [Grammar.standard_continuation?_eq_none_iff] at hn
    exact absurd (Nat.lt_of_lt_of_le (hp q hq) hle) (hn op hu)

theorem LeftEdge.eq_of_top?_eq_none {l g : Grouped} (h : LeftEdge l g) (hg : g.top? = none) :
    l = g := by
  cases h with
  | refl => rfl
  | step => cases hg

/-- Of two readings that start alike, one is the left edge of the other. -/
def Comparable (g h : Grouped) : Prop :=
  ∀ s t, g.WellShaped → h.WellShaped → g.StopsBefore s → h.StopsBefore t →
    g.tokens ++ s = h.tokens ++ t → LeftEdge g h ∨ LeftEdge h g

theorem Comparable.symm {g h : Grouped} (c : Comparable g h) : Comparable h g :=
  fun s t hh hg hs ht hst => (c t s hg hh ht hs hst.symm).symm

private theorem not_ofToken?_of_operator {t : Token} {e : Expr} {op : UnaryOp}
    (h : Expr.ofToken? t = some e) (ht : t.kind = op.kind) : False := by
  cases op <;> simp [Expr.ofToken?, ht, UnaryOp.kind] at h

private theorem not_ofToken?_of_opening {t : Token} {e : Expr}
    (h : Expr.ofToken? t = some e) (ht : t.kind = .openParen) : False := by
  simp [Expr.ofToken?, ht] at h

private theorem unary_kind_ne_opening {op : UnaryOp} : op.kind ≠ .openParen := by
  cases op <;> decide

private theorem comparable_unary {x y : Grouped} {t u : Token} {o p : UnaryOp}
    (ho : t.kind = o.kind) (hp : u.kind = p.kind) (c : Comparable x y) :
    Comparable (unary t o ho x) (unary u p hp y) := by
  rintro r s ⟨hx, hxt⟩ ⟨hy, hyt⟩ - - hrs
  obtain ⟨rfl, hxy⟩ := List.cons.inj hrs
  obtain rfl := UnaryOp.kind_injective (ho.symm.trans hp)
  have he : x = y := by
    rcases c r s hx hy (stopsBefore_of_top?_eq_none hxt r) (stopsBefore_of_top?_eq_none hyt s) hxy
      with h | h
    · exact h.eq_of_top?_eq_none hyt
    · exact (h.eq_of_top?_eq_none hxt).symm
  exact .inl (he ▸ .refl)

theorem continuation?_closing {t : Token} (ht : t.kind = .closeParen) (ts : List Token)
    (p : Power) : ∀ u ∈ (t :: ts).head?, Grammar.standard.continuation? p u.kind = none := by
  intro u hu
  obtain rfl : t = u := by simpa using hu
  rw [ht]
  cases p <;> rfl

private theorem comparable_group {x y : Grouped} {o o' c c' : Token} {ho ho' hc hc'}
    (h : Comparable x y) : Comparable (group o ho x c hc) (group o' ho' y c' hc') := by
  rintro r s hx hy - - hrs
  obtain ⟨rfl, hxy⟩ := List.cons.inj hrs
  have hin : x.tokens ++ c :: r = y.tokens ++ c' :: s := by simpa using hxy
  have hxs : x.StopsBefore (c :: r) := fun q _ => continuation?_closing hc r q
  have hys : y.StopsBefore (c' :: s) := fun q _ => continuation?_closing hc' s q
  have he : x = y := by
    rcases h _ _ hx hy hxs hys hin with h | h
    · exact h.eq_of_stopsBefore hy (lowest_lt_top y) (continuation?_closing hc r _) hin
    · exact (h.eq_of_stopsBefore hx (lowest_lt_top x) (continuation?_closing hc' s _) hin.symm).symm
  subst he
  obtain ⟨rfl, -⟩ := List.cons.inj (List.append_cancel_left hin)
  exact .inl .refl

private theorem comparable_binary_left {l r h : Grouped} {t : Token} {op : BinaryOp}
    (ht : t.kind = op.kind) (hh : h.top? = none) (c : Comparable l h) :
    Comparable (binary l t op ht r) h := by
  rintro s u ⟨hl, -, hlt, -⟩ hw - hu hs
  have hls : l.tokens ++ t :: (r.tokens ++ s) = h.tokens ++ u := by simpa [tokens] using hs
  right
  rcases c _ _ hl hw (.of_operator ht hlt) hu hls with hc | hc
  · exact hc.eq_of_top?_eq_none hh ▸ .step t op ht r .refl
  · exact .step t op ht r hc

/-- Two operations that start alike, each with its left operand on the edge of the other. -/
private theorem eq_or_leftEdge_of_leftEdge {l l' r r' : Grouped} {t t' : Token} {op op' : BinaryOp}
    {ht : t.kind = op.kind} {ht' : t'.kind = op'.kind} {s u : List Token}
    (h1 : LeftEdge l (binary l' t' op' ht' r')) (h2 : LeftEdge l' (binary l t op ht r))
    (heq : l = l' → t :: (r.tokens ++ s) = t' :: (r'.tokens ++ u) → r = r')
    (hsu : (binary l t op ht r).tokens ++ s = (binary l' t' op' ht' r').tokens ++ u) :
    LeftEdge (binary l t op ht r) (binary l' t' op' ht' r') ∨
      LeftEdge (binary l' t' op' ht' r') (binary l t op ht r) := by
  cases h1 with
  | refl => exact .inr (.step t op ht r .refl)
  | step _ _ _ _ h1 =>
    cases h2 with
    | refl => exact .inl (.step t' op' ht' r' .refl)
    | step _ _ _ _ h2 =>
      obtain rfl := h1.antisymm h2
      have htail : t :: (r.tokens ++ s) = t' :: (r'.tokens ++ u) := by simpa [tokens] using hsu
      obtain rfl := heq rfl htail
      obtain ⟨rfl, -⟩ := List.cons.inj htail
      obtain rfl := BinaryOp.kind_injective (ht.symm.trans ht')
      exact .inl .refl

private theorem comparable_binary {l l' r r' : Grouped} {t t' : Token} {op op' : BinaryOp}
    {ht : t.kind = op.kind} {ht' : t'.kind = op'.kind}
    (hl : Comparable l (binary l' t' op' ht' r')) (hl' : Comparable (binary l t op ht r) l')
    (hr : Comparable r r') : Comparable (binary l t op ht r) (binary l' t' op' ht' r') := by
  intro s u hg hh hgs hhu hsu
  obtain ⟨hwl, hwr, hlt, hrt⟩ := id hg
  obtain ⟨hwl', hwr', hlt', hrt'⟩ := id hh
  have hright : l = l' → t :: (r.tokens ++ s) = t' :: (r'.tokens ++ u) → r = r' := by
    intro _ htail
    obtain ⟨rfl, hrs⟩ := List.cons.inj htail
    obtain rfl := BinaryOp.kind_injective (ht.symm.trans ht')
    have hs := hgs op.power rfl
    have hu := hhu op.power rfl
    have hstop : r.StopsBefore s := .of_weaker (fun q hq => Nat.le_of_lt (hrt q hq)) hs
    have hstop' : r'.StopsBefore u := .of_weaker (fun q hq => Nat.le_of_lt (hrt' q hq)) hu
    rcases hr _ _ hwr hwr' hstop hstop' hrs with h | h
    · exact h.eq_of_stopsBefore hwr' hrt' hs hrs
    · exact (h.eq_of_stopsBefore hwr hrt hu hrs.symm).symm
  have h1 := hl (t :: (r.tokens ++ s)) u hwl hh (.of_operator ht hlt) hhu
    (by simpa [tokens] using hsu)
  have h2 := hl' s (t' :: (r'.tokens ++ u)) hg hwl' hgs (.of_operator ht' hlt')
    (by simpa [tokens] using hsu)
  rcases h1 with h1 | h1
  · rcases h2 with h2 | h2
    · exact .inl (.step t' op' ht' r' h2)
    · exact eq_or_leftEdge_of_leftEdge h1 h2 hright hsu
  · exact .inr (.step t op ht r h1)

private theorem comparable_of_head {g h : Grouped} {t u : Token} (ht : g.tokens.head? = some t)
    (hu : h.tokens.head? = some u) (hne : t ≠ u) : Comparable g h := by
  intro r s _ _ _ _ hrs
  have hr : (g.tokens ++ r).head? = some t := by simp [ht]
  have hs : (h.tokens ++ s).head? = some u := by simp [hu]
  rw [hrs, hs] at hr
  exact absurd (Option.some.inj hr).symm hne

theorem comparable (g h : Grouped) : Comparable g h := by
  match g, h with
  | binary l t op ht r, binary l' t' op' ht' r' =>
    exact comparable_binary (comparable l _) (comparable _ l') (comparable r r')
  | binary l t op ht r, atom u e hu => exact comparable_binary_left ht rfl (comparable l _)
  | binary l t op ht r, unary u o hu x => exact comparable_binary_left ht rfl (comparable l _)
  | binary l t op ht r, group o ho x c hc => exact comparable_binary_left ht rfl (comparable l _)
  | atom u e hu, binary l t op ht r => exact (comparable_binary_left ht rfl (comparable l _)).symm
  | unary u o hu x, binary l t op ht r =>
    exact (comparable_binary_left ht rfl (comparable l _)).symm
  | group o ho x c hc, binary l t op ht r =>
    exact (comparable_binary_left ht rfl (comparable l _)).symm
  | unary t o ho x, unary u p hp y => exact comparable_unary ho hp (comparable x y)
  | group o ho x c hc, group o' ho' y c' hc' => exact comparable_group (comparable x y)
  | atom t e ht, atom u f hu =>
    intro r s _ _ _ _ hrs
    obtain ⟨rfl, -⟩ := List.cons.inj hrs
    obtain rfl : e = f := Option.some.inj (ht.symm.trans hu)
    exact .inl .refl
  -- the kind of the first token tells the other shapes apart
  | atom t e ht, unary u o ho x =>
    exact comparable_of_head rfl rfl fun h => not_ofToken?_of_operator ht (h ▸ ho)
  | atom t e ht, group o ho x c hc =>
    exact comparable_of_head rfl rfl fun h => not_ofToken?_of_opening ht (h ▸ ho)
  | unary u o ho x, atom t e ht =>
    exact comparable_of_head rfl rfl fun h => not_ofToken?_of_operator ht (h ▸ ho)
  | group o ho x c hc, atom t e ht =>
    exact comparable_of_head rfl rfl fun h => not_ofToken?_of_opening ht (h ▸ ho)
  | unary u o ho x, group p hp y c hc =>
    exact comparable_of_head rfl rfl fun h => unary_kind_ne_opening (ho.symm.trans (h ▸ hp))
  | group p hp y c hc, unary u o ho x =>
    exact comparable_of_head rfl rfl fun h => unary_kind_ne_opening (ho.symm.trans (h ▸ hp))
termination_by sizeOf g + sizeOf h

/-- A list of tokens has one well shaped reading at most. -/
theorem tokens_injective {g h : Grouped} (hg : g.WellShaped) (hh : h.WellShaped)
    (ht : g.tokens = h.tokens) : g = h := by
  have stop : ∀ x : Grouped, x.StopsBefore [] := by
    intro x q _ t ht
    cases ht
  have hnil : g.tokens ++ [] = h.tokens ++ [] := by rw [ht]
  rcases comparable g h [] [] hg hh (stop g) (stop h) hnil with he | he
  · exact he.eq_of_stopsBefore hh (lowest_lt_top h) (by simp) hnil
  · exact (he.eq_of_stopsBefore hg (lowest_lt_top g) (by simp) hnil.symm).symm

end MonkeySyntax.Grouped
