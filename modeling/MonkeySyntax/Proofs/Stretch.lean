import Mathlib.Data.List.Iterate
import Mathlib.Logic.Function.Iterate
import MonkeySyntax.Parse.Step

/-! Tokens that are pulled one after the other, and stretches of them: those that a window passes on
its way to a later one, and those that are still ahead of it. -/
namespace MonkeySyntax

open TokenSource (next)

/-- A way to pull tokens from a source. -/
abbrev Pull (σ : Type) := σ → Token × σ

namespace Pull

variable {σ : Type} (pull : Pull σ)

def after (n : Nat) (s : σ) : σ := (fun s => (pull s).2)^[n] s

/-- Token number `n` of a source, counted from zero. -/
def nth (n : Nat) (s : σ) : Token := (pull (pull.after n s)).1

theorem after_succ (n : Nat) (s : σ) : pull.after (n + 1) s = (pull (pull.after n s)).2 :=
  Function.iterate_succ_apply' _ n s

end Pull

namespace Window

variable {σ : Type} [TokenSource σ]

/-- The window `n` tokens further on. -/
def after (n : Nat) (w : Window σ) : Window σ := advance^[n] w

/-- Token number `n` of those ahead, counted from the current one. -/
def nth (n : Nat) (w : Window σ) : Token := (w.after n).current

/-- The next `n` tokens, the current one first. -/
def take : Nat → Window σ → List Token
  | 0, _ => []
  | n + 1, w => w.current :: take n w.advance

/-- The tokens from the current one of `w` to the current one of `v`, both included, are `ts`. -/
def Covers (w : Window σ) (ts : List Token) (v : Window σ) : Prop :=
  ∃ n, v = w.after n ∧ ts = w.take (n + 1)

/-- The tokens ahead are `ts` and then `e` for ever. -/
def Shows (w : Window σ) (ts : List Token) (e : Token) : Prop :=
  ∀ n, w.nth n = ts.getD n e

theorem after_succ (n : Nat) (w : Window σ) : w.after (n + 1) = (w.after n).advance :=
  Function.iterate_succ_apply' advance n w

theorem after_add (m n : Nat) (w : Window σ) : w.after (m + n) = (w.after m).after n := by
  rw [Nat.add_comm]
  exact Function.iterate_add_apply advance n m w

theorem pulled_after (n : Nat) (w : Window σ) : (w.after n).pulled = w.pulled + n := by
  induction n with
  | zero => rfl
  | succ n ih => rw [after_succ, pulled_advance, ih, Nat.add_assoc]

theorem Reaches.exists_after {w v : Window σ} (h : w.Reaches v) : ∃ n, w.after n = v := by
  induction h with
  | refl => exact ⟨0, rfl⟩
  | next _ ih =>
    obtain ⟨n, rfl⟩ := ih
    exact ⟨n + 1, after_succ n _⟩

theorem take_eq_map_iterate (n : Nat) (w : Window σ) :
    w.take n = (List.iterate advance w n).map current := by
  induction n generalizing w with
  | zero => rfl
  | succ n ih =>
    rw [take, ih]
    rfl

@[simp] theorem length_take (n : Nat) (w : Window σ) : (w.take n).length = n := by
  rw [take_eq_map_iterate, List.length_map, List.length_iterate]

theorem take_eq_map (n : Nat) (w : Window σ) : w.take n = (List.range n).map w.nth := by
  rw [take_eq_map_iterate, ← List.range_map_iterate, List.map_map]
  rfl

theorem take_add (m n : Nat) (w : Window σ) : w.take (m + n) = w.take m ++ (w.after m).take n := by
  simp only [take_eq_map_iterate, List.iterate_add, List.map_append]
  rfl

theorem take_succ_eq_append (n : Nat) (w : Window σ) : w.take (n + 1) = w.take n ++ [w.nth n] := by
  rw [take_add]
  rfl

theorem nth_succ (n : Nat) (w : Window σ) : w.nth (n + 1) = w.advance.nth n := rfl

theorem nth_after (m n : Nat) (w : Window σ) : (w.after m).nth n = w.nth (m + n) := by
  unfold nth
  rw [after_add]

/-- How far a window was moved can be told from its count of pulls. -/
theorem after_injective {m n : Nat} {w : Window σ} (h : w.after m = w.after n) : m = n := by
  have hp := congrArg pulled h
  rw [pulled_after, pulled_after] at hp
  omega

theorem covers_current (w : Window σ) : w.Covers [w.current] w := ⟨0, rfl, rfl⟩

namespace Covers

variable {w v x : Window σ} {ts us : List Token} {t : Token}

theorem append (h : w.Covers ts v) (h' : v.advance.Covers us x) : w.Covers (ts ++ us) x := by
  obtain ⟨m, rfl, rfl⟩ := h
  obtain ⟨n, rfl, rfl⟩ := h'
  refine ⟨m + 1 + n, ?_, ?_⟩
  · rw [after_add (m + 1) n, after_succ]
  · rw [Nat.add_assoc (m + 1) n 1, take_add (m + 1) (n + 1), after_succ]

theorem cons (h : w.advance.Covers ts v) : w.Covers (w.current :: ts) v :=
  (covers_current w).append h

theorem snoc (h : w.Covers ts v) : w.Covers (ts ++ [v.peek]) v.advance :=
  h.append (covers_current v.advance)

theorem ne_nil (h : w.Covers ts v) : ts ≠ [] := by
  obtain ⟨n, -, rfl⟩ := h
  simp [take]

theorem current_eq (h : w.Covers (t :: ts) v) : w.current = t := by
  obtain ⟨n, -, h⟩ := h
  exact (List.cons.inj h).1.symm

theorem tokens_eq (h : w.Covers ts v) (h' : w.Covers us v) : ts = us := by
  obtain ⟨m, hm, rfl⟩ := h
  obtain ⟨n, hn, rfl⟩ := h'
  rw [after_injective (hm.symm.trans hn)]

theorem window_eq (h : w.Covers ts v) (h' : w.Covers ts x) : v = x := by
  obtain ⟨m, rfl, hm⟩ := h
  obtain ⟨n, rfl, hn⟩ := h'
  have hl := congrArg List.length (hm.symm.trans hn)
  simp only [length_take, Nat.add_right_cancel_iff] at hl
  rw [hl]

theorem split (h : w.Covers (ts ++ us) x) (ht : ts ≠ []) (hu : us ≠ []) :
    ∃ v, w.Covers ts v ∧ v.advance.Covers us x := by
  obtain ⟨n, rfl, hn⟩ := h
  obtain ⟨m, hm⟩ := Nat.exists_eq_succ_of_ne_zero (mt List.length_eq_zero_iff.mp ht)
  obtain ⟨k, hk⟩ := Nat.exists_eq_succ_of_ne_zero (mt List.length_eq_zero_iff.mp hu)
  have hl := congrArg List.length hn
  simp only [List.length_append, length_take, hm, hk] at hl
  have hsum : n = m + 1 + k := by omega
  subst hsum
  rw [Nat.add_assoc (m + 1) k 1, take_add (m + 1) (k + 1), after_succ] at hn
  obtain ⟨h1, h2⟩ := List.append_inj hn (by simp [hm])
  refine ⟨w.after m, ⟨m, rfl, h1⟩, k, ?_, h2⟩
  rw [after_add (m + 1) k, after_succ]

theorem eq_of_singleton (h : w.Covers [t] v) : w.current = t ∧ v = w :=
  ⟨h.current_eq, (h.current_eq ▸ h).window_eq (covers_current w)⟩

theorem tail (h : w.Covers (t :: ts) v) (ht : ts ≠ []) : w.advance.Covers ts v := by
  have hs : w.Covers ([t] ++ ts) v := h
  obtain ⟨x, hx, hv⟩ := hs.split (by simp) ht
  obtain ⟨-, rfl⟩ := hx.eq_of_singleton
  exact hv

theorem init (h : w.Covers (ts ++ [t]) v) (ht : ts ≠ []) :
    ∃ u, w.Covers ts u ∧ u.peek = t ∧ v = u.advance := by
  obtain ⟨u, hu, hv⟩ := h.split ht (by simp)
  exact ⟨u, hu, hv.eq_of_singleton⟩

theorem mem_current (h : w.Covers ts v) : v.current ∈ ts := by
  obtain ⟨n, rfl, rfl⟩ := h
  rw [take_add]
  simp [take]

end Covers

namespace Shows

variable {w v : Window σ} {ts us : List Token} {t e : Token}

theorem current_eq (h : w.Shows ts e) : w.current = ts.getD 0 e := h 0

theorem advance (h : w.Shows ts e) : w.advance.Shows ts.tail e := by
  intro n
  rw [← nth_succ, h (n + 1)]
  cases ts <;> simp

theorem after (h : w.Shows ts e) (n : Nat) : (w.after n).Shows (ts.drop n) e := by
  intro i
  rw [nth_after, h (n + i)]
  simp [List.getD_eq_getElem?_getD]

theorem covers (h : w.Shows (ts ++ us) e) (ht : ts ≠ []) :
    ∃ v, w.Covers ts v ∧ v.advance.Shows us e := by
  induction ts generalizing w with
  | nil => exact absurd rfl ht
  | cons t ts ih =>
    have hc : w.current = t := by simpa using h.current_eq
    have ha : w.advance.Shows (ts ++ us) e := by simpa using h.advance
    rcases List.eq_nil_or_concat ts with rfl | ⟨_, _, rfl⟩
    · exact ⟨w, hc ▸ covers_current w, ha⟩
    · obtain ⟨v, hv, hs⟩ := ih ha (by simp)
      exact ⟨v, hc ▸ hv.cons, hs⟩

/-- A stretch without an end token lies within the tokens before the end. -/
theorem exists_eq_append (h : w.Shows ts e) (he : e.kind = .eof) (hc : w.Covers us v)
    (hu : ∀ u ∈ us, u.kind ≠ .eof) : ∃ rest, ts = us ++ rest ∧ v.advance.Shows rest e := by
  induction us generalizing w ts with
  | nil => exact absurd rfl hc.ne_nil
  | cons u us ih =>
    have hcur : u = ts.getD 0 e := hc.current_eq ▸ h.current_eq
    cases ts with
    | nil =>
      have : u.kind = .eof := by simpa [hcur] using he
      exact absurd this (hu u (by simp))
    | cons t ts =>
      obtain rfl : u = t := by simpa using hcur
      have ha : w.advance.Shows ts e := h.advance
      rcases List.eq_nil_or_concat us with rfl | ⟨_, _, rfl⟩
      · obtain ⟨-, rfl⟩ := hc.eq_of_singleton
        exact ⟨ts, rfl, ha⟩
      · obtain ⟨rest, rfl, hs⟩ := ih ha (hc.tail (by simp)) fun x hx => hu x (.tail _ hx)
        exact ⟨rest, rfl, hs⟩

/-- The end tokens start behind the tokens that are no end tokens. -/
theorem kind_nth_eq_eof_iff (h : w.Shows ts e) (he : e.kind = .eof)
    (hts : ∀ t ∈ ts, t.kind ≠ .eof) {n : Nat} : (w.nth n).kind = .eof ↔ ts.length ≤ n := by
  rw [h n, List.getD_eq_getElem?_getD]
  constructor
  · intro hk
    apply Nat.not_lt.mp
    intro hlt
    rw [List.getElem?_eq_getElem hlt] at hk
    exact hts _ (List.getElem_mem hlt) hk
  · intro hle
    rw [List.getElem?_eq_none hle]
    exact he

end Shows

/-- The tokens ahead start with `ts`. -/
def Starts (w : Window σ) (ts : List Token) : Prop := w.take ts.length = ts

section Starts

variable {w v : Window σ} {ts us : List Token} {t e : Token}

theorem starts_nil (w : Window σ) : w.Starts [] := rfl

theorem starts_cons_iff : w.Starts (t :: ts) ↔ w.current = t ∧ w.advance.Starts ts := by
  unfold Starts
  rw [List.length_cons, take, List.cons.injEq]

theorem starts_append_iff : w.Starts (ts ++ us) ↔ w.Starts ts ∧ (w.after ts.length).Starts us := by
  unfold Starts
  rw [List.length_append, take_add]
  constructor
  · intro h
    exact List.append_inj h (length_take _ _)
  · rintro ⟨ht, hu⟩
    rw [ht, hu]

theorem Starts.of_append (h : w.Starts (ts ++ us)) : w.Starts ts := (starts_append_iff.mp h).1

theorem Covers.starts (h : w.Covers ts v) : w.Starts ts := by
  obtain ⟨n, -, rfl⟩ := h
  rw [Starts, length_take]

theorem Covers.after_length (h : w.Covers ts v) : w.after ts.length = v.advance := by
  obtain ⟨n, rfl, rfl⟩ := h
  rw [length_take, after_succ]

theorem Starts.nth_mem (h : w.Starts ts) {i : Nat} (hi : i < ts.length) : w.nth i ∈ ts := by
  have hmem : w.nth i ∈ w.take ts.length := by
    rw [take_eq_map]
    exact List.mem_map_of_mem (List.mem_range.mpr hi)
  rw [h] at hmem
  exact hmem

theorem Starts.covers (h : w.Starts ts) (ht : ts ≠ []) : ∃ v, w.Covers ts v := by
  obtain ⟨n, hn⟩ := Nat.exists_eq_succ_of_ne_zero (mt List.length_eq_zero_iff.mp ht)
  exact ⟨w.after n, n, rfl, by rw [← Nat.succ_eq_add_one, ← hn, h]⟩

theorem Shows.starts (h : w.Shows (ts ++ us) e) : w.Starts ts := by
  induction ts generalizing w with
  | nil => exact starts_nil w
  | cons t ts ih => exact starts_cons_iff.mpr ⟨by simpa using h.current_eq, ih h.advance⟩

theorem Shows.take_eq (h : w.Shows ts e) {n : Nat} (hn : n ≤ ts.length) :
    w.take n = ts.take n := by
  have hs : w.Shows (ts.take n ++ ts.drop n) e := (List.take_append_drop n ts).symm ▸ h
  have hst : w.take (ts.take n).length = ts.take n := hs.starts
  rwa [List.length_take_of_le hn] at hst

end Starts
end Window

namespace TokenSource

variable {σ : Type} [TokenSource σ]

def nth (n : Nat) (s : σ) : Token := Pull.nth next n s

def Gives (s : σ) (ts : List Token) (e : Token) : Prop := ∀ n, nth n s = ts.getD n e

theorem nth_succ (n : Nat) (s : σ) : nth (n + 1) s = nth n (next s).2 := rfl

theorem horizon_after (n : Nat) (s : σ) : horizon (Pull.after next n s) ≤ horizon s - n := by
  induction n with
  | zero => exact Nat.le_refl _
  | succ n ih =>
    have := horizon_next (Pull.after next n s)
    rw [Pull.after_succ]
    omega

/-- From its horizon on, a source gives end tokens. -/
theorem kind_nth_of_horizon_le {n : Nat} {s : σ} (h : horizon s ≤ n) : (nth n s).kind = .eof := by
  apply kind_next
  have := horizon_after n s
  omega

theorem nth_ofSource (n : Nat) (s : σ) : (Window.ofSource s).nth n = nth n s := by
  have h : ∀ m (w : Window σ), w.nth (m + 2) = nth m w.source := by
    intro m
    induction m with
    | zero => intro w; rfl
    | succ m ih => intro w; exact ih w.advance
  match n with
  | 0 => rfl
  | 1 => rfl
  | n + 2 => exact h n (Window.ofSource s)

theorem take_eq_map (n : Nat) (s : σ) : take n s = (List.range n).map fun i => nth i s := by
  induction n generalizing s with
  | zero => rfl
  | succ n ih =>
    rw [take, ih, List.range_succ_eq_map, List.map_cons, List.map_map]
    rfl

theorem take_ofSource (n : Nat) (s : σ) : (Window.ofSource s).take n = take n s := by
  rw [Window.take_eq_map, take_eq_map]
  exact List.map_congr_left fun i _ => nth_ofSource i s

theorem Gives.shows {s : σ} {ts : List Token} {e : Token} (h : Gives s ts e) :
    (Window.ofSource s).Shows ts e := by
  intro n
  rw [nth_ofSource, h n]

theorem gives_cons {s s' : σ} {ts : List Token} {t e : Token} (ht : next s = (t, s'))
    (h : Gives s' ts e) : Gives s (t :: ts) e := by
  intro n
  cases n with
  | zero => exact congrArg Prod.fst ht
  | succ n => simpa [nth_succ, ht] using h n

/-- What a source gives depends on its next pull only. -/
theorem gives_of_next_eq {s s' : σ} {ts : List Token} {e : Token} (hn : next s = next s')
    (h : Gives s' ts e) : Gives s ts e := by
  intro n
  rw [← h n]
  cases n with
  | zero => exact congrArg Prod.fst hn
  | succ n => rw [nth_succ, nth_succ, hn]

/-- A source that repeats its first token gives nothing else. -/
theorem gives_nil {s : σ} {e : Token} (h : next s = (e, s)) : Gives s [] e := by
  intro n
  induction n with
  | zero => exact congrArg Prod.fst h
  | succ n ih => simpa [nth_succ, h] using ih

theorem Gives.toList_eq {s : σ} {ts : List Token} {e : Token} (h : Gives s ts e)
    (hts : ∀ t ∈ ts, t.kind ≠ .eof) (he : e.kind = .eof) : toList s = ts ++ [e] := by
  induction ts generalizing s with
  | nil =>
    have hn : (next s).1 = e := h 0
    rw [toList, hn, if_pos he, List.nil_append]
  | cons t ts ih =>
    have hn : (next s).1 = t := h 0
    have hrest : Gives (next s).2 ts e := fun n => h (n + 1)
    rw [toList, hn, if_neg (hts t List.mem_cons_self),
      ih hrest fun u hu => hts u (List.mem_cons_of_mem t hu), List.cons_append]

/-- A list is replayed up to its first end token, which is then repeated, or else to its end. -/
theorem gives_ofList (ts : List Token) :
    Gives (Replay.ofList ts) (ts.takeWhile fun t => t.kind ≠ .eof)
      ((ts.find? fun t => t.kind = .eof).getD (Replay.endOf ts)) := by
  have h : ∀ (last : Token) (hl : last.kind = .eof),
      Gives (⟨ts, last, hl⟩ : Replay) (ts.takeWhile fun t => t.kind ≠ .eof)
        ((ts.find? fun t => t.kind = .eof).getD last) := by
    intro last hl
    induction ts with
    | nil => exact gives_nil rfl
    | cons t ts ih =>
      by_cases ht : t.kind = .eof
      · have hn : next (⟨t :: ts, last, hl⟩ : Replay) = next (⟨[], t, ht⟩ : Replay) := by
          simp [next, Replay.next, ht]
        simpa [ht] using gives_of_next_eq hn (gives_nil rfl)
      · have hn : next (⟨t :: ts, last, hl⟩ : Replay) = (t, ⟨ts, last, hl⟩) := by
          simp [next, Replay.next, ht]
        simpa [ht] using gives_cons hn ih
  exact h _ _

theorem gives_replay {ts : List Token} {e : Token} (hts : ∀ t ∈ ts, t.kind ≠ .eof)
    (he : e.kind = .eof) : Gives (Replay.ofList (ts ++ [e])) ts e := by
  have hwhile : (ts ++ [e]).takeWhile (fun t => t.kind ≠ .eof) = ts := by
    rw [List.takeWhile_append_of_pos (by simpa using hts)]
    simp [he]
  have hfind : (ts ++ [e]).find? (fun t => t.kind = .eof) = some e := by
    have hnone : ts.find? (fun t => t.kind = .eof) = none := by simpa using hts
    simp [List.find?_append, hnone, he]
  have h := gives_ofList (ts ++ [e])
  rwa [hwhile, hfind] at h

end TokenSource
end MonkeySyntax
