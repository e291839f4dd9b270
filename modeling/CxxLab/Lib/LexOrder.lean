import Mathlib.Data.List.Lex
import Mathlib.Data.Prod.Lex
import Mathlib.Tactic

/-!
# The order of encoded tuples

Encodings are put one after the other and compared as strings. When each of them has a fixed width,
or is a sequence of codewords with a terminator below all of them, the strings compare as the tuples
do, lexicographically.
-/

namespace CxxLab.LexOrder

variable {α β : Type*} [LinearOrder β]

/-- Strings behind strings of one width. -/
theorem append_lt_append_iff {a b : List β} (hlen : a.length = b.length) (x y : List β) :
    a ++ x < b ++ y ↔ toLex (a, x) < toLex (b, y) := by
  rw [Prod.Lex.toLex_lt_toLex]
  induction a generalizing b with
  | nil =>
    obtain rfl := List.eq_nil_of_length_eq_zero hlen.symm
    simp
  | cons c a ih =>
    cases b with
    | nil => simp at hlen
    | cons d b =>
      have hrec := ih (Nat.succ.inj hlen)
      simp only [List.cons_append, List.cons_lt_cons_iff, hrec, List.cons.injEq]
      tauto

/-- Strings behind a single letter. -/
theorem cons_lt_cons_iff (c d : β) (x y : List β) :
    c :: x < d :: y ↔ toLex (c, x) < toLex (d, y) := by
  rw [Prod.Lex.toLex_lt_toLex, List.cons_lt_cons_iff]

/-- Codewords, of which none begins another one, that compare as their ranks, and a terminator
below all of them. -/
structure Code (α β : Type*) [LinearOrder β] where
  /-- The codeword. -/
  word : α → List β
  /-- The place in the order. -/
  rank : α → ℕ
  /-- The terminator. -/
  stop : β
  /-- Different codewords compare as their ranks, whatever is behind them. -/
  word_lt_iff : ∀ c d, c ≠ d → ∀ x y, word c ++ x < word d ++ y ↔ rank c < rank d
  /-- The ranks tell the letters apart. -/
  rank_inj : Function.Injective rank
  /-- The terminator is below. -/
  stop_lt : ∀ c x y, stop :: x < word c ++ y

namespace Code

/-- A word of letters, with its terminator. -/
def encode (C : Code α β) (s : List α) : List β := s.flatMap C.word ++ [C.stop]

/-- Encoded words, whatever is behind them, compare as their ranks do. -/
theorem encode_lt_iff (C : Code α β) (s t : List α) (x y : List β) :
    C.encode s ++ x < C.encode t ++ y ↔ toLex (s.map C.rank, x) < toLex (t.map C.rank, y) := by
  rw [Prod.Lex.toLex_lt_toLex]
  unfold encode
  induction s generalizing t with
  | nil =>
    cases t with
    | nil => simp
    | cons d t =>
      have h := C.stop_lt d x (t.flatMap C.word ++ ([C.stop] ++ y))
      simpa using h
  | cons c s ih =>
    cases t with
    | nil =>
      -- The terminator comes first, so the longer word is not below.
      have h := C.stop_lt c y (s.flatMap C.word ++ ([C.stop] ++ x))
      simpa using h.le
    | cons d t =>
      simp only [List.flatMap_cons, List.append_assoc, List.map_cons, List.cons_lt_cons_iff,
        List.cons.injEq] at ih ⊢
      by_cases hcd : c = d
      · subst hcd
        rw [append_lt_append_iff rfl, Prod.Lex.toLex_lt_toLex, ih t]
        simp
      · have hne : C.rank c ≠ C.rank d := fun h => hcd (C.rank_inj h)
        rw [C.word_lt_iff c d hcd]
        simp [hne]

end Code

/-- The order of what is behind equal fields matters only where they are equal. -/
theorem lex_congr {γ δ δ' : Type*} [LT γ] [LT δ] [LT δ'] {a b : γ} {x y : δ} {x' y' : δ'}
    (h : a = b → (x < y ↔ x' < y')) :
    toLex (a, x) < toLex (b, y) ↔ toLex (a, x') < toLex (b, y') := by
  rw [Prod.Lex.toLex_lt_toLex, Prod.Lex.toLex_lt_toLex]
  exact or_congr Iff.rfl (and_congr_right h)

/-! ## When two orders agree -/

/-- Two lexicographic orders agree on a pair when they agree on the first field that differs. -/
theorem lex_agree_iff {γ γ' δ δ' : Type*} [LinearOrder γ] [LinearOrder γ'] [LT δ] [LT δ']
    {a b : γ} {a' b' : γ'} (hab : a = b ↔ a' = b') {x y : δ} {x' y' : δ'} :
    (toLex (a, x) < toLex (b, y) ↔ toLex (a', x') < toLex (b', y')) ↔
      if a = b then (x < y ↔ x' < y') else (a < b ↔ a' < b') := by
  rw [Prod.Lex.toLex_lt_toLex, Prod.Lex.toLex_lt_toLex]
  split_ifs with h
  · have h' := hab.mp h
    simp [h, h']
  · have h' : ¬ a' = b' := fun e => h (hab.mpr e)
    simp [h, h']

end CxxLab.LexOrder
