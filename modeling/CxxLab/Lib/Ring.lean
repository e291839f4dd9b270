import Mathlib.Data.List.Range
import Mathlib.Data.Nat.ModEq
import Mathlib.Tactic

/-!
# Reading a ring

The cells of a ring of size `n` are a function of their index. `ringRead` reads a number of cells
from a start, around the end; `splice` overwrites a run of cells that does not go around the end.
What a splice leaves alone is decided in ring offsets from the start of the read, where the two
runs are plain intervals.
-/

namespace CxxLab.Ring

variable {α : Type*}

/-- The `len` cells from `start` on, around the end of a ring of size `n`. -/
def ringRead (data : ℕ → α) (n start len : ℕ) : List α :=
  (List.range len).map fun i => data ((start + i) % n)

/-- The cells with the list `bs` written from `off` on. -/
def splice (data : ℕ → α) (off : ℕ) (bs : List α) (i : ℕ) : α :=
  if off ≤ i ∧ i < off + bs.length then bs.getD (i - off) (data i) else data i

/-- A reading is as long as it was to be. -/
@[simp] theorem length_ringRead (data : ℕ → α) (n start len : ℕ) :
    (ringRead data n start len).length = len := by
  simp [ringRead]

/-- Nothing is read of no length. -/
@[simp] theorem ringRead_zero (data : ℕ → α) (n start : ℕ) : ringRead data n start 0 = [] := rfl

/-- A read is a shorter read followed by the rest. -/
theorem ringRead_add (data : ℕ → α) (n start a b : ℕ) :
    ringRead data n start (a + b) = ringRead data n start a ++ ringRead data n (start + a) b := by
  simp [ringRead, List.range_add, Function.comp_def, Nat.add_assoc]

/-- A read starts anywhere in the class of its start. -/
theorem ringRead_mod (data : ℕ → α) (n start len : ℕ) :
    ringRead data n (start % n) len = ringRead data n start len := by
  simp [ringRead]

/-- A read that does not go around the end is a plain one. -/
theorem ringRead_of_le (data : ℕ → α) {n start len : ℕ} (h : start + len ≤ n) :
    ringRead data n start len = (List.range len).map fun i => data (start + i) := by
  apply List.map_congr_left
  intro i hi
  rw [Nat.mod_eq_of_lt (by rw [List.mem_range] at hi; omega)]

/-- What was written is read. -/
theorem ringRead_splice_self (data : ℕ → α) {n off : ℕ} {bs : List α} (h : off + bs.length ≤ n) :
    ringRead (splice data off bs) n off bs.length = bs := by
  rw [ringRead_of_le _ h]
  apply List.ext_getElem
  · simp
  · intro i h1 h2
    simp [splice, h2]

/-- A read sees the cells of the ring only. -/
theorem ringRead_congr {data data' : ℕ → α} {n : ℕ} (hn : 0 < n)
    (h : ∀ i < n, data' i = data i) (start len : ℕ) :
    ringRead data' n start len = ringRead data n start len := by
  apply List.map_congr_left
  intro i _
  exact h _ (Nat.mod_lt _ hn)

/-- Offsets from one start that name the same cell are equal. -/
theorem offset_inj {n start i k : ℕ} (hi : i < n) (hk : k < n)
    (h : (start + i) % n = (start + k) % n) : i = k := by
  have hm : i ≡ k [MOD n] := Nat.ModEq.add_left_cancel' start h
  rwa [Nat.ModEq, Nat.mod_eq_of_lt hi, Nat.mod_eq_of_lt hk] at hm

/-- A write behind what is read, at ring offset `k`, is not seen. -/
theorem ringRead_splice_of_le (data : ℕ → α) {n start len k off : ℕ} {bs : List α}
    (hoff : off = (start + k) % n) (hlen : len ≤ k) (hk : k + bs.length ≤ n) :
    ringRead (splice data off bs) n start len = ringRead data n start len := by
  apply List.map_congr_left
  intro i hi
  rw [List.mem_range] at hi
  unfold splice
  rw [if_neg]
  rintro ⟨h1, h2⟩
  -- The cell is at offset `k + m` of the ring as well as at offset `i`.
  obtain ⟨m, hm⟩ := Nat.exists_eq_add_of_le h1
  have hcell : (start + i) % n = (start + (k + m)) % n := by
    calc (start + i) % n = (off + m) % n := by rw [← hm, Nat.mod_mod]
      _ = (start + (k + m)) % n := by rw [hoff, Nat.mod_add_mod, Nat.add_assoc]
  have := offset_inj (by omega) (by omega) hcell
  omega

end CxxLab.Ring
