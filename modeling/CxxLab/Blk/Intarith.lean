import Mathlib

/-!
# Power-of-two arithmetic on words

The functions of `common/intarith.h` on 64-bit words, which are numbers below `2 ^ 64` here. They
are the source's bit tricks with the unary minus of an unsigned word; what the allocators need of
them is that rounding up does not go below, and that rounding down does not reach zero.
-/

namespace CxxLab.Blk

/-- The number of 64-bit words. -/
def wordEnd : ℕ := 0x10000000000000000

/-- The unary minus of an unsigned word. -/
def negWord (x : ℕ) : ℕ := (wordEnd - x) % wordEnd

/-- `isp2`. -/
def isp2 (x : ℕ) : Bool := 0 < x ∧ x &&& (x - 1) = 0

/-- `p2align`: round down to a multiple of a power of two. -/
def p2align (x align : ℕ) : ℕ := x &&& negWord align

/-- `p2roundup`: round up to a multiple of a power of two. -/
def p2roundup (x align : ℕ) : ℕ := negWord (negWord x &&& negWord align)

/-- `cbits`: the number of bits of a word, without the leading zeros. -/
def cbits (v : ℕ) : ℕ := if v = 0 then 0 else Nat.log2 v + 1

/-- A word has 64 bits. -/
theorem wordEnd_eq : wordEnd = 2 ^ 64 := by
  unfold wordEnd
  norm_num

/-- The minus of a word that is not zero. -/
theorem negWord_of_pos {x : ℕ} (h0 : 0 < x) (hx : x ≤ wordEnd) : negWord x = wordEnd - x :=
  Nat.mod_eq_of_lt (by omega)

/-- A bit of the minus of a word. -/
theorem testBit_negWord {x i : ℕ} (h0 : 0 < x) (hx : x < wordEnd) :
    (negWord x).testBit i = (decide (i < 64) && !(x - 1).testBit i) := by
  rw [negWord_of_pos h0 hx.le, wordEnd_eq]
  have hsub : 2 ^ 64 - x = 2 ^ 64 - ((x - 1) + 1) := by rw [Nat.sub_add_cancel h0]
  rw [hsub, Nat.testBit_two_pow_sub_succ]
  rw [wordEnd_eq] at hx
  exact (Nat.sub_lt h0 Nat.one_pos).trans hx

/-- Rounding down does not go above. -/
theorem p2align_le (x align : ℕ) : p2align x align ≤ x := Nat.and_le_left

/-- Rounding down a word that is at least the power of two does not reach zero. -/
theorem p2align_pos {x k : ℕ} (hx : 2 ^ k ≤ x) (hlt : x < wordEnd) : 0 < p2align x (2 ^ k) := by
  have hx0 : x ≠ 0 := by
    rintro rfl
    exact absurd hx (not_le.mpr (Nat.two_pow_pos k))
  have hk : k ≤ Nat.log2 x := (Nat.le_log2 hx0).mpr hx
  have hj : Nat.log2 x < 64 := (Nat.log2_lt hx0).mpr (wordEnd_eq ▸ hlt)
  -- The leading bit of the word stays.
  have hbit : (p2align x (2 ^ k)).testBit (Nat.log2 x) = true := by
    rw [p2align, Nat.testBit_and, Nat.testBit_log2 hx0,
      testBit_negWord (Nat.two_pow_pos k) (hx.trans_lt hlt), Nat.testBit_two_pow_sub_one]
    simp [hj, hk]
  rcases Nat.eq_zero_or_pos (p2align x (2 ^ k)) with h0 | h0
  · rw [h0] at hbit
    simp at hbit
  · exact h0

/-- The lowest bit of a word that is not zero. -/
theorem and_negWord_ne_zero {x : ℕ} (h0 : 0 < x) (hx : x < wordEnd) : x &&& negWord x ≠ 0 := by
  intro hz
  have hle : x &&& (x - 1) = x := by
    refine Nat.eq_of_testBit_eq fun i => ?_
    rw [Nat.testBit_and]
    have hi : (x &&& negWord x).testBit i = false := by rw [hz]; simp
    rw [Nat.testBit_and, testBit_negWord h0 hx] at hi
    by_cases h64 : i < 64
    · cases hb : x.testBit i <;> simp [hb, h64] at hi ⊢
      exact hi
    · have hbig : x.testBit i = false := by
        refine Nat.testBit_lt_two_pow (hx.trans_le ?_)
        rw [wordEnd_eq]
        exact Nat.pow_le_pow_right (by norm_num) (by omega)
      simp [hbig]
  have hright : x &&& (x - 1) ≤ x - 1 := Nat.and_le_right
  omega

/-- A word in the upper half has its leading bit set. -/
theorem testBit_63 {x : ℕ} (h : 0x8000000000000000 ≤ x) (hx : x < wordEnd) :
    x.testBit 63 = true := by
  have h0 : x ≠ 0 := by omega
  have hlog : Nat.log2 x = 63 := by
    have h1 : 63 ≤ Nat.log2 x := (Nat.le_log2 h0).mpr (by norm_num; omega)
    have h2 : Nat.log2 x < 64 := (Nat.log2_lt h0).mpr (wordEnd_eq ▸ hx)
    omega
  rw [← hlog]
  exact Nat.testBit_log2 h0

/-- Rounding up a word in the lower half to a power of two does not go below it. -/
theorem le_p2roundup {x align : ℕ} (hx : x ≤ 0x8000000000000000) (ha : 0 < align)
    (ha' : align ≤ 0x8000000000000000) : x ≤ p2roundup x align := by
  rcases Nat.eq_zero_or_pos x with rfl | h0
  · exact Nat.zero_le _
  · have hw : wordEnd = 0x10000000000000000 := rfl
    have hnx := negWord_of_pos h0 (by omega)
    have hna := negWord_of_pos ha (by omega)
    -- Both minuses are in the upper half, so their common bits are not zero.
    have hbit : (negWord x &&& negWord align).testBit 63 = true := by
      rw [Nat.testBit_and, testBit_63 (by omega) (by omega), testBit_63 (by omega) (by omega)]
      rfl
    have hpos : 0 < negWord x &&& negWord align := by
      rcases Nat.eq_zero_or_pos (negWord x &&& negWord align) with hz | hz
      · rw [hz] at hbit
        simp at hbit
      · exact hz
    have hle : negWord x &&& negWord align ≤ negWord x := Nat.and_le_left
    rw [p2roundup, negWord_of_pos hpos (by omega)]
    omega

/-- A word passes `isp2` when it is a power of two. -/
theorem exists_two_pow_of_isp2 {x : ℕ} (h : isp2 x = true) : ∃ k, x = 2 ^ k := by
  simp only [isp2, Bool.decide_and, Bool.and_eq_true, decide_eq_true_eq] at h
  exact Nat.ne_zero_and_sub_one_eq_zero_iff_isPowerOfTwo.mp ⟨h.1.ne', h.2⟩

/-- A unit that is a power of two, as a word. -/
theorem unit_le {unit : ℕ} (hu : isp2 unit = true) (hw : unit < wordEnd) :
    0 < unit ∧ unit ≤ 0x8000000000000000 ∧ ∃ k, unit = 2 ^ k := by
  obtain ⟨k, rfl⟩ := exists_two_pow_of_isp2 hu
  rw [wordEnd_eq] at hw
  have hk : k < 64 := (Nat.pow_lt_pow_iff_right (by norm_num)).mp hw
  refine ⟨Nat.two_pow_pos k, ?_, k, rfl⟩
  calc 2 ^ k ≤ 2 ^ 63 := Nat.pow_le_pow_right (by norm_num) (by omega)
    _ = 0x8000000000000000 := by norm_num

/-- Rounding down a word gives the multiple below. -/
theorem p2align_eq {x k : ℕ} (hk : k < 64) (hx : x < wordEnd) :
    p2align x (2 ^ k) = x / 2 ^ k * 2 ^ k := by
  have hkw : 2 ^ k < wordEnd := by
    rw [wordEnd_eq]
    exact Nat.pow_lt_pow_right (by norm_num) hk
  refine Nat.eq_of_testBit_eq fun i => ?_
  rw [p2align, Nat.testBit_and, testBit_negWord (Nat.two_pow_pos k) hkw,
    Nat.testBit_two_pow_sub_one, Nat.testBit_mul_two_pow, Nat.testBit_div_two_pow]
  by_cases hi : k ≤ i
  · rw [Nat.sub_add_cancel hi]
    by_cases h64 : i < 64
    · simp [hi, h64]
    · have hbig : x.testBit i = false := by
        refine Nat.testBit_lt_two_pow (hx.trans_le ?_)
        rw [wordEnd_eq]
        exact Nat.pow_le_pow_right (by norm_num) (by omega)
      simp [hbig]
  · simp [hi, show i < k by omega]

/-- Rounding down gives a multiple. -/
theorem dvd_p2align {x k : ℕ} (hk : k < 64) (hx : x < wordEnd) : 2 ^ k ∣ p2align x (2 ^ k) := by
  rw [p2align_eq hk hx]
  exact Nat.dvd_mul_left _ _

/-- Rounding up a word in the lower half goes through the multiple below its minus. -/
theorem p2roundup_eq {x k : ℕ} (hk : k < 64) (h0 : 0 < x) (hx : x ≤ 0x8000000000000000) :
    p2roundup x (2 ^ k) = wordEnd - (wordEnd - x) / 2 ^ k * 2 ^ k := by
  have hw : wordEnd = 0x10000000000000000 := rfl
  have hk63 : 2 ^ k ≤ 0x8000000000000000 := by
    calc 2 ^ k ≤ 2 ^ 63 := Nat.pow_le_pow_right (by norm_num) (by omega)
      _ = 0x8000000000000000 := by norm_num
  have halign : negWord x &&& negWord (2 ^ k) = (wordEnd - x) / 2 ^ k * 2 ^ k := by
    rw [negWord_of_pos h0 (by omega)]
    exact p2align_eq hk (by omega)
  have hpos : 0 < (wordEnd - x) / 2 ^ k * 2 ^ k := by
    have h1 : 0 < (wordEnd - x) / 2 ^ k := Nat.div_pos (by omega) (Nat.two_pow_pos k)
    exact Nat.mul_pos h1 (Nat.two_pow_pos k)
  have hle := Nat.div_mul_le_self (wordEnd - x) (2 ^ k)
  rw [p2roundup, halign, negWord_of_pos hpos (by omega)]

/-- Rounding up gives a multiple. -/
theorem dvd_p2roundup {x k : ℕ} (hk : k < 64) (hx : x ≤ 0x8000000000000000) :
    2 ^ k ∣ p2roundup x (2 ^ k) := by
  rcases Nat.eq_zero_or_pos x with rfl | h0
  · have hz : p2roundup 0 (2 ^ k) = 0 := by
      rw [p2roundup, show negWord 0 = 0 from rfl, Nat.zero_and]
      rfl
    rw [hz]
    exact dvd_zero _
  · rw [p2roundup_eq hk h0 hx, wordEnd_eq]
    exact Nat.dvd_sub (pow_dvd_pow 2 hk.le) (Nat.dvd_mul_left _ _)

/-- A multiple stays where it is. -/
theorem p2roundup_of_dvd {x k : ℕ} (hk : k < 64) (hx : x ≤ 0x8000000000000000) (h : 2 ^ k ∣ x) :
    p2roundup x (2 ^ k) = x := by
  rcases Nat.eq_zero_or_pos x with rfl | h0
  · rw [p2roundup, show negWord 0 = 0 from rfl, Nat.zero_and]
    rfl
  · have hw : wordEnd = 0x10000000000000000 := rfl
    have hdvd : 2 ^ k ∣ wordEnd - x := by
      rw [wordEnd_eq]
      exact Nat.dvd_sub (pow_dvd_pow 2 hk.le) h
    rw [p2roundup_eq hk h0 hx, Nat.div_mul_cancel hdvd]
    omega

end CxxLab.Blk
