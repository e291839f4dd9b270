import Mathlib

/-!
# Rounding to significant bits

Natural numbers rounded to `p` significant bits, to the nearest, and to the even one of two that are
as near: what a conversion of an integer to a floating-point number gives. A number is representable
when it is `q * 2 ^ e` with `q ≤ 2 ^ p`; rounding never crosses one (`le_roundBits`).
-/

namespace CxxLab

/-- The exponent of the last bit that is kept. -/
def unitExp (p n : ℕ) : ℕ := Nat.log 2 n + 1 - p

/-- Rounds to `p` significant bits. -/
def roundBits (p n : ℕ) : ℕ :=
  let unit := 2 ^ unitExp p n
  let q := n / unit
  let r := n % unit
  if unit < 2 * r ∨ unit = 2 * r ∧ q % 2 = 1 then (q + 1) * unit else q * unit

variable {p q e n : ℕ}

/-- A rounded number is the multiple of its unit below the number, or the next one if it is no
multiple. -/
theorem roundBits_cases (p n : ℕ) :
    roundBits p n = n / 2 ^ unitExp p n * 2 ^ unitExp p n ∨
      roundBits p n = (n / 2 ^ unitExp p n + 1) * 2 ^ unitExp p n ∧ n % 2 ^ unitExp p n ≠ 0 := by
  unfold roundBits
  simp only
  split_ifs with h
  · refine .inr ⟨rfl, fun h0 => ?_⟩
    have hpos : 0 < 2 ^ unitExp p n := Nat.two_pow_pos _
    rw [h0] at h
    omega
  · exact .inl rfl

/-- What is kept has `p` bits. -/
theorem div_unit_lt (p n : ℕ) : n / 2 ^ unitExp p n < 2 ^ p := by
  rw [Nat.div_lt_iff_lt_mul (Nat.two_pow_pos _), ← pow_add]
  have hlog : n < 2 ^ (Nat.log 2 n + 1) := Nat.lt_pow_succ_log_self (by norm_num) n
  refine hlog.trans_le (Nat.pow_le_pow_right (by norm_num) ?_)
  unfold unitExp
  omega

/-- A number that has bits to lose keeps `p` significant ones. -/
theorem le_div_unit (h : 0 < unitExp p n) (hp : 0 < p) : 2 ^ (p - 1) ≤ n / 2 ^ unitExp p n := by
  have hne : n ≠ 0 := by
    rintro rfl
    unfold unitExp at h
    rw [Nat.log_zero_right] at h
    omega
  rw [Nat.le_div_iff_mul_le (Nat.two_pow_pos _), ← pow_add]
  have hlog : 2 ^ Nat.log 2 n ≤ n := Nat.pow_log_le_self 2 hne
  refine le_trans (Nat.pow_le_pow_right (by norm_num) ?_) hlog
  unfold unitExp at h ⊢
  omega

/-- A number with a smaller exponent is below all those with a greater one. -/
theorem mul_pow_le_of_lt (hp : 0 < p) (hq : q ≤ 2 ^ p) {u : ℕ} (hlt : e < u) :
    q * 2 ^ e ≤ 2 ^ (p - 1) * 2 ^ u :=
  calc q * 2 ^ e ≤ 2 ^ p * 2 ^ (u - 1) :=
        Nat.mul_le_mul hq (Nat.pow_le_pow_right (by norm_num) (by omega))
    _ = 2 ^ (p - 1) * 2 ^ u := by
        rw [← pow_add, ← pow_add]
        exact congrArg _ (by omega)

/-- A representable number that is not greater does not get greater than what is rounded. -/
theorem le_roundBits (hp : 0 < p) (hq : q ≤ 2 ^ p) (h : q * 2 ^ e ≤ n) :
    q * 2 ^ e ≤ roundBits p n := by
  have hfloor : q * 2 ^ e ≤ n / 2 ^ unitExp p n * 2 ^ unitExp p n := by
    rcases le_or_gt (unitExp p n) e with hle | hlt
    · -- It is a multiple of the unit.
      obtain ⟨d, rfl⟩ := Nat.exists_eq_add_of_le hle
      have hmul : q * 2 ^ (unitExp p n + d) = q * 2 ^ d * 2 ^ unitExp p n := by
        rw [pow_add, Nat.mul_assoc, Nat.mul_comm (2 ^ d)]
      rw [hmul] at h ⊢
      exact Nat.mul_le_mul_right _ ((Nat.le_div_iff_mul_le (Nat.two_pow_pos _)).mpr h)
    · exact (mul_pow_le_of_lt hp hq hlt).trans
        (Nat.mul_le_mul_right _ (le_div_unit (by omega) hp))
  rcases roundBits_cases p n with hr | ⟨hr, -⟩
  · rwa [hr]
  · rw [hr, Nat.succ_mul]
    exact hfloor.trans (Nat.le_add_right _ _)

/-- A representable number is not changed. -/
theorem roundBits_exact (hp : 0 < p) (hq : q ≤ 2 ^ p) : roundBits p (q * 2 ^ e) = q * 2 ^ e := by
  have hge := le_roundBits hp hq (le_refl (q * 2 ^ e))
  refine le_antisymm ?_ hge
  have hdiv := Nat.div_mul_le_self (q * 2 ^ e) (2 ^ unitExp p (q * 2 ^ e))
  rcases roundBits_cases p (q * 2 ^ e) with hr | ⟨hr, hmod⟩
  · rwa [hr]
  · -- The unit divides a representable number.
    refine absurd ?_ hmod
    rcases le_or_gt (unitExp p (q * 2 ^ e)) e with hle | hlt
    · exact Nat.mod_eq_zero_of_dvd (dvd_mul_of_dvd_right (pow_dvd_pow 2 hle) q)
    · -- It is the least number with this unit.
      have hle : q * 2 ^ e ≤ 2 ^ (p - 1) * 2 ^ unitExp p (q * 2 ^ e) :=
        mul_pow_le_of_lt hp hq hlt
      have hge' := Nat.mul_le_mul_right (2 ^ unitExp p (q * 2 ^ e))
        (le_div_unit (n := q * 2 ^ e) (by omega) hp)
      exact Nat.mod_eq_zero_of_dvd ⟨2 ^ (p - 1), (le_antisymm hle (hge'.trans hdiv)).trans
        (Nat.mul_comm _ _)⟩

/-- What comes out is representable. -/
theorem exists_roundBits_eq (p n : ℕ) : ∃ q e, q ≤ 2 ^ p ∧ roundBits p n = q * 2 ^ e := by
  have hlt := div_unit_lt p n
  rcases roundBits_cases p n with hr | ⟨hr, -⟩
  · exact ⟨_, _, hlt.le, hr⟩
  · exact ⟨_, _, hlt, hr⟩

/-- Where a number gets less, the next representable number is greater than it. -/
theorem lt_of_roundBits_lt (hp : 0 < p) (h : roundBits p n < n) :
    ∃ q e, 2 ^ (p - 1) ≤ q ∧ q < 2 ^ p ∧ roundBits p n = q * 2 ^ e ∧ n < (q + 1) * 2 ^ e := by
  have hpos : 0 < 2 ^ unitExp p n := Nat.two_pow_pos _
  have hnext : n < (n / 2 ^ unitExp p n + 1) * 2 ^ unitExp p n := by
    rw [Nat.succ_mul]
    exact Nat.lt_div_mul_add hpos
  rcases roundBits_cases p n with hr | ⟨hr, -⟩
  · refine ⟨n / 2 ^ unitExp p n, unitExp p n, ?_, div_unit_lt p n, hr, hnext⟩
    refine le_div_unit (Nat.pos_of_ne_zero fun h0 => ?_) hp
    rw [hr, h0, pow_zero, Nat.div_one, Nat.mul_one] at h
    exact absurd h (lt_irrefl n)
  · rw [hr] at h
    exact absurd h hnext.asymm

end CxxLab
