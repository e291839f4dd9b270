import CxxLab.Lib.Rounding

/-!
# How much of the device of the database the slow level may use

The constructor of `RocksDBBlueFSVolumeSelector` in `bluefs/bluefs_volume_selector.cc`. It lets the
levels of RocksDB grow until the next one would not fit, and takes what the levels up to there need,
times a factor, from the size of the device. The numbers of 64 bits wrap around, the factor is a
`double`.
-/

namespace CxxLab.Bluefs

/-! ## The constructor -/

/-- A `double` from 1 on: `mant / 2 ^ 52 * 2 ^ exp`, or infinity. -/
inductive Factor where
  | finite (mant exp : ℕ) (hlow : 2 ^ 52 ≤ mant) (hhigh : mant < 2 ^ 53) (hexp : exp ≤ 1023)
  | infinity

/-- 1. -/
def Factor.one : Factor := .finite (2 ^ 52) 0 (by norm_num) (by norm_num) (by norm_num)

/-- The product of the threshold, as a `double`, with the factor, in units of `2 ^ -52`. -/
def scaled (threshold mant exp : ℕ) : ℕ :=
  roundBits 53 (roundBits 53 threshold * (mant * 2 ^ exp))

/-- `static_cast<uint64_t>(cur_threshold * reserved_factor)`; nothing where the conversion is
undefined. -/
def timesFactor (threshold : UInt64) : Factor → Option UInt64
  | .infinity => none
  | .finite mant exp _ _ _ =>
    if scaled threshold.toNat mant exp / 2 ^ 52 < 2 ^ 64 then
      some (UInt64.ofNat (scaled threshold.toNat mant exp / 2 ^ 52))
    else none

/-- The variables of the loop. -/
structure Growth where
  /-- `prev_levels`. -/
  prevLevels : UInt64
  /-- `cur_level`. -/
  curLevel : UInt64
  /-- `cur_threshold`. -/
  curThreshold : UInt64

namespace Growth

/-- Before the loop. -/
def start (level0Size levelBase : UInt64) : Growth :=
  ⟨level0Size, levelBase, level0Size + levelBase⟩

/-- `next_level`. -/
def nextLevel (g : Growth) (multiplier : UInt64) : UInt64 := g.curLevel * multiplier

/-- `next_threshold`. -/
def nextThreshold (g : Growth) (multiplier : UInt64) : UInt64 :=
  g.prevLevels + g.curLevel + g.nextLevel multiplier

/-- The end of a round. -/
def step (multiplier : UInt64) (g : Growth) : Growth :=
  ⟨g.prevLevels + g.curLevel, g.nextLevel multiplier, g.nextThreshold multiplier⟩

/-- The loop, with so many rounds at most: `cur_threshold` where it ends. -/
def grow (dbTotal multiplier : UInt64) : ℕ → Growth → Option UInt64
  | 0, _ => none
  | rounds + 1, g =>
    if dbTotal ≤ g.nextThreshold multiplier then some g.curThreshold
    else grow dbTotal multiplier rounds (g.step multiplier)

end Growth

/-- `db_avail4slow_` after the constructor. -/
def dbAvail4slow (rounds : ℕ) (dbTotal level0Size levelBase levelMultiplier : UInt64)
    (reservedFactor : Factor) (reserved : UInt64) (useDbExtra : Bool) : Option UInt64 :=
  if !useDbExtra then some 0
  else if reserved = 0 then
    (Growth.grow dbTotal levelMultiplier rounds (Growth.start level0Size levelBase)).bind
      fun curThreshold => (timesFactor curThreshold reservedFactor).map fun curThreshold =>
        if curThreshold < dbTotal then dbTotal - curThreshold else 0
  else some (if reserved < dbTotal then dbTotal - reserved else 0)

/-! ## What it is to do -/

section

variable (dbTotal level0Size levelBase multiplier : UInt64)

/-- The variables of the loop in a round. -/
def growthAt (n : ℕ) : Growth := (Growth.step multiplier)^[n] (Growth.start level0Size levelBase)

/-- The loop ends in a round, if it gets there. -/
def Stops (n : ℕ) : Prop :=
  dbTotal ≤ (growthAt level0Size levelBase multiplier n).nextThreshold multiplier

/-- The next level and the next threshold have 64 bits. -/
def Growth.FitsNext (g : Growth) (multiplier : UInt64) : Prop :=
  g.curLevel.toNat * multiplier.toNat < 2 ^ 64 ∧
    g.prevLevels.toNat + g.curLevel.toNat + g.curLevel.toNat * multiplier.toNat < 2 ^ 64

/-- No sum and no product of the loop wraps around. -/
def NoWrap : Prop :=
  level0Size.toNat + levelBase.toNat < 2 ^ 64 ∧
    ∀ n, (∀ k < n, ¬ Stops dbTotal level0Size levelBase multiplier k) →
      (growthAt level0Size levelBase multiplier n).FitsNext multiplier

/-- The loop ends without wrapping around, and what is left for the slow level is within the device
and leaves it the levels that are to be reserved. -/
def Sized (factor : Factor) : Prop :=
  NoWrap dbTotal level0Size levelBase multiplier ∧
    ∃ rounds curThreshold avail,
      Growth.grow dbTotal multiplier rounds (Growth.start level0Size levelBase) =
        some curThreshold ∧
      dbAvail4slow rounds dbTotal level0Size levelBase multiplier factor 0 true = some avail ∧
      avail.toNat ≤ dbTotal.toNat ∧
      (0 < avail.toNat → curThreshold.toNat + avail.toNat ≤ dbTotal.toNat)

/-- The sum of level 0 and of the first `n` levels behind it. -/
def levels (n : ℕ) : ℕ :=
  level0Size.toNat + levelBase.toNat * ∑ i ∈ Finset.range n, multiplier.toNat ^ i

/-- The factor takes a threshold to a number of 64 bits, and not below it: a factor of 1 rounds a
threshold that is no `double`, and this does no harm if nothing is left then. -/
def FactorFits (threshold : ℕ) : Factor → Prop
  | .infinity => False
  | .finite mant exp _ _ _ =>
      scaled threshold mant exp / 2 ^ 52 < 2 ^ 64 ∧
        (mant = 2 ^ 52 → exp = 0 → roundBits 53 threshold < threshold →
          dbTotal.toNat ≤ roundBits 53 threshold)

/-- The condition. -/
structure Fitting (factor : Factor) : Prop where
  /-- The levels grow, or two of them are enough. -/
  grows : dbTotal.toNat ≤ levels level0Size levelBase multiplier 2 ∨
    0 < levelBase.toNat ∧ 0 < multiplier.toNat
  /-- The first sum that reaches the size of the device has 64 bits, and the factor fits the one
  before it. -/
  fits : ∀ n, (∀ k < n, levels level0Size levelBase multiplier (k + 2) < dbTotal.toNat) →
    dbTotal.toNat ≤ levels level0Size levelBase multiplier (n + 2) →
    levels level0Size levelBase multiplier (n + 2) < 2 ^ 64 ∧
      FactorFits dbTotal (levels level0Size levelBase multiplier (n + 1)) factor

end

/-! ## The factor -/

/-- A factor of 1 rounds the threshold. -/
theorem scaled_one (threshold : ℕ) : scaled threshold (2 ^ 52) 0 = roundBits 53 threshold * 2 ^ 52 := by
  obtain ⟨q, e, hq, hD⟩ := exists_roundBits_eq 53 threshold
  have hexact := roundBits_exact (p := 53) (e := e + 52) (by norm_num) hq
  rw [pow_add, ← Nat.mul_assoc, ← hD] at hexact
  unfold scaled
  rw [pow_zero, Nat.mul_one, hexact]

/-- A threshold does not get less by the factor, unless that is 1 and the threshold is rounded. -/
theorem le_scaled_iff {threshold mant exp : ℕ} (hlow : 2 ^ 52 ≤ mant) :
    threshold ≤ scaled threshold mant exp / 2 ^ 52 ↔
      (mant = 2 ^ 52 → exp = 0 → threshold ≤ roundBits 53 threshold) := by
  obtain ⟨q, e, hq, hD⟩ := exists_roundBits_eq 53 threshold
  have hfactor : 2 ^ 52 ≤ mant * 2 ^ exp :=
    hlow.trans (Nat.le_mul_of_pos_right _ (Nat.two_pow_pos _))
  rw [Nat.le_div_iff_mul_le (by norm_num)]
  rcases le_or_gt threshold (roundBits 53 threshold) with hup | hdown
  · refine iff_of_true ?_ fun _ _ => hup
    have hle : q * 2 ^ (e + 52) ≤ roundBits 53 threshold * (mant * 2 ^ exp) := by
      rw [hD, pow_add, ← Nat.mul_assoc]
      exact Nat.mul_le_mul_left _ hfactor
    calc threshold * 2 ^ 52 ≤ roundBits 53 threshold * 2 ^ 52 := Nat.mul_le_mul_right _ hup
      _ = q * 2 ^ (e + 52) := by rw [hD, pow_add, Nat.mul_assoc]
      _ ≤ _ := le_roundBits (by norm_num) hq hle
  · rcases eq_or_lt_of_le hfactor with hone | hmore
    · -- The factor is 1.
      have hmant : mant = 2 ^ 52 ∧ exp = 0 := by
        have hm : mant = 2 ^ 52 := by
          have := Nat.le_mul_of_pos_right mant (Nat.two_pow_pos exp)
          omega
        rw [hm] at hone
        have hexp : 2 ^ exp = 1 := by omega
        exact ⟨hm, (Nat.pow_eq_one.mp hexp).resolve_left (by norm_num)⟩
      refine iff_of_false ?_ fun h => absurd (h hmant.1 hmant.2) (not_le.mpr hdown)
      obtain ⟨rfl, rfl⟩ := hmant
      rw [scaled_one]
      omega
    · -- The next `double` behind 1 takes the threshold to the next one, or further.
      refine iff_of_true ?_ fun hm he => ?_
      · obtain ⟨q, e, hq52, hq53, hD, hnext⟩ := lt_of_roundBits_lt (by norm_num) hdown
        have hle : (q + 1) * 2 ^ (e + 52) ≤ roundBits 53 threshold * (mant * 2 ^ exp) :=
          calc (q + 1) * 2 ^ (e + 52) = q * 2 ^ e * 2 ^ 52 + 2 ^ 52 * 2 ^ e := by ring
            _ ≤ q * 2 ^ e * 2 ^ 52 + q * 2 ^ e :=
                Nat.add_le_add_left (Nat.mul_le_mul_right _ hq52) _
            _ = q * 2 ^ e * (2 ^ 52 + 1) := by ring
            _ ≤ _ := by
                rw [hD]
                exact Nat.mul_le_mul_left _ hmore
        calc threshold * 2 ^ 52 ≤ (q + 1) * 2 ^ e * 2 ^ 52 := Nat.mul_le_mul_right _ hnext.le
          _ = (q + 1) * 2 ^ (e + 52) := by rw [pow_add, Nat.mul_assoc]
          _ ≤ _ := le_roundBits (by norm_num) hq53 hle
      · rw [hm, he] at hmore
        exact absurd hmore (by norm_num)

/-! ## The loop -/

section

variable {dbTotal level0Size levelBase multiplier : UInt64} {n : ℕ}

/-- The next level adds its size. -/
theorem levels_succ (level0Size levelBase multiplier : UInt64) (n : ℕ) :
    levels level0Size levelBase multiplier (n + 1) =
      levels level0Size levelBase multiplier n + levelBase.toNat * multiplier.toNat ^ n := by
  unfold levels
  rw [Finset.sum_range_succ, Nat.mul_add, Nat.add_assoc]

/-- More levels have no less space. -/
theorem levels_mono (level0Size levelBase multiplier : UInt64) :
    Monotone (levels level0Size levelBase multiplier) :=
  monotone_nat_of_le_succ fun n => by
    rw [levels_succ]
    exact Nat.le_add_right _ _

/-- The variables are what they would be without wrapping around. -/
def ExactAt (level0Size levelBase multiplier : UInt64) (n : ℕ) : Prop :=
  let g := growthAt level0Size levelBase multiplier n
  g.prevLevels.toNat = levels level0Size levelBase multiplier n ∧
    g.curLevel.toNat = levelBase.toNat * multiplier.toNat ^ n ∧
    g.curThreshold.toNat = levels level0Size levelBase multiplier (n + 1)

/-- The sum of the first level is exact if it fits. -/
theorem exactAt_zero (h : levels level0Size levelBase multiplier 1 < 2 ^ 64) :
    ExactAt level0Size levelBase multiplier 0 := by
  have h1 : levels level0Size levelBase multiplier 1 = level0Size.toNat + levelBase.toNat := by
    simp [levels]
  refine ⟨by simp [growthAt, Growth.start, levels], by simp [growthAt, Growth.start], ?_⟩
  rw [h1] at h ⊢
  show (level0Size + levelBase).toNat = _
  rw [UInt64.toNat_add, Nat.mod_eq_of_lt h]

/-- Where the next threshold has 64 bits, the round computes it, and so is the next one. -/
theorem ExactAt.next (h : ExactAt level0Size levelBase multiplier n)
    (hfits : levels level0Size levelBase multiplier (n + 2) < 2 ^ 64) :
    ((growthAt level0Size levelBase multiplier n).nextThreshold multiplier).toNat =
        levels level0Size levelBase multiplier (n + 2) ∧
      ExactAt level0Size levelBase multiplier (n + 1) := by
  obtain ⟨hprev, hcur, -⟩ := h
  have hstep : growthAt level0Size levelBase multiplier (n + 1) =
      (growthAt level0Size levelBase multiplier n).step multiplier :=
    Function.iterate_succ_apply' _ _ _
  have hlevel : levelBase.toNat * multiplier.toNat ^ n * multiplier.toNat =
      levelBase.toNat * multiplier.toNat ^ (n + 1) := by rw [pow_succ, Nat.mul_assoc]
  have h1 := levels_succ level0Size levelBase multiplier n
  have h2 : levels level0Size levelBase multiplier (n + 2) =
      levels level0Size levelBase multiplier (n + 1) +
        levelBase.toNat * multiplier.toNat ^ (n + 1) := levels_succ _ _ _ _
  generalize growthAt level0Size levelBase multiplier n = g at *
  have hnl : (g.nextLevel multiplier).toNat = levelBase.toNat * multiplier.toNat ^ (n + 1) := by
    rw [Growth.nextLevel, UInt64.toNat_mul, hcur, hlevel]
    exact Nat.mod_eq_of_lt (by omega)
  have hsum : (g.prevLevels + g.curLevel).toNat = levels level0Size levelBase multiplier (n + 1) := by
    rw [UInt64.toNat_add, hprev, hcur, h1]
    exact Nat.mod_eq_of_lt (by omega)
  have hnt : (g.nextThreshold multiplier).toNat =
      levels level0Size levelBase multiplier (n + 2) := by
    rw [Growth.nextThreshold, UInt64.toNat_add, hsum, hnl, h2]
    exact Nat.mod_eq_of_lt (by omega)
  refine ⟨hnt, ?_⟩
  unfold ExactAt
  rw [hstep]
  exact ⟨hsum, hnl, hnt⟩

/-- The sums of a round do not wrap around exactly when the next threshold has 64 bits. -/
theorem ExactAt.noWrap_iff (h : ExactAt level0Size levelBase multiplier n) :
    (growthAt level0Size levelBase multiplier n).FitsNext multiplier ↔
      levels level0Size levelBase multiplier (n + 2) < 2 ^ 64 := by
  obtain ⟨hprev, hcur, -⟩ := h
  have hlevel : levelBase.toNat * multiplier.toNat ^ n * multiplier.toNat =
      levelBase.toNat * multiplier.toNat ^ (n + 1) := by rw [pow_succ, Nat.mul_assoc]
  have h1 := levels_succ level0Size levelBase multiplier n
  have h2 : levels level0Size levelBase multiplier (n + 2) =
      levels level0Size levelBase multiplier (n + 1) +
        levelBase.toNat * multiplier.toNat ^ (n + 1) := levels_succ _ _ _ _
  unfold Growth.FitsNext
  rw [hprev, hcur, hlevel]
  omega

/-- The loop gives the threshold of the first round in which it stops. -/
theorem grow_eq_some_iff (rounds : ℕ) (n : ℕ) (c : UInt64) :
    Growth.grow dbTotal multiplier rounds (growthAt level0Size levelBase multiplier n) = some c ↔
      ∃ k < rounds, (∀ j < k, ¬ Stops dbTotal level0Size levelBase multiplier (n + j)) ∧
        Stops dbTotal level0Size levelBase multiplier (n + k) ∧
        c = (growthAt level0Size levelBase multiplier (n + k)).curThreshold := by
  induction rounds generalizing n with
  | zero => exact iff_of_false (by simp [Growth.grow]) (by simp)
  | succ rounds ih =>
    have hstep : (growthAt level0Size levelBase multiplier n).step multiplier =
        growthAt level0Size levelBase multiplier (n + 1) :=
      (Function.iterate_succ_apply' _ _ _).symm
    unfold Growth.grow
    rw [hstep]
    split_ifs with hstop
    · constructor
      · intro h
        exact ⟨0, Nat.succ_pos _, fun j hj => absurd hj (Nat.not_lt_zero _), hstop,
          (Option.some.inj h).symm⟩
      · rintro ⟨k, -, hbefore, -, rfl⟩
        cases k with
        | zero => rfl
        | succ k => exact absurd hstop (hbefore 0 (Nat.succ_pos _))
    · rw [ih]
      constructor
      · rintro ⟨k, hk, hbefore, hstops, rfl⟩
        refine ⟨k + 1, by omega, fun j hj => ?_, ?_, ?_⟩
        · cases j with
          | zero => exact hstop
          | succ j =>
            have := hbefore j (by omega)
            rwa [show n + (j + 1) = n + 1 + j by omega]
        · rwa [show n + (k + 1) = n + 1 + k by omega]
        · rw [show n + (k + 1) = n + 1 + k by omega]
      · rintro ⟨k, hk, hbefore, hstops, rfl⟩
        cases k with
        | zero => exact absurd hstops hstop
        | succ k =>
          refine ⟨k, by omega, fun j hj => ?_, ?_, ?_⟩
          · have := hbefore (j + 1) (by omega)
            rwa [show n + (j + 1) = n + 1 + j by omega] at this
          · rwa [show n + (k + 1) = n + 1 + k by omega] at hstops
          · rw [show n + (k + 1) = n + 1 + k by omega]

/-- Where nothing wraps around, the rounds up to the end are exact. -/
theorem NoWrap.exactAt (h : NoWrap dbTotal level0Size levelBase multiplier) {n : ℕ}
    (hn : ∀ k < n, ¬ Stops dbTotal level0Size levelBase multiplier k) :
    ExactAt level0Size levelBase multiplier n ∧
      levels level0Size levelBase multiplier (n + 2) < 2 ^ 64 := by
  have hexact : ExactAt level0Size levelBase multiplier n := by
    induction n with
    | zero => exact exactAt_zero (by simpa [levels] using h.1)
    | succ n ih =>
      have hbefore : ∀ k < n, ¬ Stops dbTotal level0Size levelBase multiplier k :=
        fun k hk => hn k (Nat.lt_succ_of_lt hk)
      have hcur := ih hbefore
      exact (hcur.next (hcur.noWrap_iff.mp (h.2 n hbefore))).2
  exact ⟨hexact, hexact.noWrap_iff.mp (h.2 n hn)⟩

/-- Up to a sum of 64 bits, all rounds are exact. -/
theorem exactAt_of_fits (h : levels level0Size levelBase multiplier (n + 1) < 2 ^ 64) :
    ExactAt level0Size levelBase multiplier n := by
  induction n with
  | zero => exact exactAt_zero h
  | succ n ih =>
    exact ((ih ((levels_mono _ _ _ (Nat.le_succ _)).trans_lt h)).next h).2

/-- Where the sums are exact the loop stops at the first level that has no room. -/
theorem ExactAt.stops_iff (h : ExactAt level0Size levelBase multiplier n)
    (hfits : levels level0Size levelBase multiplier (n + 2) < 2 ^ 64) :
    Stops dbTotal level0Size levelBase multiplier n ↔
      dbTotal.toNat ≤ levels level0Size levelBase multiplier (n + 2) := by
  unfold Stops
  rw [UInt64.le_iff_toNat_le, (h.next hfits).1]

/-- The levels grow above every size, or their sum stays as it is. -/
theorem levels_cases (level0Size levelBase multiplier : UInt64) :
    (0 < levelBase.toNat ∧ 0 < multiplier.toNat ∧
      ∀ n, n ≤ levels level0Size levelBase multiplier n) ∨
    ¬ (0 < levelBase.toNat ∧ 0 < multiplier.toNat) ∧
      ∀ n, levels level0Size levelBase multiplier (n + 2) =
        levels level0Size levelBase multiplier 2 := by
  by_cases hpos : 0 < levelBase.toNat ∧ 0 < multiplier.toNat
  · refine .inl ⟨hpos.1, hpos.2, fun n => ?_⟩
    induction n with
    | zero => exact Nat.zero_le _
    | succ n ih =>
      rw [levels_succ]
      have hlevel : 0 < levelBase.toNat * multiplier.toNat ^ n :=
        Nat.mul_pos hpos.1 (Nat.pow_pos hpos.2)
      omega
  · refine .inr ⟨hpos, fun n => ?_⟩
    induction n with
    | zero => rfl
    | succ n ih =>
      rw [levels_succ, ih]
      have hlevel : levelBase.toNat * multiplier.toNat ^ (n + 2) = 0 := by
        rcases not_and_or.mp hpos with h | h
        · rw [Nat.eq_zero_of_not_pos h, Nat.zero_mul]
        · rw [Nat.eq_zero_of_not_pos h, Nat.zero_pow (Nat.succ_pos _), Nat.mul_zero]
      rw [hlevel, Nat.add_zero]

/-- The end of the constructor. -/
theorem avail_iff (factor : Factor) (curThreshold : UInt64) :
    (∃ avail : UInt64, ((timesFactor curThreshold factor).map fun reserved =>
        if reserved < dbTotal then dbTotal - reserved else 0) = some avail ∧
      avail.toNat ≤ dbTotal.toNat ∧
      (0 < avail.toNat → curThreshold.toNat + avail.toNat ≤ dbTotal.toNat)) ↔
    FactorFits dbTotal curThreshold.toNat factor := by
  cases factor with
  | infinity => exact iff_of_false (by simp [timesFactor]) id
  | finite mant exp hlow hhigh hexp =>
    unfold timesFactor FactorFits
    simp only
    split_ifs with hfits
    · rw [and_iff_right hfits]
      have hle := @le_scaled_iff curThreshold.toNat mant exp hlow
      have hone : mant = 2 ^ 52 → exp = 0 → scaled curThreshold.toNat mant exp / 2 ^ 52 =
          roundBits 53 curThreshold.toNat := by
        rintro rfl rfl
        rw [scaled_one]
        exact Nat.mul_div_cancel _ (by norm_num)
      generalize scaled curThreshold.toNat mant exp / 2 ^ 52 = reserved at *
      have hr : (UInt64.ofNat reserved).toNat = reserved := UInt64.toNat_ofNat_of_lt' hfits
      have hlt : UInt64.ofNat reserved < dbTotal ↔ reserved < dbTotal.toNat := by
        rw [UInt64.lt_iff_toNat_lt, hr]
      have hfactor : (mant = 2 ^ 52 → exp = 0 → roundBits 53 curThreshold.toNat <
          curThreshold.toNat → dbTotal.toNat ≤ roundBits 53 curThreshold.toNat) ↔
          (reserved < dbTotal.toNat → curThreshold.toNat ≤ reserved) := by
        by_cases hm : mant = 2 ^ 52
        · by_cases he : exp = 0
          · rw [hone hm he]
            simp only [hm, he, forall_const]
            omega
          · exact iff_of_true (fun _ h => absurd h he) fun _ => hle.mpr fun _ h => absurd h he
        · exact iff_of_true (fun h => absurd h hm) fun _ => hle.mpr fun h => absurd h hm
      rw [hfactor]
      simp only [Option.map_some, Option.some.injEq, hlt]
      rw [exists_eq_left']
      split_ifs with h
      · have hsub : (dbTotal - UInt64.ofNat reserved).toNat = dbTotal.toNat - reserved := by
          rw [UInt64.toNat_sub_of_le _ _ (UInt64.le_iff_toNat_le.mpr (by omega)), hr]
        rw [hsub]
        omega
      · simp [h]
    · exact iff_of_false (by simp) fun h => hfits h.1

end

/-- The constructor does with the levels what it is to do exactly when these grow to the size of the
device within 64 bits, and the factor fits. -/
theorem sized_iff (dbTotal level0Size levelBase multiplier : UInt64) (factor : Factor) :
    Sized dbTotal level0Size levelBase multiplier factor ↔
      Fitting dbTotal level0Size levelBase multiplier factor := by
  -- The constructor's loop is `Growth.grow`.
  have hcall : ∀ rounds, dbAvail4slow rounds dbTotal level0Size levelBase multiplier factor 0 true =
      (Growth.grow dbTotal multiplier rounds (growthAt level0Size levelBase multiplier 0)).bind
        fun curThreshold => (timesFactor curThreshold factor).map fun reserved =>
          if reserved < dbTotal then dbTotal - reserved else 0 := fun _ => rfl
  constructor
  -- The loop has stopped at the first level that reaches the size, without a wrap.
  · rintro ⟨hwrap, rounds, cur, avail, hgrow, havail, hsize⟩
    obtain ⟨last, -, hbefore, hlast, hcur⟩ := (grow_eq_some_iff rounds 0 cur).mp hgrow
    simp only [Nat.zero_add] at hbefore hlast hcur
    obtain ⟨hexact, hfits⟩ := hwrap.exactAt hbefore
    have hreach := (hexact.stops_iff hfits).mp hlast
    constructor
    · rcases levels_cases level0Size levelBase multiplier with ⟨hb, hm, -⟩ | ⟨-, hconst⟩
      · exact .inr ⟨hb, hm⟩
      · exact .inl (hconst last ▸ hreach)
    · intro n hless hn
      -- The first sum that is large enough is that of the last round.
      obtain rfl : n = last := by
        rcases lt_trichotomy n last with hlt | heq | hgt
        · obtain ⟨hexact', hfits'⟩ := hwrap.exactAt fun k hk => hbefore k (hk.trans hlt)
          exact absurd ((hexact'.stops_iff hfits').mpr hn) (hbefore n hlt)
        · exact heq
        · exact absurd hreach (not_le.mpr (hless last hgt))
      refine ⟨hfits, ?_⟩
      rw [← hexact.2.2, ← hcur]
      refine (avail_iff factor cur).mp ⟨avail, ?_, hsize⟩
      rw [hcall] at havail
      rwa [show Growth.grow dbTotal multiplier rounds (growthAt level0Size levelBase multiplier 0) =
        some cur from hgrow, Option.bind_some] at havail
  -- Conversely the levels grow until one reaches it.
  · rintro ⟨hgrows, hfits⟩
    have hex : ∃ n, dbTotal.toNat ≤ levels level0Size levelBase multiplier (n + 2) := by
      rcases levels_cases level0Size levelBase multiplier with ⟨-, -, hge⟩ | ⟨hnot, -⟩
      · exact ⟨dbTotal.toNat, le_trans (by omega) (hge _)⟩
      · exact ⟨0, hgrows.resolve_right hnot⟩
    classical
    obtain ⟨last, hreach, hless⟩ : ∃ n, dbTotal.toNat ≤ levels level0Size levelBase multiplier (n + 2) ∧
        ∀ k < n, levels level0Size levelBase multiplier (k + 2) < dbTotal.toNat :=
      ⟨Nat.find hex, Nat.find_spec hex, fun k hk => not_le.mp (Nat.find_min hex hk)⟩
    obtain ⟨hlast, hfactor⟩ := hfits last hless hreach
    have hexact : ∀ k ≤ last, ExactAt level0Size levelBase multiplier k ∧
        levels level0Size levelBase multiplier (k + 2) < 2 ^ 64 := fun k hk =>
      ⟨exactAt_of_fits ((levels_mono _ _ _ (by omega)).trans_lt hlast),
        (levels_mono _ _ _ (by omega)).trans_lt hlast⟩
    have hstops : ∀ k ≤ last, Stops dbTotal level0Size levelBase multiplier k ↔
        dbTotal.toNat ≤ levels level0Size levelBase multiplier (k + 2) := fun k hk =>
      (hexact k hk).1.stops_iff (hexact k hk).2
    -- So the loop stops at the first of them.
    have hgrow : Growth.grow dbTotal multiplier (last + 1) (growthAt level0Size levelBase multiplier 0) =
        some (growthAt level0Size levelBase multiplier last).curThreshold := by
      refine (grow_eq_some_iff _ 0 _).mpr ⟨last, Nat.lt_succ_self _, fun j hj => ?_, ?_, ?_⟩
      · rw [Nat.zero_add, hstops j hj.le]
        exact not_le.mpr (hless j hj)
      · rw [Nat.zero_add]
        exact (hstops last le_rfl).mpr hreach
      · rw [Nat.zero_add]
    have hend := (hexact last le_rfl).1.2.2
    rw [← hend] at hfactor
    obtain ⟨avail, havail, hsize⟩ := (avail_iff factor _).mpr hfactor
    refine ⟨⟨?_, fun n hn => ?_⟩, last + 1, _, avail, hgrow, ?_, hsize⟩
    · have hfirst := levels_mono level0Size levelBase multiplier (show 1 ≤ last + 2 by omega)
      have h1 : levels level0Size levelBase multiplier 1 = level0Size.toNat + levelBase.toNat := by
        simp [levels]
      omega
    · have hle : n ≤ last := by
        by_contra hgt
        exact hn last (not_le.mp hgt) ((hstops last le_rfl).mpr hreach)
      exact (hexact n hle).1.noWrap_iff.mpr (hexact n hle).2
    · rw [hcall, hgrow]
      exact havail

/-- Levels of size 0 do not grow. -/
theorem grow_stuck (rounds : ℕ) : Growth.grow 100 0 rounds ⟨20, 0, 20⟩ = none := by
  induction rounds with
  | zero => rfl
  | succ rounds ih =>
    unfold Growth.grow
    rw [if_neg (by decide)]
    exact ih

/-- With a multiplier of 0 the loop does not end: two levels of 10 do not get to a device of 100. -/
theorem zero_multiplier_does_not_end :
    (∀ rounds, Growth.grow 100 0 rounds (Growth.start 10 10) = none) ∧
      ¬ Sized 100 10 10 0 Factor.one := by
  have hgrow : ∀ rounds, Growth.grow 100 0 rounds (Growth.start 10 10) = none := by
    intro rounds
    cases rounds with
    | zero => rfl
    | succ rounds =>
      unfold Growth.grow
      rw [if_neg (by decide)]
      exact grow_stuck rounds
  refine ⟨hgrow, ?_⟩
  rintro ⟨-, rounds, cur, avail, h, -⟩
  rw [hgrow] at h
  cases h

end CxxLab.Bluefs
