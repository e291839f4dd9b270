import CxxLab.Common.Denc

/-!
# The bounds of variable-length integers, and signed ones

A `bound_encode` says how many bytes an encoder writes at most, and the appender has a buffer of
that size. Here is how long the encodings of `Denc.lean` are (`length_putVarint_le_iff`), and for
which values an encoder keeps within its bound and is read back (`unsigned_exact_iff`).

The signed encoders pack the sign into a 64-bit integer that is signed itself, and give that to
`denc_varint`, whose loop shifts it to the right until it is zero. A negative one never is
(`putVarintInt_neg`), so such an encoder does not end (`signed_exact_iff`).
-/

namespace CxxLab.Denc

open Codec

/-! ## Lengths -/

/-- `denc_varint` of 64 bits: `sizeof(T) + 1`. -/
def boundVarint : ℕ := 9

/-- `denc_varint_lowz`. -/
def boundVarintLowz : ℕ := 10

/-- `denc_lba`. -/
def boundLba : ℕ := 10

/-- `denc_signed_varint`. -/
def boundSignedVarint : ℕ := 10

/-- `denc_signed_varint_lowz`. -/
def boundSignedVarintLowz : ℕ := 10

/-- A byte has room for seven bits. -/
theorem length_putVarint_le_iff (k n : ℕ) : (putVarint n).length ≤ k + 1 ↔ n < 128 ^ (k + 1) := by
  induction k generalizing n with
  | zero =>
    unfold putVarint
    split_ifs with hn
    · simpa using hn
    · have hpos := length_putVarint_pos (n / 128)
      rw [List.length_cons, pow_one]
      omega
  | succ k ih =>
    have hpow : 128 ^ (k + 1 + 1) = 128 ^ (k + 1) * 128 := pow_succ 128 (k + 1)
    have hone : 1 ≤ 128 ^ (k + 1) := Nat.one_le_two_pow.trans (Nat.pow_le_pow_left (by norm_num) _)
    unfold putVarint
    split_ifs with hn
    · rw [List.length_singleton]
      omega
    · rw [List.length_cons, Nat.add_le_add_iff_right, ih, Nat.div_lt_iff_lt_mul (by norm_num), hpow]

/-- An encoding is read back, with exactly its bytes, and is within the bound. -/
def Exact {α : Type} (bs : List UInt8) (bound : ℕ) (get : List UInt8 → Option (α × List UInt8))
    (v : α) : Prop :=
  bs.length ≤ bound ∧ ∀ rest, get (bs ++ rest) = some (v, rest)

/-- `denc_varint` writes a tenth byte for the highest bit, which its bound has no room for. -/
theorem varint_exact_iff (v : ℕ) : Exact (putVarint v) boundVarint getVarint v ↔ v < 2 ^ 63 := by
  have hlen : (putVarint v).length ≤ 8 + 1 ↔ v < 128 ^ (8 + 1) := length_putVarint_le_iff 8 v
  exact (and_iff_left (getVarint_putVarint v)).trans (hlen.trans (by norm_num))

/-- What `denc_varint_lowz` leaves of a value: its low zero nibbles, at most three, are shifted
out. -/
def lowzPart (v : ℕ) : ℕ := v / 2 ^ (4 * min (lowZeroNibbles v) 3)

/-- `denc_varint_lowz` shifts the two highest bits out where it makes room for its own two. -/
theorem varintLowz_exact_iff (v : ℕ) :
    Exact (putVarintLowz v) boundVarintLowz getVarintLowz v ↔ lowzPart v < 2 ^ 62 := by
  obtain ⟨k, hk⟩ : ∃ k, k = min (lowZeroNibbles v) 3 := ⟨_, rfl⟩
  have hk3 : k ≤ 3 := hk ▸ min_le_right _ _
  have hcancel : lowzPart v * 2 ^ (4 * k) = v := by
    rw [lowzPart, ← hk]
    exact shift_nibbles (hk ▸ min_le_left _ _)
  have hput : putVarintLowz v = putVarint ((lowzPart v * 4 + k) % 2 ^ 64) := by
    rw [lowzPart, ← hk]
    unfold putVarintLowz
    rw [← hk]
  have hlen : (putVarintLowz v).length ≤ 9 + 1 := by
    rw [hput, length_putVarint_le_iff]
    exact (Nat.mod_lt _ (by norm_num)).trans (by norm_num)
  have hget : ∀ rest, getVarintLowz (putVarintLowz v ++ rest) =
      some (lowzPart v % 2 ^ 62 * 2 ^ (4 * k), rest) := fun rest => by
    rw [hput, getVarintLowz, getVarint_putVarint, Option.map_some]
    have hdiv : (lowzPart v * 4 + k) % 2 ^ 64 / 4 = lowzPart v % 2 ^ 62 := by omega
    have hmod : (lowzPart v * 4 + k) % 2 ^ 64 % 4 = k := by omega
    simp only [hdiv, hmod]
  have hpos : 0 < 2 ^ (4 * k) := Nat.two_pow_pos _
  constructor
  · rintro ⟨-, hread⟩
    have heq := (hget []).symm.trans (hread [])
    simp only [Option.some.injEq, Prod.mk.injEq, and_true] at heq
    have hlow := Nat.eq_of_mul_eq_mul_right hpos (heq.trans hcancel.symm)
    exact hlow ▸ Nat.mod_lt _ (by norm_num)
  · intro hlt
    refine ⟨hlen, fun rest => ?_⟩
    rw [hget, Nat.mod_eq_of_lt hlt, hcancel]

/-- The word of `denc_lba` takes 28 bits at least. -/
theorem lba_exact {v : ℕ} (hv : v < 2 ^ 64) : Exact (putLba v) boundLba getLba v := by
  refine ⟨?_, getLba_putLba v⟩
  obtain ⟨x, pos, tag, hhead⟩ : ∃ x pos tag, lbaHead v = (x, pos, tag) := ⟨_, _, _, rfl⟩
  have hsmall : x / 2 ^ (31 - pos) < 2 ^ 36 := by
    unfold lbaHead at hhead
    simp only at hhead
    split_ifs at hhead with h3 h6
    · obtain ⟨rfl, rfl, -⟩ : v = x ∧ 3 = pos ∧ 7 = tag := by simpa using hhead
      omega
    · obtain ⟨rfl, rfl, -⟩ : v / 2 ^ (4 * lowZeroNibbles v) = x ∧ lowZeroNibbles v - 3 + 1 = pos ∧
          2 ^ (lowZeroNibbles v - 3) - 1 = tag := by simpa using hhead
      have hshift : v / 2 ^ (4 * lowZeroNibbles v) ≤ v / 2 ^ 12 :=
        Nat.div_le_div_left (Nat.pow_le_pow_right (by norm_num) (by omega)) (by norm_num)
      have hdiv : v / 2 ^ (4 * lowZeroNibbles v) / 2 ^ (31 - (lowZeroNibbles v - 3 + 1)) ≤
          v / 2 ^ 12 / 2 ^ 28 :=
        Nat.div_le_div hshift (Nat.pow_le_pow_right (by norm_num) (by omega)) (by norm_num)
      omega
    · obtain ⟨rfl, rfl, -⟩ : v / 2 ^ 20 = x ∧ 3 = pos ∧ 3 = tag := by simpa using hhead
      omega
  have hlen : (putVarint (x / 2 ^ (31 - pos))).length ≤ 5 + 1 := by
    rw [length_putVarint_le_iff]
    exact hsmall.trans (by norm_num)
  unfold putLba
  rw [hhead]
  simp only
  split_ifs
  · simp [boundLba]
  · rw [List.length_append, length_putU32]
    simp only [boundLba]
    omega

/-- The three encoders of unsigned integers keep within their bounds, and what they write is read
back, exactly when the value is below `2 ^ 63` and what `denc_varint_lowz` leaves of it is below
`2 ^ 62`. -/
theorem unsigned_exact_iff (v : UInt64) :
    Exact (putVarint v.toNat) boundVarint getVarint v.toNat ∧
      Exact (putVarintLowz v.toNat) boundVarintLowz getVarintLowz v.toNat ∧
      Exact (putLba v.toNat) boundLba getLba v.toNat ↔
    v.toNat < 2 ^ 63 ∧ lowzPart v.toNat < 2 ^ 62 := by
  have hv : v.toNat < 2 ^ 64 := v.toNat_lt
  rw [varint_exact_iff, varintLowz_exact_iff, and_iff_left (lba_exact hv)]

/-- The largest value takes ten bytes, one more than the bound, and with `denc_varint_lowz` it loses
its two highest bits. -/
theorem largest_not_exact :
    (putVarint (0xFFFFFFFFFFFFFFFF : UInt64).toNat).length = 10 ∧
      ¬ Exact (putVarint (0xFFFFFFFFFFFFFFFF : UInt64).toNat) boundVarint getVarint
        (0xFFFFFFFFFFFFFFFF : UInt64).toNat ∧
      ¬ Exact (putVarintLowz (0xFFFFFFFFFFFFFFFF : UInt64).toNat) boundVarintLowz getVarintLowz
        (0xFFFFFFFFFFFFFFFF : UInt64).toNat := by
  refine ⟨?_, ?_, ?_⟩
  · have h10 := (length_putVarint_le_iff 9 0xFFFFFFFFFFFFFFFF).mpr (by norm_num)
    have h9 := mt (length_putVarint_le_iff 8 0xFFFFFFFFFFFFFFFF).mp (by norm_num)
    show (putVarint 0xFFFFFFFFFFFFFFFF).length = 10
    omega
  · rw [varint_exact_iff]
    decide
  · rw [varintLowz_exact_iff]
    have hodd : lowZeroNibbles 0xFFFFFFFFFFFFFFFF = 0 := by
      unfold lowZeroNibbles ctz
      norm_num
    show ¬ 0xFFFFFFFFFFFFFFFF / 2 ^ (4 * min (lowZeroNibbles 0xFFFFFFFFFFFFFFFF) 3) < 2 ^ 62
    rw [hodd]
    norm_num

/-! ## Signed integers -/

/-- What is left of an integer in 64 bits with a sign. -/
def wrapInt (x : ℤ) : ℤ := Int.bmod x (2 ^ 64)

/-- `denc_varint` of `int64_t`, with so many rounds at most: `>>` keeps the sign. -/
def putVarintInt : ℕ → ℤ → Option (List UInt8)
  | 0, _ => none
  | fuel + 1, v =>
    if v / 128 = 0 then some [UInt8.ofNat (v % 128).toNat]
    else (putVarintInt fuel (v / 128)).map (UInt8.ofNat ((v % 128).toNat + 128) :: ·)

/-- `denc_varint`, into an `int64_t`. -/
def getVarintInt (p : List UInt8) : Option (ℤ × List UInt8) :=
  (getVarint p).map fun (i, p) => (wrapInt i, p)

/-- What `denc_signed_varint` gives to `denc_varint`: the low bit is the sign. -/
def signedWord (v : ℤ) : ℤ := if v < 0 then wrapInt (wrapInt (-v) * 2) + 1 else wrapInt (v * 2)

/-- `denc_signed_varint`. -/
def putSignedVarint (fuel : ℕ) (v : ℤ) : Option (List UInt8) := putVarintInt fuel (signedWord v)

/-- `denc_signed_varint`. -/
def getSignedVarint (p : List UInt8) : Option (ℤ × List UInt8) :=
  (getVarintInt p).map fun (i, p) => (if i % 2 = 1 then wrapInt (-(i / 2)) else i / 2, p)

/-- What `denc_signed_varint_lowz` gives to `denc_varint`: the sign, how many low zero nibbles are
left out, and the rest. -/
def signedLowzWord (v : ℤ) : ℤ :=
  let negative : ℤ := if v < 0 then 1 else 0
  let v := if v < 0 then wrapInt (-v) else v
  let lowznib := min (lowZeroNibbles (v % 2 ^ 64).toNat) 3
  wrapInt (v / 2 ^ (4 * lowznib) * 8) + lowznib * 2 + negative

/-- `denc_signed_varint_lowz`. -/
def putSignedVarintLowz (fuel : ℕ) (v : ℤ) : Option (List UInt8) :=
  putVarintInt fuel (signedLowzWord v)

/-- `denc_signed_varint_lowz`. -/
def getSignedVarintLowz (p : List UInt8) : Option (ℤ × List UInt8) :=
  (getVarintInt p).map fun (i, p) =>
    let lowznib := (i % 8 / 2).toNat
    let v := wrapInt (i / 8 * 2 ^ (4 * lowznib))
    (if i % 2 = 1 then wrapInt (-v) else v, p)

/-- A number that is brought into 64 bits, with its sign. -/
theorem wrapInt_eq (x : ℤ) :
    wrapInt x = if x % 2 ^ 64 < 2 ^ 63 then x % 2 ^ 64 else x % 2 ^ 64 - 2 ^ 64 := by
  rw [wrapInt, Int.bmod_def]
  rfl

/-- A number that fits is not changed. -/
theorem wrapInt_of_fits {x : ℤ} (hle : -2 ^ 63 ≤ x) (hlt : x < 2 ^ 63) : wrapInt x = x := by
  rw [wrapInt_eq]
  split_ifs <;> omega

/-- The loop does not end for a negative number: shifted to the right it is negative again. -/
theorem putVarintInt_neg : ∀ (fuel : ℕ) {v : ℤ}, v < 0 → putVarintInt fuel v = none
  | 0, _, _ => rfl
  | fuel + 1, v, hv => by
    unfold putVarintInt
    rw [if_neg (by omega), putVarintInt_neg fuel (show v / 128 < 0 by omega)]
    rfl

/-- For any other number it is the loop for unsigned ones. -/
theorem putVarintInt_natCast (fuel n : ℕ) :
    putVarintInt (fuel + 1) n = if n < 128 ^ (fuel + 1) then some (putVarint n) else none := by
  induction fuel generalizing n with
  | zero =>
    rw [pow_one]
    unfold putVarintInt putVarint
    by_cases hn : n < 128
    · rw [if_pos (by omega), if_pos hn, if_pos hn, show ((n : ℤ) % 128).toNat = n by omega]
    · rw [if_neg (by omega), if_neg hn]
      rfl
  | succ fuel ih =>
    have hdiv : (n : ℤ) / 128 = (n / 128 : ℕ) := by omega
    have hmod : ((n : ℤ) % 128).toNat = n % 128 := by omega
    have hpow : n / 128 < 128 ^ (fuel + 1) ↔ n < 128 ^ (fuel + 1 + 1) := by
      rw [Nat.div_lt_iff_lt_mul (by norm_num), pow_succ 128 (fuel + 1)]
    have hone : 1 ≤ 128 ^ (fuel + 1) := Nat.one_le_pow _ _ (by norm_num)
    rw [putVarintInt, putVarint, hdiv, hmod, ih]
    by_cases hn : n < 128
    · rw [if_pos (by omega), if_pos hn, if_pos (by rw [pow_succ]; omega),
        Nat.mod_eq_of_lt hn]
    · rw [if_neg (by omega), if_neg hn]
      by_cases hlt : n / 128 < 128 ^ (fuel + 1)
      · rw [if_pos hlt, if_pos (hpow.mp hlt)]
        rfl
      · rw [if_neg hlt, if_neg (mt hpow.mpr hlt)]
        rfl

/-- A signed encoder ends, keeps within its bound, and what it writes is read back. -/
def EndsExact (put : ℕ → ℤ → Option (List UInt8)) (bound : ℕ)
    (get : List UInt8 → Option (ℤ × List UInt8)) (v : ℤ) : Prop :=
  ∃ fuel bs, put fuel v = some bs ∧ Exact bs bound get v

/-- What the loop is given is read back from nine bytes, and it is not negative. -/
theorem endsExact_iff (put : ℕ → ℤ → Option (List UInt8))
    (get : List UInt8 → Option (ℤ × List UInt8)) (unpack : ℤ → ℤ) {word v : ℤ}
    (hput : ∀ fuel, put fuel v = putVarintInt fuel word)
    (hget : ∀ p, get p = (getVarintInt p).map fun (i, p) => (unpack i, p))
    (hlt : word < 2 ^ 63) : EndsExact put 10 get v ↔ 0 ≤ word ∧ unpack word = v := by
  have hread : ∀ n : ℕ, (n : ℤ) = word → ∀ rest,
      get (putVarint n ++ rest) = some (unpack word, rest) := by
    intro n hn rest
    rw [hget, getVarintInt, getVarint_putVarint]
    simp only [Option.map_some, hn]
    rw [wrapInt_of_fits (by omega) hlt]
  constructor
  · rintro ⟨fuel, bs, hbs, -, hexact⟩
    rw [hput] at hbs
    have hnonneg : 0 ≤ word := by
      by_contra hneg
      rw [putVarintInt_neg fuel (not_le.mp hneg)] at hbs
      cases hbs
    refine ⟨hnonneg, ?_⟩
    obtain ⟨n, rfl⟩ := Int.eq_ofNat_of_zero_le hnonneg
    cases fuel with
    | zero => cases hbs
    | succ fuel =>
      rw [putVarintInt_natCast] at hbs
      split_ifs at hbs
      obtain rfl := Option.some.inj hbs
      have heq := (hread n rfl []).symm.trans (hexact [])
      simpa using heq
  · rintro ⟨hnonneg, hback⟩
    obtain ⟨n, rfl⟩ := Int.eq_ofNat_of_zero_le hnonneg
    have hn : n < 128 ^ (8 + 1) := by norm_num; omega
    refine ⟨8 + 1, putVarint n, ?_, ?_, fun rest => ?_⟩
    · rw [hput, putVarintInt_natCast, if_pos hn]
    · exact ((length_putVarint_le_iff 8 n).mpr hn).trans (by norm_num)
    · rw [hread n rfl, hback]

/-- What `denc_signed_varint` reads from the word. -/
def unpackSigned (i : ℤ) : ℤ := if i % 2 = 1 then wrapInt (-(i / 2)) else i / 2

/-- `denc_signed_varint` needs two bits of the word for itself: one is the sign that it packs, and
one is the sign of the word. -/
theorem signedVarint_exact_iff {v : ℤ} (hle : -2 ^ 63 ≤ v) (hlt : v < 2 ^ 63) :
    EndsExact putSignedVarint boundSignedVarint getSignedVarint v ↔ v.natAbs < 2 ^ 62 := by
  have hword : signedWord v < 2 ^ 63 := by
    unfold signedWord
    rw [wrapInt_eq (wrapInt (-v) * 2), wrapInt_eq (v * 2)]
    split_ifs <;> omega
  refine (endsExact_iff putSignedVarint getSignedVarint unpackSigned (fun _ => rfl) (fun _ => rfl)
    hword).trans ?_
  unfold signedWord
  rcases lt_or_ge v 0 with hneg | hnonneg
  · rw [if_pos hneg]
    rcases eq_or_lt_of_le hle with rfl | hmin
    · -- The least value has no opposite: its word is 1.
      norm_num [wrapInt_eq, unpackSigned]
    · rw [wrapInt_of_fits (x := -v) (by omega) (by omega), wrapInt_eq]
      split_ifs with hsign
      · have hfits : -v * 2 % 2 ^ 64 = -v * 2 := by omega
        rw [hfits, unpackSigned, if_pos (by omega), wrapInt_of_fits (by omega) (by omega)]
        omega
      · omega
  · rw [if_neg (not_lt.mpr hnonneg), wrapInt_eq]
    split_ifs with hsign
    · have hfits : v * 2 % 2 ^ 64 = v * 2 := by omega
      rw [hfits, unpackSigned, if_neg (by omega)]
      omega
    · omega

/-- What `denc_signed_varint_lowz` reads from the word. -/
def unpackSignedLowz (i : ℤ) : ℤ :=
  let v := wrapInt (i / 8 * 2 ^ (4 * (i % 8 / 2).toNat))
  if i % 2 = 1 then wrapInt (-v) else v

/-- A power of two that divides a number is among its trailing zeros. -/
theorem le_ctz {j v : ℕ} (hv : v ≠ 0) (h : 2 ^ j ∣ v) : j ≤ ctz v := by
  induction j generalizing v with
  | zero => exact Nat.zero_le _
  | succ j ih =>
    obtain ⟨m, rfl⟩ := h
    have hhalf : 2 ^ (j + 1) * m / 2 = 2 ^ j * m := by
      rw [pow_succ, Nat.mul_right_comm, Nat.mul_div_cancel _ (by norm_num)]
    have heven : ¬ 2 ^ (j + 1) * m % 2 = 1 := by
      rw [pow_succ, Nat.mul_right_comm, Nat.mul_mod_left]
      norm_num
    have hne : 2 ^ j * m ≠ 0 := by
      intro h0
      exact hv (by rw [pow_succ, Nat.mul_right_comm, h0, Nat.zero_mul])
    unfold ctz
    rw [if_neg hv, if_neg heven, hhalf]
    exact Nat.succ_le_succ (ih hne (dvd_mul_right _ _))

/-- The number of which the opposite is not a number of 64 bits. -/
def minInt : ℤ := -2 ^ 63

/-- A number that fits is itself. -/
theorem wrapInt_natCast {n : ℕ} (h : n < 2 ^ 63) : wrapInt n = n :=
  wrapInt_of_fits (by omega) (by omega)

/-- So is a negative one. -/
theorem wrapInt_neg_natCast {n : ℕ} (h : n < 2 ^ 63) : wrapInt (-(n : ℤ)) = -n :=
  wrapInt_of_fits (by omega) (by omega)

/-- What is left of the least value is negative, and its word is so too. -/
theorem signedLowzWord_minInt : signedLowzWord minInt < 0 := by
  have h3 : 3 ≤ lowZeroNibbles (2 ^ 63) := by
    have hctz : 63 ≤ ctz (2 ^ 63) := le_ctz (by norm_num) (dvd_refl _)
    unfold lowZeroNibbles
    rw [if_neg (by norm_num)]
    omega
  have hopp : wrapInt (-minInt) = minInt := by norm_num [wrapInt_eq, minInt]
  have hbits : (minInt % 2 ^ 64).toNat = 2 ^ 63 := rfl
  unfold signedLowzWord
  simp only
  rw [if_pos (by norm_num [minInt]), if_pos (by norm_num [minInt]), hopp, hbits, min_eq_right h3]
  norm_num [wrapInt_eq, minInt]

/-- Any other word has the sign, the nibbles that are left out and the rest of the size. -/
theorem signedLowzWord_eq {v : ℤ} (hlt : v.natAbs < 2 ^ 63) :
    signedLowzWord v = wrapInt ((lowzPart v.natAbs : ℤ) * 8) +
      (min (lowZeroNibbles v.natAbs) 3 : ℕ) * 2 + if v < 0 then 1 else 0 := by
  have hsize : (if v < 0 then wrapInt (-v) else v) = (v.natAbs : ℤ) := by
    split_ifs with hneg
    · rw [wrapInt_of_fits (by omega) (by omega)]
      omega
    · omega
  have hbits : ((v.natAbs : ℤ) % 2 ^ 64).toNat = v.natAbs := by omega
  unfold signedLowzWord lowzPart
  simp only
  rw [hsize, hbits]
  push_cast
  rfl

/-- `denc_signed_varint_lowz` needs four bits of the word for itself, and it cannot take the least
value. -/
theorem signedVarintLowz_exact_iff {v : ℤ} (hle : -2 ^ 63 ≤ v) (hlt : v < 2 ^ 63) :
    EndsExact putSignedVarintLowz boundSignedVarintLowz getSignedVarintLowz v ↔
      v ≠ minInt ∧ lowzPart v.natAbs < 2 ^ 60 := by
  -- The least integer has no absolute value in 64 bits.
  rcases eq_or_ne v minInt with rfl | hmin
  · refine iff_of_false ?_ (fun h => h.1 rfl)
    rintro ⟨fuel, bs, hbs, -⟩
    rw [putSignedVarintLowz, putVarintInt_neg fuel signedLowzWord_minInt] at hbs
    cases hbs
  have habs : v.natAbs < 2 ^ 63 := by
    unfold minInt at hmin
    omega
  -- The word has the sign, the count of zero nibbles and the rest of the value.
  have hword := signedLowzWord_eq habs
  obtain ⟨k, hk⟩ : ∃ k, k = min (lowZeroNibbles v.natAbs) 3 := ⟨_, rfl⟩
  have hk3 : k ≤ 3 := hk ▸ min_le_right _ _
  have hcancel : lowzPart v.natAbs * 2 ^ (4 * k) = v.natAbs := by
    rw [lowzPart, ← hk]
    exact shift_nibbles (hk ▸ min_le_left _ _)
  obtain ⟨m, hm⟩ : ∃ m, m = lowzPart v.natAbs := ⟨_, rfl⟩
  have hmle : m ≤ v.natAbs := hm ▸ Nat.div_le_self _ _
  rw [← hk, ← hm] at hword
  rw [← hm] at hcancel ⊢
  have hlt' : signedLowzWord v < 2 ^ 63 := by
    rw [hword, wrapInt_eq]
    split_ifs <;> omega
  refine (endsExact_iff putSignedVarintLowz getSignedVarintLowz unpackSignedLowz (fun _ => rfl)
    (fun _ => rfl) hlt').trans ?_
  rw [and_iff_right hmin]
  -- What is read where the word is not negative.
  have hread : ∀ x : ℕ, signedLowzWord v = x * 8 + k * 2 + (if v < 0 then 1 else 0) →
      x * 2 ^ (4 * k) < 2 ^ 63 → unpackSignedLowz (signedLowzWord v) =
        if v < 0 then -((x * 2 ^ (4 * k) : ℕ) : ℤ) else ((x * 2 ^ (4 * k) : ℕ) : ℤ) := by
    intro x hx hfits
    have hlow : (signedLowzWord v % 8 / 2).toNat = k := by
      rw [hx]
      split_ifs <;> omega
    have hhigh : signedLowzWord v / 8 = x := by
      rw [hx]
      split_ifs <;> omega
    have hodd : signedLowzWord v % 2 = 1 ↔ v < 0 := by
      rw [hx]
      split_ifs with hneg
      · exact iff_of_true (by omega) hneg
      · exact iff_of_false (by omega) hneg
    have hcast : (x : ℤ) * 2 ^ (4 * k) = ((x * 2 ^ (4 * k) : ℕ) : ℤ) := by push_cast; rfl
    unfold unpackSignedLowz
    simp only [hlow, hhigh, hodd, hcast]
    generalize x * 2 ^ (4 * k) = size at hfits
    rw [wrapInt_natCast hfits, wrapInt_neg_natCast hfits]
  have hback : ∀ x : ℕ, (if v < 0 then -((x * 2 ^ (4 * k) : ℕ) : ℤ)
      else ((x * 2 ^ (4 * k) : ℕ) : ℤ)) = v ↔ x = m := by
    intro x
    have hpos : 0 < 2 ^ (4 * k) := Nat.two_pow_pos _
    rw [← Nat.mul_left_inj hpos.ne', hcancel]
    split_ifs <;> omega
  -- A value below 2^60 keeps its bits in the word.
  by_cases hsmall : m < 2 ^ 60
  · have hw : signedLowzWord v = m * 8 + k * 2 + (if v < 0 then 1 else 0) := by
      rw [hword, wrapInt_of_fits (by omega) (by omega)]
    refine iff_of_true ⟨by rw [hw]; split_ifs <;> omega, ?_⟩ hsmall
    rw [hread m hw (by omega)]
    exact (hback m).mpr rfl
  · -- A value of this size has no low zero nibbles that are left out.
    have hk0 : k = 0 := by
      by_contra hne
      have hpow : 2 ^ 4 ≤ 2 ^ (4 * k) := Nat.pow_le_pow_right (by norm_num) (by omega)
      have hmul : m * 2 ^ 4 ≤ m * 2 ^ (4 * k) := Nat.mul_le_mul_left m hpow
      omega
    refine iff_of_false ?_ hsmall
    rintro ⟨hnonneg, hunpack⟩
    rw [hword, wrapInt_eq, hk0] at hnonneg
    rcases lt_or_ge ((m : ℤ) * 8 % 2 ^ 64) (2 ^ 63) with hsign | hsign
    · have hw : signedLowzWord v = (m % 2 ^ 61 : ℕ) * 8 + k * 2 + (if v < 0 then 1 else 0) := by
        rw [hword, wrapInt_eq, if_pos hsign]
        omega
      rw [hread _ hw (by rw [hk0]; omega), hback] at hunpack
      omega
    · rw [if_neg (not_lt.mpr hsign)] at hnonneg
      split_ifs at hnonneg <;> omega

/-- The two encoders of signed integers end, keep within their bounds, and what they write is read
back, exactly when the size of the value is below `2 ^ 62`, and below `2 ^ 60` without its low zero
nibbles. -/
theorem signed_exact_iff (v : Int64) :
    EndsExact putSignedVarint boundSignedVarint getSignedVarint v.toInt ∧
      EndsExact putSignedVarintLowz boundSignedVarintLowz getSignedVarintLowz v.toInt ↔
    v.toInt.natAbs < 2 ^ 62 ∧ lowzPart v.toInt.natAbs < 2 ^ 60 := by
  have hle : -2 ^ 63 ≤ v.toInt := v.le_toInt
  have hlt : v.toInt < 2 ^ 63 := v.toInt_lt
  rw [signedVarint_exact_iff hle hlt, signedVarintLowz_exact_iff hle hlt]
  refine and_congr_right fun habs => and_iff_right ?_
  unfold minInt
  omega

/-- For the largest value neither encoder ends. -/
theorem largest_does_not_end :
    ¬ EndsExact putSignedVarint boundSignedVarint getSignedVarint Int64.maxValue.toInt ∧
      ∀ fuel, putSignedVarint fuel Int64.maxValue.toInt = none ∧
        putSignedVarintLowz fuel Int64.maxValue.toInt = none := by
  have hmax : Int64.maxValue.toInt = 0x7FFFFFFFFFFFFFFF := rfl
  rw [hmax]
  refine ⟨?_, fun fuel => ⟨putVarintInt_neg fuel ?_, putVarintInt_neg fuel ?_⟩⟩
  · rw [signedVarint_exact_iff (by norm_num) (by norm_num)]
    norm_num
  · norm_num [signedWord, wrapInt_eq]
  · have hodd : lowZeroNibbles 0x7FFFFFFFFFFFFFFF = 0 := by
      unfold lowZeroNibbles ctz
      norm_num
    have habs : (0x7FFFFFFFFFFFFFFF : ℤ).natAbs = 0x7FFFFFFFFFFFFFFF := rfl
    rw [signedLowzWord_eq (by norm_num), lowzPart, habs, hodd]
    norm_num [wrapInt_eq]

end CxxLab.Denc
