import CxxLab.Lib.Codec
import Mathlib.Tactic

/-!
# The encoding of `common/denc.h`

Variable-length integers, strings and versioned frames, as `bluestore_onode_t` and
`bluestore_blob_t` use them. A value that is encoded is below the bound of its C++ type, so the
shifts and masks of the encoders are divisions and remainders; an `|=` whose operands have no bit in
common is an addition. A decoder stops where the program throws.
-/

namespace CxxLab.Denc

open Codec

/-! ## Variable-length integers -/

/-- `denc_varint`: seven bits a byte, least significant first; the high bit says that another byte
follows. -/
def putVarint (v : ℕ) : List UInt8 :=
  if v < 128 then [UInt8.ofNat v] else UInt8.ofNat (v % 128 + 128) :: putVarint (v / 128)
termination_by v
decreasing_by omega

/-- The loop of the decoders: the bytes are added to `v` from bit `shift` on. -/
def getVarintFrom (v shift : ℕ) : List UInt8 → Option (ℕ × List UInt8)
  | [] => none
  | b :: p =>
    if b.toNat < 128 then some (v + b.toNat * 2 ^ shift, p)
    else getVarintFrom (v + b.toNat % 128 * 2 ^ shift) (shift + 7) p

/-- `denc_varint`. -/
def getVarint (p : List UInt8) : Option (ℕ × List UInt8) := getVarintFrom 0 0 p

/-- The loop reads what was written. -/
theorem getVarintFrom_putVarint (n v shift : ℕ) (rest : List UInt8) :
    getVarintFrom v shift (putVarint n ++ rest) = some (v + n * 2 ^ shift, rest) := by
  induction n using Nat.strongRecOn generalizing v shift with
  | ind n ih =>
    unfold putVarint
    split_ifs with hn
    · have hb : (UInt8.ofNat n).toNat = n := by rw [UInt8.toNat_ofNat']; omega
      simp [getVarintFrom, hb, hn]
    · have hb : (UInt8.ofNat (n % 128 + 128)).toNat = n % 128 + 128 := by
        rw [UInt8.toNat_ofNat']
        omega
      rw [List.cons_append, getVarintFrom, hb, if_neg (by omega), ih _ (by omega)]
      have hsplit : n = n % 128 + 128 * (n / 128) := (Nat.mod_add_div n 128).symm
      have hsum : v + n % 128 * 2 ^ shift + n / 128 * 2 ^ (shift + 7) = v + n * 2 ^ shift := by
        rw [pow_add]
        conv_rhs => rw [hsplit]
        ring
      rw [Nat.add_mod_right, Nat.mod_mod, hsum]

/-- What is written is read back. -/
theorem getVarint_putVarint (n : ℕ) (rest : List UInt8) :
    getVarint (putVarint n ++ rest) = some (n, rest) := by
  rw [getVarint, getVarintFrom_putVarint]
  simp

/-- A number takes a byte at least. -/
theorem length_putVarint_pos (n : ℕ) : 0 < (putVarint n).length := by
  unfold putVarint
  split_ifs <;> simp

/-- `ctz`, of a number that is not zero. -/
def ctz (v : ℕ) : ℕ :=
  if v = 0 then 0 else if v % 2 = 1 then 0 else ctz (v / 2) + 1
termination_by v
decreasing_by omega

/-- The trailing zeros of a number are a power of two that divides it. -/
theorem two_pow_ctz_dvd (v : ℕ) : 2 ^ ctz v ∣ v := by
  induction v using Nat.strongRecOn with
  | ind v ih =>
    unfold ctz
    split_ifs with h0 h1
    · simp
    · simp
    · obtain ⟨k, hk⟩ := ih (v / 2) (by omega)
      refine ⟨k, ?_⟩
      have : v = 2 * (v / 2) := by omega
      rw [pow_succ, mul_right_comm, ← hk]
      omega

/-- The number of low zero nibbles, as the encoders count them. -/
def lowZeroNibbles (v : ℕ) : ℕ := if v = 0 then 0 else ctz v / 4

/-- The low zero nibbles can be shifted out. -/
theorem shift_nibbles {v k : ℕ} (h : k ≤ lowZeroNibbles v) : v / 2 ^ (4 * k) * 2 ^ (4 * k) = v := by
  refine Nat.div_mul_cancel (dvd_trans (Nat.pow_dvd_pow 2 ?_) (two_pow_ctz_dvd v))
  unfold lowZeroNibbles at h
  split_ifs at h
  · omega
  · omega

/-- `denc_varint_lowz`: the two low bits say how many low zero nibbles are left out. -/
def putVarintLowz (v : ℕ) : List UInt8 :=
  let lowznib := min (lowZeroNibbles v) 3
  putVarint ((v / 2 ^ (4 * lowznib) * 4 + lowznib) % 2 ^ 64)

/-- `denc_varint_lowz`. -/
def getVarintLowz (p : List UInt8) : Option (ℕ × List UInt8) :=
  (getVarint p).map fun (i, p) => (i / 4 * 2 ^ (4 * (i % 4)), p)

/-- A value that leaves room for the two bits is read back. -/
theorem getVarintLowz_putVarintLowz {v : ℕ} (hv : v < 2 ^ 62) (rest : List UInt8) :
    getVarintLowz (putVarintLowz v ++ rest) = some (v, rest) := by
  unfold putVarintLowz getVarintLowz
  obtain ⟨k, hk⟩ : ∃ k, k = min (lowZeroNibbles v) 3 := ⟨_, rfl⟩
  have hk3 : k ≤ 3 := hk ▸ min_le_right _ _
  have hcancel := shift_nibbles (hk ▸ min_le_left _ _ : k ≤ lowZeroNibbles v)
  have hle : v / 2 ^ (4 * k) ≤ v := Nat.div_le_self _ _
  rw [← hk]
  dsimp only
  rw [Nat.mod_eq_of_lt (by omega), getVarint_putVarint, Option.map_some]
  dsimp only
  rw [show (v / 2 ^ (4 * k) * 4 + k) / 4 = v / 2 ^ (4 * k) by omega,
    show (v / 2 ^ (4 * k) * 4 + k) % 4 = k by omega, hcancel]

/-- What `denc_lba` leaves of a value without low zero bits, how many bits say so, and these bits. -/
def lbaHead (v : ℕ) : ℕ × ℕ × ℕ :=
  let t := lowZeroNibbles v
  if t < 3 then (v, 3, 7)
  else if t < 6 then (v / 2 ^ (4 * t), t - 3 + 1, 2 ^ (t - 3) - 1)
  else (v / 2 ^ 20, 3, 3)

/-- `denc_lba`: a word of 31 bits, the low ones of which say how many low zero bits are left out;
the bits that it has no room for follow as in `denc_varint`. -/
def putLba (v : ℕ) : List UInt8 :=
  let (v, pos, tag) := lbaHead v
  let word := tag + v * 2 ^ pos % 0x80000000
  let v := v / 2 ^ (31 - pos)
  if v = 0 then putU32 (UInt32.ofNat word)
  else putU32 (UInt32.ofNat (word + 0x80000000)) ++ putVarint v

/-- The value in the word of `denc_lba`, and where the following bits go. -/
def lbaWord (word : ℕ) : ℕ × ℕ :=
  match word % 8 with
  | 1 | 5 => (word / 4 * 2 ^ 16, 45)
  | 3 => (word / 8 * 2 ^ 20, 48)
  | 7 => (word / 8, 28)
  | _ => (word / 2 * 2 ^ 12, 42)

/-- `denc_lba`. -/
def getLba (p : List UInt8) : Option (ℕ × List UInt8) := do
  let (word, p) ← getU32 p
  let (v, shift) := lbaWord (word.toNat % 0x80000000)
  if word.toNat < 0x80000000 then some (v, p) else getVarintFrom v shift p

/-- A word for a multiple of 4 KiB. -/
theorem lbaWord_even {w : ℕ} (h : w % 2 = 0) : lbaWord w = (w / 2 * 2 ^ 12, 42) := by
  unfold lbaWord
  split
  · omega
  · omega
  · omega
  · omega
  · rfl

/-- A word for a multiple of 64 KiB. -/
theorem lbaWord_one {w : ℕ} (h : w % 4 = 1) : lbaWord w = (w / 4 * 2 ^ 16, 45) := by
  unfold lbaWord
  rcases (by omega : w % 8 = 1 ∨ w % 8 = 5) with h | h
  · rw [h]
    rfl
  · rw [h]
    rfl

/-- A word for a multiple of 1 MiB. -/
theorem lbaWord_three {w : ℕ} (h : w % 8 = 3) : lbaWord w = (w / 8 * 2 ^ 20, 48) := by
  unfold lbaWord
  rw [h]
  rfl

/-- A word for any other number. -/
theorem lbaWord_seven {w : ℕ} (h : w % 8 = 7) : lbaWord w = (w / 8, 28) := by
  unfold lbaWord
  rw [h]
  rfl

/-- The bits of a number below and from position `r` on, shifted to the left. -/
theorem split_shift (u r b : ℕ) : u % 2 ^ r * 2 ^ b + u / 2 ^ r * 2 ^ (b + r) = u * 2 ^ b := by
  calc u % 2 ^ r * 2 ^ b + u / 2 ^ r * 2 ^ (b + r)
      = (u % 2 ^ r + u / 2 ^ r * 2 ^ r) * 2 ^ b := by
        rw [pow_add]
        ring
    _ = u * 2 ^ b := by rw [Nat.mod_add_div']

/-- The word is below its bound, and it and the following bits make up the value. -/
theorem lbaWord_lbaHead (v : ℕ) : ∃ u pos tag x shift, lbaHead v = (u, pos, tag) ∧
    tag + u * 2 ^ pos % 0x80000000 < 0x80000000 ∧ lbaWord (tag + u * 2 ^ pos % 0x80000000) = (x, shift) ∧
    x + u / 2 ^ (31 - pos) * 2 ^ shift = v := by
  unfold lbaHead
  obtain ⟨t, ht⟩ : ∃ t, t = lowZeroNibbles v := ⟨_, rfl⟩
  rw [← ht]
  dsimp only
  -- The cases are those of the low bits: `*111`, `*0`, `*01` and `*011`.
  rcases (by omega : t < 3 ∨ t = 3 ∨ t = 4 ∨ 5 ≤ t) with h | h | h | h
  · rw [if_pos h]
    have hword := lbaWord_seven (by omega : (7 + v * 2 ^ 3 % 0x80000000) % 8 = 7)
    have hdiv : (7 + v * 2 ^ 3 % 0x80000000) / 8 = v % 2 ^ 28 := by omega
    rw [hdiv] at hword
    refine ⟨v, 3, 7, _, _, rfl, by omega, hword, ?_⟩
    rw [show 31 - 3 = 28 from rfl]
    exact Nat.mod_add_div' v (2 ^ 28)
  · have hcancel := shift_nibbles (ht ▸ h.ge : 3 ≤ lowZeroNibbles v)
    rw [show 4 * 3 = 12 from rfl] at hcancel
    obtain ⟨u, hu⟩ : ∃ u, u = v / 2 ^ 12 := ⟨_, rfl⟩
    rw [← hu] at hcancel
    have hword := lbaWord_even (by omega : (0 + u * 2 ^ 1 % 0x80000000) % 2 = 0)
    have hdiv : (0 + u * 2 ^ 1 % 0x80000000) / 2 = u % 2 ^ 30 := by omega
    rw [hdiv] at hword
    have hsum : u % 2 ^ 30 * 2 ^ 12 + u / 2 ^ (31 - 1) * 2 ^ 42 = v := by
      rw [show 31 - 1 = 30 from rfl, show 42 = 12 + 30 from rfl, split_shift]
      exact hcancel
    refine ⟨u, 1, 0, _, _, ?_, by omega, hword, hsum⟩
    rw [if_neg (by omega), if_pos (by omega), h, hu]
    rfl
  · have hcancel := shift_nibbles (ht ▸ h.ge : 4 ≤ lowZeroNibbles v)
    rw [show 4 * 4 = 16 from rfl] at hcancel
    obtain ⟨u, hu⟩ : ∃ u, u = v / 2 ^ 16 := ⟨_, rfl⟩
    rw [← hu] at hcancel
    have hword := lbaWord_one (by omega : (1 + u * 2 ^ 2 % 0x80000000) % 4 = 1)
    have hdiv : (1 + u * 2 ^ 2 % 0x80000000) / 4 = u % 2 ^ 29 := by omega
    rw [hdiv] at hword
    have hsum : u % 2 ^ 29 * 2 ^ 16 + u / 2 ^ (31 - 2) * 2 ^ 45 = v := by
      rw [show 31 - 2 = 29 from rfl, show 45 = 16 + 29 from rfl, split_shift]
      exact hcancel
    refine ⟨u, 2, 1, _, _, ?_, by omega, hword, hsum⟩
    rw [if_neg (by omega), if_pos (by omega), h, hu]
    rfl
  · have hcancel := shift_nibbles (ht ▸ h : 5 ≤ lowZeroNibbles v)
    rw [show 4 * 5 = 20 from rfl] at hcancel
    obtain ⟨u, hu⟩ : ∃ u, u = v / 2 ^ 20 := ⟨_, rfl⟩
    rw [← hu] at hcancel
    have hword := lbaWord_three (by omega : (3 + u * 2 ^ 3 % 0x80000000) % 8 = 3)
    have hdiv : (3 + u * 2 ^ 3 % 0x80000000) / 8 = u % 2 ^ 28 := by omega
    rw [hdiv] at hword
    have hsum : u % 2 ^ 28 * 2 ^ 20 + u / 2 ^ (31 - 3) * 2 ^ 48 = v := by
      rw [show 31 - 3 = 28 from rfl, show 48 = 20 + 28 from rfl, split_shift]
      exact hcancel
    refine ⟨u, 3, 3, _, _, ?_, by omega, hword, hsum⟩
    rw [if_neg (by omega), hu]
    split_ifs with h6
    · rw [show t = 5 by omega]
      rfl
    · rfl

/-- What is read after the word. -/
theorem getLba_word {w x shift : ℕ} (hlt : w < 0x100000000)
    (hword : lbaWord (w % 0x80000000) = (x, shift)) (p : List UInt8) :
    getLba (putU32 (UInt32.ofNat w) ++ p) =
      if w < 0x80000000 then some (x, p) else getVarintFrom x shift p := by
  have hw : (UInt32.ofNat w).toNat = w := by
    rw [UInt32.toNat_ofNat']
    exact Nat.mod_eq_of_lt hlt
  unfold getLba
  rw [getU32_putU32, Option.bind_eq_bind, Option.bind_some]
  dsimp only
  rw [hw, hword]

/-- What is written is read back. -/
theorem getLba_putLba (v : ℕ) (rest : List UInt8) : getLba (putLba v ++ rest) = some (v, rest) := by
  obtain ⟨u, pos, tag, x, shift, hhead, hlt, hword, hsum⟩ := lbaWord_lbaHead v
  unfold putLba
  rw [hhead]
  dsimp only
  split_ifs with hu
  · rw [← Nat.mod_eq_of_lt hlt] at hword
    rw [getLba_word (by omega) hword, if_pos hlt, ← hsum, hu]
    simp
  · obtain ⟨w, hw⟩ : ∃ w, w = tag + u * 2 ^ pos % 0x80000000 + 0x80000000 := ⟨_, rfl⟩
    have hmod : w % 0x80000000 = tag + u * 2 ^ pos % 0x80000000 := by omega
    rw [← hmod] at hword
    rw [← hw, List.append_assoc, getLba_word (by omega) hword, if_neg (by omega),
      getVarintFrom_putVarint, hsum]

/-- An address takes a byte at least. -/
theorem length_putLba_pos (v : ℕ) : 0 < (putLba v).length := by
  unfold putLba
  dsimp only
  split_ifs <;> simp

/-! ## Strings and frames -/

/-- A string or a `buffer::ptr`: its length and its bytes. -/
def putBytes (bs : List UInt8) : List UInt8 := putU32 (UInt32.ofNat bs.length) ++ bs

/-- A string or a `buffer::ptr`. -/
def getBytesOf (p : List UInt8) : Option (List UInt8 × List UInt8) := do
  let (len, p) ← getU32 p
  getBytes len.toNat p

/-- What is written is read back. -/
theorem getBytesOf_putBytes {bs : List UInt8} (h : (putBytes bs).length < 2 ^ 32)
    (rest : List UInt8) : getBytesOf (putBytes bs ++ rest) = some (bs, rest) := by
  unfold putBytes at h ⊢
  rw [List.length_append, length_putU32] at h
  have hlen : (UInt32.ofNat bs.length).toNat = bs.length := by
    rw [UInt32.toNat_ofNat']
    omega
  simp [getBytesOf, hlen]

/-- A container: the number of its elements, and the elements. -/
def putList {α : Type} (put : α → List UInt8) (as : List α) : List UInt8 :=
  putU32 (UInt32.ofNat as.length) ++ as.flatMap put

/-- A container. -/
def getList {α : Type} (get : List UInt8 → Option (α × List UInt8)) (p : List UInt8) :
    Option (List α × List UInt8) := do
  let (num, p) ← getU32 p
  getMany get num.toNat p

/-- A list is read back if its elements are. -/
theorem getList_putList {α β : Type} {put : α → List UInt8}
    {get : List UInt8 → Option (β × List UInt8)} {f : α → β} {as : List α}
    (hput : ∀ a, 0 < (put a).length) (h : (putList put as).length < 2 ^ 32)
    (hget : ∀ a ∈ as, (put a).length < 2 ^ 32 → ∀ rest, get (put a ++ rest) = some (f a, rest))
    (rest : List UInt8) : getList get (putList put as ++ rest) = some (as.map f, rest) := by
  unfold putList at h ⊢
  rw [List.length_append, length_putU32] at h
  have hcard := card_le_flatMap hput as
  have hnum : (UInt32.ofNat as.length).toNat = as.length := by
    rw [UInt32.toNat_ofNat']
    omega
  have hmany : getMany get as.length (as.flatMap put ++ rest) = some (as.map f, rest) :=
    getMany_flatMap rest fun a ha => hget a ha (by
      have : (put a).length ≤ (as.flatMap put).length := length_le_flatMap ha
      omega)
  simp [getList, hnum, hmany]

/-- `DENC_START` and `DENC_FINISH` around what an encoder writes. -/
def putFrame (version compat : UInt8) (body : List UInt8) : List UInt8 :=
  putU8 version ++ putU8 compat ++ putU32 (UInt32.ofNat body.length) ++ body

/-- `DENC_START` and `DENC_FINISH` around a decoder: it may not read beyond the length that was
stored, and what it leaves of it is skipped. -/
def getFrame {α : Type} (get : List UInt8 → Option (α × List UInt8)) (p : List UInt8) :
    Option (α × List UInt8) := do
  let (_, p) ← getU8 p
  let (_, p) ← getU8 p
  let (len, p) ← getU32 p
  let (a, q) ← get p
  let used := p.length - q.length
  if len.toNat < used then none
  else
    let (_, q) ← getBytes (len.toNat - used) q
    some (a, q)

/-- A frame is read back if its body is. -/
theorem getFrame_putFrame {α : Type} {get : List UInt8 → Option (α × List UInt8)}
    {version compat : UInt8} {body : List UInt8} {a : α}
    (h : (putFrame version compat body).length < 2 ^ 32)
    (hget : ∀ rest, get (body ++ rest) = some (a, rest)) (rest : List UInt8) :
    getFrame get (putFrame version compat body ++ rest) = some (a, rest) := by
  unfold putFrame at h ⊢
  simp only [List.length_append, length_putU8, length_putU32] at h
  have hlen : (UInt32.ofNat body.length).toNat = body.length := by
    rw [UInt32.toNat_ofNat']
    omega
  simp [getFrame, hlen, hget, getBytes]

end CxxLab.Denc
