import CxxLab.Lib.SortedList
import CxxLab.Lib.Runs

/-!
# The freelist manager

`BitmapFreelistManager`. A key stands for 128 blocks, its value has one bit for each, and a set bit
is an allocated block; a key that is not there stands for free blocks. `allocate` and `release` are
the same: `_xor` merges the bits of the range into the values, and the merge operator of the store
is `xor`. A value is a `BitVec 128` here, with bit `i` for bit `i % 8` of its byte `i / 8`, and a
key is the number that its eight bytes encode, since these have the most significant byte first.

Numbers are `uint64_t`, with `wrap` where the program can overflow.
-/

namespace CxxLab.Bluestore.Freelist

/-- The value of a key. -/
abbrev Bits := BitVec 128

/-- What an `uint64_t` keeps of a number. -/
def wrap (n : ℕ) : ℕ := n % 0x10000000000000000

/-- `~(g - 1)`. -/
def mask (g : ℕ) : ℕ := wrap (0x10000000000000000 - g)

/-- `~mask`. -/
def unmask (mask : ℕ) : ℕ := 0xFFFFFFFFFFFFFFFF - mask

/-- `is_power_of_2`. -/
def isPowerOf2 (v : ℕ) : Bool := v ≠ 0 ∧ v &&& (v - 1) = 0

/-- The fields of `BitmapFreelistManager` that are written down. `blocks_per_key_` is 128. -/
structure Manager where
  /-- `size_`. -/
  size : ℕ
  /-- `bytes_per_block_`. -/
  bytesPerBlock : ℕ
  /-- `blocks_`. -/
  blocks : ℕ
  deriving DecidableEq

namespace Manager

variable (m : Manager)

/-- `block_mask_`. -/
def blockMask : ℕ := mask m.bytesPerBlock

/-- `bytes_per_key_`. -/
def bytesPerKey : ℕ := wrap (m.bytesPerBlock * 128)

/-- `key_mask_`. -/
def keyMask : ℕ := mask m.bytesPerKey

/-- `get_alloc_units() * bytes_per_block_`. -/
def allocBytes : ℕ := wrap (m.blocks * m.bytesPerBlock)

/-- `_get_offset`. -/
def getOffset (keyOff bit : ℕ) : ℕ := wrap (keyOff + bit * m.bytesPerBlock)

end Manager

/-- The loops of `_xor` over bits: `n` of them from `s` on are turned over. -/
def turnBits (s n : ℕ) : Bits := (List.range' s n).foldl (fun p i => p ^^^ (1#128 <<< i)) 0

/-- The loop of `_xor` over the keys from `first` to before `last`, and where it ends. A turn
advances by at least one, so `fuel` is enough when it is the distance. -/
def middleKeys (bytesPerKey last : ℕ) : ℕ → ℕ → List ℕ × ℕ
  | 0, first => ([], first)
  | fuel + 1, first =>
    if first < last then
      let r := middleKeys bytesPerKey last fuel (wrap (first + bytesPerKey))
      (first :: r.1, r.2)
    else ([], first)

/-- `_xor`: what it merges, or `none` when an assertion fails. -/
def xor (m : Manager) (offset length : ℕ) : Option (List (ℕ × Bits)) :=
  if offset &&& m.blockMask ≠ offset then none
  else if length &&& m.blockMask ≠ length then none
  else
    let last := wrap (offset + length + 0xFFFFFFFFFFFFFFFF)
    let firstKey := offset &&& m.keyMask
    let lastKey := last &&& m.keyMask
    let s := (offset &&& unmask m.keyMask) / m.bytesPerBlock
    let e := (last &&& unmask m.keyMask) / m.bytesPerBlock
    if firstKey = lastKey then some [(firstKey, turnBits s (e + 1 - s))]
    else
      let next := wrap (firstKey + m.bytesPerKey)
      let r := middleKeys m.bytesPerKey lastKey (lastKey - next) next
      if r.2 ≠ lastKey then none
      else some ((firstKey, turnBits s (128 - s)) :: r.1.map (·, BitVec.allOnes 128) ++
        [(lastKey, turnBits 0 (e + 1))])

/-- `_size_2_block_count`. -/
def size2BlockCount (bytesPerBlock targetSize : ℕ) : ℕ :=
  let targetBlocks := targetSize / bytesPerBlock
  if targetBlocks / 128 * 128 ≠ targetBlocks then wrap ((targetBlocks / 128 + 1) * 128)
  else targetBlocks

/-- The keys of the bitmap, in their order. -/
abbrev Bitmap := SortedList (Prod.fst : ℕ × Bits → ℕ)

/-- The store applies the merges of a transaction. -/
def commit (kv : Bitmap) (merges : List (ℕ × Bits)) : Bitmap :=
  merges.foldl (fun kv r => kv.mergeWith (· ^^^ ·) r.1 r.2) kv

/-- `create`: the manager, and the merges of the transaction. -/
def create (newSize granularity : ℕ) : Option (Manager × List (ℕ × Bits)) :=
  if isPowerOf2 granularity then
    let size := newSize &&& mask granularity
    let m : Manager :=
      { size := size
        bytesPerBlock := granularity
        blocks := size2BlockCount granularity size }
    let tail := if m.allocBytes > size then xor m size (m.allocBytes - size) else some []
    tail.bind fun tail => (xor m 0 granularity).map fun first => (m, tail ++ first)
  else none

/-! ## Enumeration -/

/-- Where an enumeration is. -/
structure Enum where
  /-- `enumerate_offset_`. -/
  offset : ℕ
  /-- `enumerate_bl_pos_`. -/
  pos : ℕ
  /-- `enumerate_bl_`; `none` when it was cleared. -/
  bl : Option Bits
  /-- `enumerate_p_`: the keys from the one that the iterator is at. -/
  p : List (ℕ × Bits)

/-- `enumerate_reset`. -/
def enumerateReset : Enum := ⟨0, 0, none, []⟩

/-- `get_next_clear_bit` and `get_next_set_bit`: the first bit from `start` on that is `bit`. -/
def getNextBit (bit : Bool) (bl : Option Bits) (start : ℕ) : Option ℕ :=
  bl.bind fun v => (List.range' start (128 - start)).find? fun i => v.getLsbD i == bit

/-- The first loop of `enumerate_next`: where the free run begins. -/
def findClear (m : Manager) : ℕ → ℕ → Option Bits → List (ℕ × Bits) → ℕ × Enum
  | offset, pos, bl, [] =>
    match getNextBit false bl pos with
    | some i => (m.getOffset offset i, ⟨offset, i, bl, []⟩)
    | none =>
      let o := wrap (offset + m.bytesPerKey)
      (m.getOffset o 0, ⟨o, 0, none, []⟩)
  | offset, pos, bl, c :: p =>
    match getNextBit false bl pos with
    | some i => (m.getOffset offset i, ⟨offset, i, bl, c :: p⟩)
    | none =>
      match p with
      | [] =>
        let o := wrap (offset + m.bytesPerKey)
        (m.getOffset o 0, ⟨o, 0, none, []⟩)
      | (k, v) :: q =>
        let next := wrap (offset + m.bytesPerKey)
        if k > next then (next, ⟨k, 0, some v, (k, v) :: q⟩)
        else findClear m k 0 (some v) ((k, v) :: q)

/-- The second loop of `enumerate_next`: where the free run ends, if a set bit ends it. -/
def findSet (m : Manager) : ℕ → ℕ → Option Bits → List (ℕ × Bits) → Option ℕ × Enum
  | offset, pos, bl, [] =>
    match getNextBit true bl pos with
    | some i => (some (min m.allocBytes (m.getOffset offset i)), ⟨offset, i, bl, []⟩)
    | none => (none, ⟨offset, 0, none, []⟩)
  | offset, pos, bl, c :: p =>
    match getNextBit true bl pos with
    | some i => (some (min m.allocBytes (m.getOffset offset i)), ⟨offset, i, bl, c :: p⟩)
    | none =>
      match p with
      | [] => (none, ⟨offset, 0, none, []⟩)
      | (k, v) :: q => findSet m k 0 (some v) ((k, v) :: q)

/-- `enumerate_next` behind its two loops, when no set bit has ended the run from `o` on. -/
def runToEnd (m : Manager) (o : ℕ) (e : Enum) : Option (ℕ × ℕ) × Enum :=
  if e.offset < m.size then
    (some (o, wrap (m.allocBytes + 0x10000000000000000 - o)), { e with offset := m.size, pos := 128 })
  else (none, e)

/-- `enumerate_next` once the iterator is there: a run, if there is one more, and the new state. -/
def enumerateBody (m : Manager) (e : Enum) : Option (ℕ × ℕ) × Enum :=
  if e.offset ≥ m.size then (none, e)
  else
    let r := findClear m e.offset e.pos e.bl e.p
    let o := r.1
    let e := r.2
    if e.p = [] then runToEnd m o e
    else
      match findSet m e.offset e.pos e.bl e.p with
      | (some «end», e) => (some (o, wrap («end» + 0x10000000000000000 - o)), e)
      | (none, e) => runToEnd m o e

/-- `enumerate_next`: a run, or the end. `none` when the assertion fails. -/
def enumerateNext (m : Manager) (kv : Bitmap) (e : Enum) : Option (Option (ℕ × ℕ) × Enum) :=
  if e.offset = 0 ∧ e.pos = 0 then
    match kv.toList with
    | [] => some (none, { e with p := [] })
    | (k, v) :: p => if k ≠ 0 then none else some (enumerateBody m ⟨k, 0, some v, (k, v) :: p⟩)
  else some (enumerateBody m e)

/-- Calls `enumerate_next` until it reports the end, at most `fuel` times. -/
def enumerate (m : Manager) (kv : Bitmap) : ℕ → Enum → Option (List (ℕ × ℕ))
  | 0, _ => none
  | fuel + 1, e =>
    match enumerateNext m kv e with
    | none => none
    | some (none, _) => some []
    | some (some r, e) => (enumerate m kv fuel e).map (r :: ·)

/-! ## Words -/

/-- A number that fits is itself. -/
theorem wrap_of_lt {n : ℕ} (h : n < 0x10000000000000000) : wrap n = n := Nat.mod_eq_of_lt h

/-- A difference that is not negative is exact. -/
theorem wrap_sub {x y : ℕ} (hle : y ≤ x) (hx : x < 0x10000000000000000) :
    wrap (x + 0x10000000000000000 - y) = x - y := by
  unfold wrap
  omega

/-- The mask of a power of two rounds down. -/
theorem and_mask {k x : ℕ} (hk : k < 64) (hx : x < 0x10000000000000000) :
    x &&& mask (2 ^ k) = x / 2 ^ k * 2 ^ k := by
  have hpos : 0 < 2 ^ k := Nat.two_pow_pos k
  have hm : mask (2 ^ k) = (2 ^ (64 - k) - 1) <<< k := by
    have hsplit : 2 ^ (64 - k) * 2 ^ k = 0x10000000000000000 := by
      rw [← pow_add, Nat.sub_add_cancel hk.le]
      norm_num
    unfold mask
    rw [wrap_of_lt (by omega), Nat.shiftLeft_eq, Nat.sub_mul, hsplit, one_mul]
  rw [hm]
  refine Nat.eq_of_testBit_eq fun i => ?_
  rw [Nat.testBit_and, Nat.testBit_shiftLeft, Nat.testBit_two_pow_sub_one, Nat.testBit_mul_two_pow]
  by_cases hi : k ≤ i
  · rw [Nat.testBit_div_two_pow, Nat.sub_add_cancel hi]
    by_cases h64 : i < 64
    · simp [hi, show i - k < 64 - k by omega]
    · have hz : x.testBit i = false := Nat.testBit_lt_two_pow (lt_of_lt_of_le hx
        (by rw [show (0x10000000000000000 : ℕ) = 2 ^ 64 by norm_num]
            exact Nat.pow_le_pow_right (by norm_num) (by omega)))
      simp [hz]
  · simp [hi]

/-- The low bits of a number are its remainder. -/
theorem and_unmask {k : ℕ} (x : ℕ) (hk : k < 64) :
    x &&& unmask (mask (2 ^ k)) = x % 2 ^ k := by
  have hpos : 0 < 2 ^ k := Nat.two_pow_pos k
  have hle : 2 ^ k < 0x10000000000000000 := by
    calc 2 ^ k < 2 ^ 64 := Nat.pow_lt_pow_right (by norm_num) hk
      _ = _ := by norm_num
  have hm : unmask (mask (2 ^ k)) = 2 ^ k - 1 := by
    unfold unmask mask
    rw [wrap_of_lt (by omega)]
    omega
  rw [hm, Nat.and_two_pow_sub_one_eq_mod]
/-- The bits that a loop turns over. -/
theorem getLsbD_turnBits (s n : ℕ) {i : ℕ} (hi : i < 128) :
    (turnBits s n).getLsbD i = decide (s ≤ i ∧ i < s + n) := by
  have hloop : ∀ (n s : ℕ) (p : Bits),
      ((List.range' s n).foldl (fun p i => p ^^^ (1#128 <<< i)) p).getLsbD i =
        (p.getLsbD i ^^ decide (s ≤ i ∧ i < s + n)) := by
    intro n
    induction n with
    | zero =>
      intro s p
      have hno : ¬(s ≤ i ∧ i < s + 0) := by omega
      simp only [List.range'_zero, List.foldl_nil, hno, decide_false, Bool.xor_false]
    | succ n ih =>
      intro s p
      have hbit : (1#128 <<< s).getLsbD i = decide (i = s) := by
        rw [BitVec.getLsbD_shiftLeft, BitVec.getLsbD_one]
        simp only [hi, decide_true, Bool.true_and]
        by_cases h : i = s
        · simp [h]
        · by_cases hlt : i < s
          · simp [h, hlt]
          · simp [h, hlt, show i - s ≠ 0 by omega]
      rw [List.range'_succ, List.foldl_cons, ih, BitVec.getLsbD_xor, hbit, Bool.xor_assoc]
      congr 1
      by_cases h : i = s
      · simp [h, show ¬(s + 1 ≤ s) by omega]
      · have hiff : (s + 1 ≤ i ∧ i < s + 1 + n) ↔ (s ≤ i ∧ i < s + (n + 1)) := by omega
        simp only [h, decide_false, Bool.false_xor, hiff]
  simpa [turnBits] using hloop n s 0

/-- The loop over the keys goes through every key between the two. -/
theorem middleKeys_eq {K a b : ℕ} (fuel : ℕ) (hK : 0 < K) (hab : a ≤ b) (hb : b * K < 0x10000000000000000)
    (hfuel : b - a ≤ fuel) : middleKeys K (b * K) fuel (a * K) =
      ((List.range' a (b - a)).map (· * K), b * K) := by
  induction fuel generalizing a with
  | zero =>
    obtain rfl : a = b := by omega
    simp [middleKeys]
  | succ fuel ih =>
    unfold middleKeys
    by_cases hlt : a < b
    · have hstep : a * K + K = (a + 1) * K := by ring
      have hle : (a + 1) * K ≤ b * K := Nat.mul_le_mul_right K hlt
      rw [if_pos ((Nat.mul_lt_mul_right hK).mpr hlt), hstep, wrap_of_lt (by omega),
        ih hlt (by omega), show b - a = b - (a + 1) + 1 by omega, List.range'_succ]
      rfl
    · obtain rfl : a = b := by omega
      simp

/-! ## What a transaction turns over -/

/-- Whether the merges together turn over bit `i` of key `k`. -/
def flips (k i : ℕ) : List (ℕ × Bits) → Bool
  | [] => false
  | r :: l => (decide (r.1 = k) && r.2.getLsbD i) ^^ flips k i l

/-- Merges are done one after the other. -/
theorem flips_append (k i : ℕ) (l l' : List (ℕ × Bits)) :
    flips k i (l ++ l') = (flips k i l ^^ flips k i l') := by
  induction l with
  | nil => simp [flips]
  | cons r l ih => rw [List.cons_append, flips, ih, flips, Bool.xor_assoc]

/-- Whole keys are turned over once each. -/
theorem flips_keys {K : ℕ} (hK : 0 < K) (j : ℕ) {i : ℕ} (hi : i < 128) (a n : ℕ) :
    flips (j * K) i (((List.range' a n).map (· * K)).map (·, BitVec.allOnes 128)) =
      decide (a ≤ j ∧ j < a + n) := by
  induction n generalizing a with
  | zero => simp [flips]
  | succ n ih =>
    have hinj : a * K = j * K ↔ a = j := Nat.mul_left_inj hK.ne'
    rw [List.range'_succ, List.map_cons, List.map_cons, flips, ih, BitVec.getLsbD_allOnes]
    simp only [hinj, hi, decide_true, Bool.and_true]
    by_cases h : a = j
    · simp [h]
    · have hiff : (a + 1 ≤ j ∧ j < a + 1 + n) ↔ (a ≤ j ∧ j < a + (n + 1)) := by omega
      simp only [h, decide_false, Bool.false_xor, hiff]

/-- Whether block `b` is marked as allocated. -/
def used (kv : List (ℕ × Bits)) (K b : ℕ) : Bool :=
  (SortedList.valueD kv (b / 128 * K) 0).getLsbD (b % 128)

/-- The store turns over what the merges say. -/
theorem used_commit (kv : Bitmap) (merges : List (ℕ × Bits)) (K b : ℕ) :
    used (commit kv merges).toList K b =
      (used kv.toList K b ^^ flips (b / 128 * K) (b % 128) merges) := by
  induction merges generalizing kv with
  | nil => simp [commit, flips]
  | cons r merges ih =>
    have hstep : used (kv.mergeWith (· ^^^ ·) r.1 r.2).toList K b =
        (used kv.toList K b ^^ (decide (r.1 = b / 128 * K) && r.2.getLsbD (b % 128))) := by
      unfold used
      have hval := SortedList.valueD_mergeInto (f := (· ^^^ ·)) (d := (0 : Bits))
        (fun v => BitVec.zero_xor) r.1 r.2 kv.sorted (b / 128 * K)
      rw [SortedList.mergeWith, hval]
      by_cases h : b / 128 * K = r.1
      · rw [if_pos h, BitVec.getLsbD_xor, h]
        simp
      · rw [if_neg h]
        simp [Ne.symm h]
    rw [commit, List.foldl_cons, ← commit, ih, hstep, flips, Bool.xor_assoc]

/-- A record after a commit was there, or is of a key that was merged. -/
theorem mem_commit {kv : Bitmap} {merges : List (ℕ × Bits)} {r : ℕ × Bits}
    (h : r ∈ (commit kv merges).toList) : r ∈ kv.toList ∨ ∃ r' ∈ merges, r.1 = r'.1 := by
  induction merges generalizing kv with
  | nil => exact .inl h
  | cons a merges ih =>
    rcases ih h with h | ⟨r', hr', h⟩
    · rcases SortedList.mem_mergeInto h with h | h
      · exact .inr ⟨a, List.mem_cons_self, h⟩
      · exact .inl h
    · exact .inr ⟨r', List.mem_cons_of_mem _ hr', h⟩

/-! ## The geometry of a device -/

/-- A device of `n` blocks, whose size rounded up to whole keys is still an `uint64_t`. -/
structure Geometry (m : Manager) (n : ℕ) : Prop where
  /-- A block is a power of two. -/
  block : ∃ k, m.bytesPerBlock = 2 ^ k
  /-- There is a block. -/
  pos : 0 < n
  /-- The size is that of the blocks. -/
  size : m.size = n * m.bytesPerBlock
  /-- `blocks_` is rounded up to whole keys. -/
  blocks : m.blocks = (n + 127) / 128 * 128
  /-- There is no overflow. -/
  fits : m.blocks * m.bytesPerBlock < 0x10000000000000000

namespace Geometry

variable {m : Manager} {n : ℕ} (h : Geometry m n)

include h

/-- A block is not empty. -/
theorem bytesPerBlock_pos : 0 < m.bytesPerBlock := by
  obtain ⟨k, hk⟩ := h.block
  rw [hk]
  exact Nat.two_pow_pos k

/-- A bitmap has one key at least. -/
theorem key_le : 128 * m.bytesPerBlock ≤ m.blocks * m.bytesPerBlock := by
  have hpos := h.pos
  have hb := h.blocks
  exact Nat.mul_le_mul_right _ (by omega)

/-- A key stands for 128 blocks. -/
theorem bytesPerKey : m.bytesPerKey = 128 * m.bytesPerBlock := by
  unfold Manager.bytesPerKey
  rw [mul_comm]
  exact wrap_of_lt (lt_of_le_of_lt h.key_le h.fits)

/-- A key stands for some bytes. -/
theorem bytesPerKey_pos : 0 < m.bytesPerKey := by
  rw [h.bytesPerKey]
  exact Nat.mul_pos (by norm_num) h.bytesPerBlock_pos

/-- The bitmap stands for whole keys. -/
theorem allocBytes : m.allocBytes = m.blocks * m.bytesPerBlock := wrap_of_lt h.fits

/-- The exponents of the block and of the key. -/
theorem exists_pow : ∃ k, k + 7 < 64 ∧ m.bytesPerBlock = 2 ^ k ∧ m.bytesPerKey = 2 ^ (k + 7) := by
  obtain ⟨k, hk⟩ := h.block
  have hkey : m.bytesPerKey = 2 ^ (k + 7) := by
    rw [h.bytesPerKey, hk, pow_add, mul_comm]
    norm_num
  refine ⟨k, ?_, hk, hkey⟩
  have hlt : 2 ^ (k + 7) < 2 ^ 64 := by
    rw [← hkey, h.bytesPerKey]
    exact lt_of_lt_of_eq (lt_of_le_of_lt h.key_le h.fits) (by norm_num)
  exact (Nat.pow_lt_pow_iff_right (by norm_num)).mp hlt

/-- A whole number of blocks within the keys is an `uint64_t`. -/
theorem mul_lt {a : ℕ} (ha : a ≤ m.blocks) : a * m.bytesPerBlock < 0x10000000000000000 :=
  lt_of_le_of_lt (Nat.mul_le_mul_right _ ha) h.fits

/-- The mask of a block leaves whole blocks. -/
theorem and_blockMask {a : ℕ} (ha : a ≤ m.blocks) :
    a * m.bytesPerBlock &&& m.blockMask = a * m.bytesPerBlock := by
  obtain ⟨k, hk, hb, -⟩ := h.exists_pow
  have hlt := h.mul_lt ha
  unfold Manager.blockMask
  rw [hb] at hlt ⊢
  rw [and_mask (by omega) hlt, Nat.mul_div_cancel _ (Nat.two_pow_pos k)]

/-- The key of an offset in block `a`, and the bit of the block. -/
theorem key_of {a x : ℕ} (ha : a < m.blocks) (hlo : a * m.bytesPerBlock ≤ x)
    (hhi : x < (a + 1) * m.bytesPerBlock) :
    x &&& m.keyMask = a / 128 * m.bytesPerKey ∧
      (x &&& unmask m.keyMask) / m.bytesPerBlock = a % 128 := by
  obtain ⟨k, hk, hb, hK⟩ := h.exists_pow
  have hlt : x < 0x10000000000000000 := hhi.trans (h.mul_lt ha)
  have hdiv : x / m.bytesPerBlock = a := Nat.div_eq_of_lt_le hlo hhi
  have hkey : m.bytesPerKey = m.bytesPerBlock * 128 := by rw [h.bytesPerKey, mul_comm]
  unfold Manager.keyMask
  constructor
  · rw [hK, and_mask hk hlt, ← hK, hkey, ← Nat.div_div_eq_div_mul, hdiv]
  · rw [hK, and_unmask x hk, ← hK, hkey, Nat.mod_mul_right_div_self, hdiv]

end Geometry

/-- Three cases that exclude each other. -/
theorem xor_decide {A B C D : Prop} [Decidable A] [Decidable B] [Decidable C] [Decidable D]
    (hab : ¬(A ∧ B)) (hac : ¬(A ∧ C)) (hbc : ¬(B ∧ C)) (hd : A ∨ B ∨ C ↔ D) :
    ((decide A ^^ decide B) ^^ decide C) = decide D := by
  by_cases hA : A <;> by_cases hB : B <;> by_cases hC : C <;> simp_all

/-- `_xor` turns over the blocks of a range that is not empty, across any number of keys. -/
theorem xor_spec {m : Manager} {n : ℕ} (h : Geometry m n) {a c : ℕ} (hc : 0 < c)
    (hac : a + c ≤ m.blocks) :
    ∃ merges, xor m (a * m.bytesPerBlock) (c * m.bytesPerBlock) = some merges ∧
      (∀ b, flips (b / 128 * m.bytesPerKey) (b % 128) merges = decide (a ≤ b ∧ b < a + c)) ∧
      ∀ r ∈ merges, ∃ j, r.1 = j * m.bytesPerKey ∧ j * 128 < m.blocks := by
  have hg := h.bytesPerBlock_pos
  have hK := h.bytesPerKey_pos
  have hlt : (a + c) * m.bytesPerBlock < 0x10000000000000000 := h.mul_lt hac
  -- The last byte of the range is in its last block.
  obtain ⟨t, ht⟩ : ∃ t, a + c = t + 1 := ⟨a + c - 1, by omega⟩
  rw [ht] at hlt
  have hlast : wrap (a * m.bytesPerBlock + c * m.bytesPerBlock + 0xFFFFFFFFFFFFFFFF) =
      (t + 1) * m.bytesPerBlock - 1 := by
    have hpos : 0 < (t + 1) * m.bytesPerBlock := Nat.mul_pos (by omega) hg
    rw [← Nat.add_mul, ht]
    unfold wrap
    omega
  have hlo : t * m.bytesPerBlock ≤ (t + 1) * m.bytesPerBlock - 1 := by
    have hexp : (t + 1) * m.bytesPerBlock = t * m.bytesPerBlock + m.bytesPerBlock := by ring
    omega
  have hhi : (t + 1) * m.bytesPerBlock - 1 < (t + 1) * m.bytesPerBlock :=
    Nat.sub_lt (Nat.mul_pos (by omega) hg) (by norm_num)
  -- The keys of the first and of the last block.
  obtain ⟨hk1, hb1⟩ := h.key_of (a := a) (x := a * m.bytesPerBlock) (by omega) le_rfl
    ((Nat.mul_lt_mul_right hg).mpr (by omega))
  obtain ⟨hk2, hb2⟩ := h.key_of (a := t) (by omega) hlo hhi
  have hinj : ∀ i j, i * m.bytesPerKey = j * m.bytesPerKey ↔ i = j :=
    fun i j => Nat.mul_left_inj hK.ne'
  unfold xor
  rw [if_neg (not_not.mpr (h.and_blockMask (by omega))),
    if_neg (not_not.mpr (h.and_blockMask (by omega)))]
  simp only [hlast, hk1, hb1, hk2, hb2, hinj]
  -- Both blocks are of one key.
  by_cases hkey : a / 128 = t / 128
  · rw [if_pos hkey]
    refine ⟨_, rfl, fun b => ?_, ?_⟩
    · have hi : b % 128 < 128 := Nat.mod_lt _ (by norm_num)
      rw [flips, flips, getLsbD_turnBits _ _ hi, Bool.xor_false, ← Bool.decide_and]
      simp only [hinj]
      exact decide_eq_decide.mpr (by omega)
    · intro r hr
      rw [List.mem_singleton.mp hr]
      exact ⟨a / 128, rfl, by omega⟩
  -- The range goes over at least two keys.
  · have hklt : a / 128 < t / 128 := by omega
    have hnext : wrap (a / 128 * m.bytesPerKey + m.bytesPerKey) = (a / 128 + 1) * m.bytesPerKey := by
      rw [← Nat.succ_mul]
      refine wrap_of_lt (lt_of_le_of_lt (Nat.mul_le_mul_right _ (Nat.succ_le_of_lt hklt)) ?_)
      rw [← hk2]
      exact lt_of_le_of_lt Nat.and_le_left (by omega)
    -- The keys between them are turned over whole.
    have hmid := middleKeys_eq (a := a / 128 + 1) (b := t / 128)
      (t / 128 * m.bytesPerKey - (a / 128 + 1) * m.bytesPerKey) hK hklt
      (by rw [← hk2]; exact lt_of_le_of_lt Nat.and_le_left (by omega))
      (by rw [← Nat.sub_mul]; exact Nat.le_mul_of_pos_right _ hK)
    rw [if_neg hkey, hnext, hmid, if_neg (not_not.mpr rfl)]
    refine ⟨_, rfl, fun b => ?_, ?_⟩
    · have hi : b % 128 < 128 := Nat.mod_lt _ (by norm_num)
      rw [flips_append, flips, flips_keys hK _ hi, flips, flips, getLsbD_turnBits _ _ hi,
        getLsbD_turnBits _ _ hi, Bool.xor_false, ← Bool.decide_and, ← Bool.decide_and]
      simp only [hinj]
      -- The first key, the keys between and the last key do not overlap.
      exact xor_decide (by omega) (by omega) (by omega) (by omega)
    · intro r hr
      rcases List.mem_append.mp hr with hr | hr
      · rcases List.mem_cons.mp hr with rfl | hr
        · exact ⟨a / 128, rfl, by omega⟩
        · obtain ⟨x, hx, rfl⟩ := List.mem_map.mp hr
          obtain ⟨j, hj, rfl⟩ := List.mem_map.mp hx
          have hj := List.mem_range'_1.mp hj
          exact ⟨j, rfl, by omega⟩
      · rw [List.mem_singleton.mp hr]
        exact ⟨t / 128, rfl, by omega⟩

/-- An empty range turns nothing over, if it is not at the beginning of a key. -/
theorem xor_empty {m : Manager} {n : ℕ} (h : Geometry m n) {a : ℕ} (ha : a % 128 ≠ 0)
    (hle : a ≤ m.blocks) :
    xor m (a * m.bytesPerBlock) 0 = some [(a / 128 * m.bytesPerKey, 0)] ∧
      a / 128 * 128 < m.blocks := by
  have hg := h.bytesPerBlock_pos
  have hb := h.blocks
  have hlt := h.mul_lt hle
  obtain ⟨t, rfl⟩ : ∃ t, a = t + 1 := ⟨a - 1, by omega⟩
  have hlast : wrap ((t + 1) * m.bytesPerBlock + 0 + 0xFFFFFFFFFFFFFFFF) =
      (t + 1) * m.bytesPerBlock - 1 := by
    have hpos : 0 < (t + 1) * m.bytesPerBlock := Nat.mul_pos (by omega) hg
    unfold wrap
    omega
  have hlo : t * m.bytesPerBlock ≤ (t + 1) * m.bytesPerBlock - 1 := by
    have hexp : (t + 1) * m.bytesPerBlock = t * m.bytesPerBlock + m.bytesPerBlock := by ring
    omega
  have hhi : (t + 1) * m.bytesPerBlock - 1 < (t + 1) * m.bytesPerBlock :=
    Nat.sub_lt (Nat.mul_pos (by omega) hg) (by norm_num)
  obtain ⟨hk1, hb1⟩ := h.key_of (a := t + 1) (x := (t + 1) * m.bytesPerBlock) (by omega) le_rfl
    ((Nat.mul_lt_mul_right hg).mpr (by omega))
  obtain ⟨hk2, hb2⟩ := h.key_of (a := t) (by omega) hlo hhi
  refine ⟨?_, by omega⟩
  unfold xor
  rw [if_neg (not_not.mpr (h.and_blockMask hle)), if_neg (not_not.mpr (Nat.zero_and _))]
  simp only [hlast, hk1, hb1, hk2, hb2]
  rw [if_pos (by rw [show (t + 1) / 128 = t / 128 by omega]),
    show t % 128 + 1 - (t + 1) % 128 = 0 by omega]
  rfl

end CxxLab.Bluestore.Freelist
