import CxxLab.Bluestore.FreelistEnumeration

/-!
# Runs of the freelist manager

A freelist that was created and then changed by any calls of `allocate` and `release` is compared
with a set of free blocks. Two things go wrong in the arithmetic of `uint64_t`, and the theorem
names them: the size of the device rounded up to whole keys overflows, and the last byte
`offset + length - 1` of an empty range at the beginning of a key is before the range.
-/

namespace CxxLab.Bluestore.Freelist

/-- The calls that change the freelist. -/
inductive Call
  /-- `allocate`. -/
  | allocate (offset length : ℕ)
  /-- `release`. -/
  | release (offset length : ℕ)

namespace Call

/-- The offset of the range. -/
def offset : Call → ℕ
  | allocate o _ => o
  | release o _ => o

/-- The length of the range. -/
def length : Call → ℕ
  | allocate _ l => l
  | release _ l => l

/-- The blocks of the range. -/
def blocks (m : Manager) (c : Call) : Set ℕ :=
  {b | c.offset ≤ b * m.bytesPerBlock ∧ b * m.bytesPerBlock < c.offset + c.length}

/-- What the call does to the free blocks. -/
def apply (m : Manager) (free : Set ℕ) : Call → Set ℕ
  | allocate o l => free \ blocks m (allocate o l)
  | release o l => free ∪ blocks m (release o l)

/-- The range is made of blocks of the device. -/
structure InDevice (m : Manager) (c : Call) : Prop where
  /-- The range begins with a block. -/
  offset : m.bytesPerBlock ∣ c.offset
  /-- The range ends with a block. -/
  length : m.bytesPerBlock ∣ c.length
  /-- The range is within the device. -/
  le : c.offset + c.length ≤ m.size

/-- A call allocates free space, or releases allocated space. -/
def Allowed (m : Manager) (free : Set ℕ) : Call → Prop
  | allocate o l => blocks m (allocate o l) ⊆ free
  | release o l => Disjoint (blocks m (release o l)) free

/-- The range is not an empty one at the beginning of a key. -/
def NotEmptyKey (m : Manager) (c : Call) : Prop :=
  0 < c.length ∨ ¬128 * m.bytesPerBlock ∣ c.offset

end Call

/-- The store and the free blocks that it stands for. -/
structure Tracked where
  /-- The keys. -/
  kv : Bitmap
  /-- The blocks that are free. -/
  free : Set ℕ

/-- `allocate` and `release`, with the store applying the transaction at once. -/
def call (m : Manager) (s : Tracked) (c : Call) : Option Tracked :=
  (xor m c.offset c.length).map fun merges => ⟨commit s.kv merges, c.apply m s.free⟩

/-- The calls of the contract, less the empty ranges at the beginning of a key. -/
def Ok (m : Manager) (s : Tracked) (c : Call) : Prop :=
  c.InDevice m ∧ c.Allowed m s.free ∧ c.NotEmptyKey m

/-- The freelist after `create`: all blocks but the first are free. -/
def created (m : Manager) (merges : List (ℕ × Bits)) : Tracked :=
  ⟨commit SortedList.empty merges, {b | 0 < b ∧ b < m.size / m.bytesPerBlock}⟩

/-- The size of the device rounded up to whole keys is an `uint64_t`. -/
def Fits (newSize granularity : ℕ) : Prop :=
  (newSize / granularity + 127) / 128 * 128 * granularity < 0x10000000000000000

/-- The store stands for the free blocks. -/
structure Stands (m : Manager) (n : ℕ) (s : Tracked) : Prop where
  /-- Every key is one of the device. -/
  keys : ∀ r ∈ s.kv.toList, ∃ j, r.1 = j * m.bytesPerKey ∧ j * 128 < m.blocks
  /-- The first key is there. -/
  first : ∃ r ∈ s.kv.toList, r.1 = 0
  /-- A bit is set where the block is not free. -/
  used : ∀ b, b < m.blocks → (used s.kv.toList m.bytesPerKey b = true ↔ b ∉ s.free)
  /-- The free blocks are blocks of the device. -/
  free : ∀ b ∈ s.free, b < n

/-- A block of the device is in the range that the call turns over. -/
theorem Call.mem_blocks {m : Manager} {a c : ℕ} (hg : 0 < m.bytesPerBlock) {k : Call}
    (ho : k.offset = a * m.bytesPerBlock) (hl : k.length = c * m.bytesPerBlock) {b : ℕ} :
    b ∈ k.blocks m ↔ a ≤ b ∧ b < a + c := by
  show k.offset ≤ b * m.bytesPerBlock ∧ b * m.bytesPerBlock < k.offset + k.length ↔ _
  rw [ho, hl, ← Nat.add_mul, Nat.mul_le_mul_right_iff hg, Nat.mul_lt_mul_right hg]

/-- `_xor` turns over the blocks of the range and no others. -/
theorem xor_call {m : Manager} {n : ℕ} (h : Geometry m n) {c : Call} (hin : c.InDevice m)
    (hne : c.NotEmptyKey m) :
    ∃ merges, xor m c.offset c.length = some merges ∧
      (∀ kv b, (used (commit kv merges).toList m.bytesPerKey b = true) ↔
        (used kv.toList m.bytesPerKey b = true ↔ b ∉ c.blocks m)) ∧
      ∀ r ∈ merges, ∃ j, r.1 = j * m.bytesPerKey ∧ j * 128 < m.blocks := by
  have hg := h.bytesPerBlock_pos
  obtain ⟨a, ho⟩ := hin.offset
  obtain ⟨d, hl⟩ := hin.length
  rw [mul_comm] at ho hl
  have hle : a + d ≤ n := by
    have hsum := hin.le
    rw [ho, hl, h.size, ← Nat.add_mul] at hsum
    exact Nat.le_of_mul_le_mul_right hsum hg
  have hblk : a + d ≤ m.blocks := hle.trans (le_blocks h)
  -- Whatever is merged, it turns over the bits of the range.
  have hturn : ∀ merges, (∀ b, flips (b / 128 * m.bytesPerKey) (b % 128) merges =
      decide (a ≤ b ∧ b < a + d)) → ∀ kv b, (used (commit kv merges).toList m.bytesPerKey b = true) ↔
        (used kv.toList m.bytesPerKey b = true ↔ b ∉ c.blocks m) := by
    intro merges hflips kv b
    rw [used_commit, hflips, Call.mem_blocks hg ho hl]
    by_cases hb : a ≤ b ∧ b < a + d
    · simp [hb]
    · simp only [hb, decide_false, Bool.xor_false, not_false_eq_true, iff_true]
  by_cases hd : 0 < d
  · obtain ⟨merges, hx, hflips, hkeys⟩ := xor_spec h hd hblk
    exact ⟨merges, by rw [ho, hl, hx], hturn merges hflips, hkeys⟩
  · obtain rfl : d = 0 := by omega
    have ha : a % 128 ≠ 0 := by
      rcases hne with hne | hne
      · rw [hl, Nat.zero_mul] at hne
        exact absurd hne (lt_irrefl 0)
      · rw [ho] at hne
        exact fun hz => hne (Nat.mul_dvd_mul_right (Nat.dvd_of_mod_eq_zero hz) _)
    obtain ⟨hx, hk⟩ := xor_empty h ha (by omega)
    refine ⟨_, by rw [ho, hl, Nat.zero_mul, hx], hturn _ fun b => ?_, ?_⟩
    · simp [flips]
    · intro r hr
      rw [List.mem_singleton.mp hr]
      exact ⟨a / 128, rfl, hk⟩

/-- The store keeps its keys, and has those of the merges. -/
theorem key_mem_commit {kv : Bitmap} {merges : List (ℕ × Bits)} {k : ℕ}
    (h : (∃ r ∈ kv.toList, r.1 = k) ∨ ∃ r ∈ merges, r.1 = k) :
    ∃ r ∈ (commit kv merges).toList, r.1 = k := by
  induction merges generalizing kv with
  | nil => exact h.resolve_right (by simp)
  | cons a merges ih =>
    refine @ih (kv.mergeWith (· ^^^ ·) a.1 a.2) ?_
    rcases h with h | ⟨r, hr, rfl⟩
    · exact .inl (SortedList.key_mem_mergeInto _ _ _ (.inr h))
    · rcases List.mem_cons.mp hr with rfl | hr
      · exact .inl (SortedList.key_mem_mergeInto _ _ _ (.inl rfl))
      · exact .inr ⟨r, hr, rfl⟩

/-- A bit that is flipped is of a key that was merged. -/
theorem key_mem_of_flips {k i : ℕ} {merges : List (ℕ × Bits)} (h : flips k i merges = true) :
    ∃ r ∈ merges, r.1 = k := by
  induction merges with
  | nil => exact absurd h Bool.false_ne_true
  | cons r merges ih =>
    by_cases hr : r.1 = k
    · exact ⟨r, List.mem_cons_self, hr⟩
    · rw [flips] at h
      simp only [hr, decide_false, Bool.false_and, Bool.false_xor] at h
      obtain ⟨r', hr', hk⟩ := ih h
      exact ⟨r', List.mem_cons_of_mem _ hr', hk⟩

/-- A call keeps the store in step with the free blocks. -/
theorem Stands.call {m : Manager} {n : ℕ} (h : Geometry m n) {s : Tracked} (hs : Stands m n s)
    {c : Call} (hok : Ok m s c) : ∃ s', call m s c = some s' ∧ Stands m n s' := by
  obtain ⟨hin, hallow, hne⟩ := hok
  obtain ⟨merges, hx, hturn, hkeys⟩ := xor_call h hin hne
  refine ⟨_, by rw [Freelist.call, hx]; rfl, ?_, ?_, ?_, ?_⟩
  · intro r hr
    rcases mem_commit hr with hr | ⟨r', hr', heq⟩
    · exact hs.keys r hr
    · rw [heq]
      exact hkeys r' hr'
  · exact key_mem_commit (.inl hs.first)
  · intro b hb
    rw [hturn, hs.used b hb]
    cases c with
    | allocate o l =>
      have hsub : b ∈ (Call.allocate o l).blocks m → b ∈ s.free := fun hm => hallow hm
      show _ ↔ b ∉ s.free \ _
      rw [Set.mem_sdiff]
      tauto
    | release o l =>
      have hdis : b ∈ (Call.release o l).blocks m → b ∉ s.free :=
        fun hm hf => Set.disjoint_left.mp hallow hm hf
      show _ ↔ b ∉ s.free ∪ _
      rw [Set.mem_union]
      tauto
  · intro b hb
    cases c with
    | allocate o l => exact hs.free b hb.1
    | release o l =>
      rcases hb with hb | hb
      · exact hs.free b hb
      · have hlt : b * m.bytesPerBlock < n * m.bytesPerBlock := by
          rw [← h.size]
          exact lt_of_lt_of_le hb.2 hin.le
        exact lt_of_mul_lt_mul_right hlt (Nat.zero_le _)

/-- Every run of calls goes through, and keeps the store in step. -/
theorem Stands.exec {m : Manager} {n : ℕ} (h : Geometry m n) {s : Tracked} (hs : Stands m n s)
    {calls : List Call} (hok : Runs.Meets (Freelist.call m) (Ok m) s calls) :
    ∃ s', Runs.exec (Freelist.call m) s calls = some s' ∧ Stands m n s' :=
  Runs.exec_total (fun _ _ hs hc => hs.call h hc) calls s hs hok

/-- Sorted keys of the device tell which blocks are allocated. -/
theorem reads_of_keys {m : Manager} {n : ℕ} (h : Geometry m n) {U : ℕ → Bool}
    {l : List (ℕ × Bits)} {j : ℕ} (hsorted : l.Pairwise fun a b => a.1 < b.1)
    (hkeys : ∀ r ∈ l, ∃ i, r.1 = i * m.bytesPerKey ∧ i * 128 < m.blocks ∧ j ≤ i)
    (hU : ∀ b, j * 128 ≤ b → U b = used l m.bytesPerKey b) : Reads m U l j := by
  have hK := h.bytesPerKey_pos
  have hb := h.blocks
  induction l generalizing j with
  | nil =>
    intro b hle
    rw [hU b hle]
    simp [used, SortedList.valueD]
  | cons r l ih =>
    obtain ⟨hr, hl⟩ := List.pairwise_cons.mp hsorted
    obtain ⟨k, v⟩ := r
    obtain ⟨i, rfl, hi, hji⟩ := hkeys _ List.mem_cons_self
    have hbehind : ∀ r ∈ l, ∃ i', r.1 = i' * m.bytesPerKey ∧ i' * 128 < m.blocks ∧ i + 1 ≤ i' := by
      intro r hrl
      obtain ⟨i', hi', hlt, -⟩ := hkeys r (List.mem_cons_of_mem _ hrl)
      have hgt := hr r hrl
      rw [hi'] at hgt
      exact ⟨i', hi', hlt, lt_of_mul_lt_mul_right hgt (Nat.zero_le _)⟩
    refine ⟨i, hji, rfl, by omega, fun b hlo hhi => ?_, fun x hx => ?_, ih hl hbehind fun b hle => ?_⟩
    · -- No key before this one.
      rw [hU b hlo, used, SortedList.valueD_of_lt]
      · simp
      · intro r hmem
        have hlt : b / 128 * m.bytesPerKey < i * m.bytesPerKey :=
          Nat.mul_lt_mul_of_pos_right (by omega) hK
        rcases List.mem_cons.mp hmem with rfl | hmem
        · exact hlt
        · exact hlt.trans (hr r hmem)
    · rw [hU _ (by omega), used, show (i * 128 + x) / 128 = i by omega,
        show (i * 128 + x) % 128 = x by omega, SortedList.valueD, if_pos rfl]
    · rw [hU b (by omega), used, SortedList.valueD, if_neg, used]
      intro heq
      have := Nat.eq_of_mul_eq_mul_right hK heq
      omega

/-- A store that stands for the free blocks enumerates their maximal runs. -/
theorem Stands.enumerate {m : Manager} {n : ℕ} (h : Geometry m n) {s : Tracked}
    (hs : Stands m n s) : ∃ l, Freelist.enumerate m s.kv (n + 2) enumerateReset = some (l.map (inBytes m)) ∧
      MaximalRuns s.free l := by
  obtain ⟨U, hU⟩ : ∃ U, U = Freelist.used s.kv.toList m.bytesPerKey := ⟨_, rfl⟩
  have hreads : Reads m U s.kv.toList 0 := by
    refine reads_of_keys h s.kv.sorted (fun r hr => ?_) fun b _ => by rw [hU]
    obtain ⟨j, hj, hlt⟩ := hs.keys r hr
    exact ⟨j, hj, hlt, Nat.zero_le _⟩
  have hfree : s.free = {b | (b < n ∧ U b = false) ∧ 0 ≤ b} := by
    ext b
    constructor
    · intro hb
      have hlt := hs.free b hb
      have hused := hs.used b (lt_of_lt_of_le hlt (le_blocks h))
      refine ⟨⟨hlt, ?_⟩, Nat.zero_le _⟩
      rw [hU, Bool.eq_false_iff]
      exact fun hu => hused.mp hu hb
    · rintro ⟨⟨hlt, hu⟩, -⟩
      have hused := hs.used b (lt_of_lt_of_le hlt (le_blocks h))
      by_contra hb
      rw [hU, hused.mpr hb] at hu
      exact Bool.true_eq_false_eq_False hu
  have htail : ∀ b, n ≤ b → b < m.blocks → U b = true := by
    intro b hle hlt
    rw [hU]
    exact (hs.used b hlt).mpr fun hb => absurd (hs.free b hb) (not_lt.mpr hle)
  obtain ⟨r, hr, hr0⟩ := hs.first
  -- The first key is at the front.
  cases hl : s.kv.toList with
  | nil => rw [hl] at hr; exact absurd hr List.not_mem_nil
  | cons c p =>
    have hc0 : c.1 = 0 := by
      rw [hl] at hr
      have hsorted := s.kv.sorted
      rw [hl] at hsorted
      rcases List.mem_cons.mp hr with rfl | hr
      · exact hr0
      · have := (List.pairwise_cons.mp hsorted).1 r hr
        omega
    obtain ⟨k, v⟩ := c
    obtain rfl : k = 0 := hc0
    rw [hl] at hreads
    obtain ⟨j, -, hj0, hj, -, hbits, hp⟩ := hreads
    obtain rfl : j = 0 := (Nat.mul_eq_zero.mp hj0.symm).resolve_right h.bytesPerKey_pos.ne'
    have hat : At m U ⟨0, 0, some v, (0, v) :: p⟩ 0 :=
      ⟨0, v, p, by simp, rfl, by simp, by simp, hj, hbits, hp⟩
    have hnext : enumerateNext m s.kv enumerateReset =
        some (enumerateBody m ⟨0, 0, some v, (0, v) :: p⟩) := by
      unfold enumerateNext
      rw [hl]
      rfl
    rw [hfree]
    exact enumerate_spec h htail hnext hat (Nat.zero_le _) (by omega)

/-! ## Creation -/

/-- The check finds powers of two. -/
theorem exists_pow_of_isPowerOf2 {g : UInt64} (h : isPowerOf2 g.toNat = true) :
    ∃ k, k < 64 ∧ g.toNat = 2 ^ k := by
  unfold isPowerOf2 at h
  obtain ⟨k, hk⟩ := Nat.ne_zero_and_sub_one_eq_zero_iff_isPowerOfTwo.mp (of_decide_eq_true h)
  refine ⟨k, ?_, hk⟩
  have hlt := g.toNat_lt
  rw [hk] at hlt
  exact (Nat.pow_lt_pow_iff_right (by norm_num)).mp hlt

/-- The manager that `create` makes. -/
def createdManager (newSize granularity : ℕ) : Manager where
  size := newSize &&& mask granularity
  bytesPerBlock := granularity
  blocks := size2BlockCount granularity (newSize &&& mask granularity)

variable {newSize granularity : UInt64}

/-- The size is rounded down to whole blocks. -/
theorem createdManager_size (newSize : UInt64) (hg : isPowerOf2 granularity.toNat = true) :
    (createdManager newSize.toNat granularity.toNat).size =
      newSize.toNat / granularity.toNat * granularity.toNat := by
  obtain ⟨k, hk, hgk⟩ := exists_pow_of_isPowerOf2 hg
  unfold createdManager
  rw [hgk]
  exact and_mask hk newSize.toNat_lt

/-- A power of two is not zero. -/
theorem pos_of_isPowerOf2 (hg : isPowerOf2 granularity.toNat = true) : 0 < granularity.toNat := by
  obtain ⟨k, -, hgk⟩ := exists_pow_of_isPowerOf2 hg
  rw [hgk]
  exact Nat.two_pow_pos k

/-- `create` takes the blocks behind the device and the first one. -/
theorem create_eq (hg : isPowerOf2 granularity.toNat = true) {m : Manager}
    (hm : m = createdManager newSize.toNat granularity.toNat) :
    create newSize.toNat granularity.toNat =
      (if m.allocBytes > m.size then xor m m.size (m.allocBytes - m.size) else some []).bind
        fun tail => (xor m 0 granularity.toNat).map fun first => (m, tail ++ first) := by
  rw [hm]
  unfold create
  rw [if_pos hg]
  rfl

/-- A device with a block whose size fits has the geometry that the calls rely on. -/
theorem geometry_created (hg : isPowerOf2 granularity.toNat = true)
    (hpos : 0 < newSize.toNat / granularity.toNat)
    (hfits : Fits newSize.toNat granularity.toNat) :
    Geometry (createdManager newSize.toNat granularity.toNat)
      (newSize.toNat / granularity.toNat) := by
  obtain ⟨n, hn⟩ : ∃ n, n = newSize.toNat / granularity.toNat := ⟨_, rfl⟩
  have hsize := createdManager_size newSize hg
  have hgpos := pos_of_isPowerOf2 hg
  unfold Fits at hfits
  rw [← hn] at hsize hfits hpos ⊢
  have hlt : (n + 127) / 128 * 128 < 0x10000000000000000 :=
    lt_of_le_of_lt (Nat.le_mul_of_pos_right _ hgpos) hfits
  have hblocks : (createdManager newSize.toNat granularity.toNat).blocks =
      (n + 127) / 128 * 128 := by
    show size2BlockCount granularity.toNat
      (createdManager newSize.toNat granularity.toNat).size = _
    unfold size2BlockCount
    rw [hsize, Nat.mul_div_cancel _ hgpos]
    dsimp only
    split_ifs with hne
    · rw [wrap_of_lt (by omega)]
      omega
    · omega
  obtain ⟨k, -, hgk⟩ := exists_pow_of_isPowerOf2 hg
  refine ⟨⟨k, hgk⟩, hpos, hsize, hblocks, ?_⟩
  rw [hblocks]
  exact hfits

/-- `create` marks the first block and the blocks behind the device. -/
theorem create_spec (hg : isPowerOf2 granularity.toNat = true)
    (hpos : 0 < newSize.toNat / granularity.toNat)
    (hfits : Fits newSize.toNat granularity.toNat) :
    ∃ merges, create newSize.toNat granularity.toNat =
        some (createdManager newSize.toNat granularity.toNat, merges) ∧
      Stands (createdManager newSize.toNat granularity.toNat)
        (newSize.toNat / granularity.toNat)
        (created (createdManager newSize.toNat granularity.toNat) merges) := by
  have hgeo := geometry_created hg hpos hfits
  have hsize := createdManager_size newSize hg
  have hgpos := pos_of_isPowerOf2 hg
  obtain ⟨n, hn⟩ : ∃ n, n = newSize.toNat / granularity.toNat := ⟨_, rfl⟩
  obtain ⟨m, hm⟩ : ∃ m, m = createdManager newSize.toNat granularity.toNat := ⟨_, rfl⟩
  have hbpb : m.bytesPerBlock = granularity.toNat := by rw [hm]; rfl
  rw [← hn] at hsize hpos
  rw [← hn, ← hm] at hgeo ⊢
  rw [← hm] at hsize
  have hle := le_blocks hgeo
  -- The blocks behind the device.
  obtain ⟨tail, htail, htflips, htkeys⟩ : ∃ tail,
      (if m.allocBytes > m.size then xor m m.size (m.allocBytes - m.size) else some []) = some tail ∧
      (∀ b, flips (b / 128 * m.bytesPerKey) (b % 128) tail = decide (n ≤ b ∧ b < m.blocks)) ∧
      ∀ r ∈ tail, ∃ j, r.1 = j * m.bytesPerKey ∧ j * 128 < m.blocks := by
    rw [hgeo.allocBytes, hgeo.size]
    by_cases hlt : n < m.blocks
    · obtain ⟨tail, hx, hflips, hkeys⟩ := xor_spec hgeo (a := n) (c := m.blocks - n) (by omega)
        (by omega)
      rw [Nat.add_sub_cancel' hle] at hflips
      refine ⟨tail, ?_, hflips, hkeys⟩
      rw [if_pos (Nat.mul_lt_mul_of_pos_right hlt hgeo.bytesPerBlock_pos), ← Nat.sub_mul, hx]
    · refine ⟨[], if_neg ?_, fun b => ?_, by simp⟩
      · exact not_lt.mpr (Nat.mul_le_mul_right _ (not_lt.mp hlt))
      · have hno : ¬(n ≤ b ∧ b < m.blocks) := by omega
        rw [flips, decide_eq_false hno]
  -- The first block holds the superblock.
  obtain ⟨first, hfirst, hfflips, hfkeys⟩ :=
    xor_spec hgeo (a := 0) (c := 1) (by norm_num) (by omega)
  rw [Nat.zero_mul, Nat.one_mul, hbpb] at hfirst
  -- The store has the two together, each key with one value.
  refine ⟨tail ++ first, by rw [create_eq hg hm, htail, hfirst]; rfl, ?_, ?_, ?_, ?_⟩
  · intro r hr
    rcases mem_commit hr with hr | ⟨r', hr', heq⟩
    · exact absurd hr List.not_mem_nil
    · rw [heq]
      rcases List.mem_append.mp hr' with hr' | hr'
      · exact htkeys r' hr'
      · exact hfkeys r' hr'
  · refine key_mem_commit (.inr ?_)
    obtain ⟨r, hr, hk⟩ := @key_mem_of_flips 0 0 first (by
      have h0 := hfflips 0
      rwa [Nat.zero_div, Nat.zero_mul, Nat.zero_mod] at h0)
    exact ⟨r, List.mem_append_right _ hr, hk⟩
  -- A block is used exactly when one of the two has marked it.
  · intro b hb
    have hdiv : m.size / m.bytesPerBlock = n := by
      rw [hgeo.size, Nat.mul_div_cancel _ hgeo.bytesPerBlock_pos]
    show used (commit SortedList.empty (tail ++ first)).toList _ b = true ↔
      ¬(0 < b ∧ b < m.size / m.bytesPerBlock)
    rw [used_commit, flips_append, htflips, hfflips, hdiv]
    have hempty : used (SortedList.empty : Bitmap).toList m.bytesPerKey b = false := by
      simp [used, SortedList.empty, SortedList.valueD]
    rw [hempty, Bool.false_xor]
    by_cases h0 : b = 0
    · subst h0
      simp [show ¬n ≤ 0 by omega]
    · by_cases hnb : n ≤ b
      · simp [hnb, hb, h0]
      · simp [hnb, h0, show 0 < b by omega, show b < n by omega]
  · intro b hb
    have hlt : b < m.size / m.bytesPerBlock := hb.2
    rwa [hgeo.size, Nat.mul_div_cancel _ hgeo.bytesPerBlock_pos] at hlt

/-- `create` on a device without a block marks one block all the same. -/
theorem create_empty (hg : isPowerOf2 granularity.toNat = true)
    (hzero : newSize.toNat / granularity.toNat = 0) :
    ∃ v, create newSize.toNat granularity.toNat =
      some (createdManager newSize.toNat granularity.toNat, [(0, v)]) := by
  have hsize := createdManager_size newSize hg
  rw [hzero, Nat.zero_mul] at hsize
  obtain ⟨k, hk, hgk⟩ := exists_pow_of_isPowerOf2 hg
  have hpos := pos_of_isPowerOf2 hg
  have hlt : granularity.toNat < 0x10000000000000000 := granularity.toNat_lt
  obtain ⟨m, hm⟩ : ∃ m, m = createdManager newSize.toNat granularity.toNat := ⟨_, rfl⟩
  rw [← hm] at hsize ⊢
  have hbpb : m.bytesPerBlock = granularity.toNat := by rw [hm]; rfl
  have hblocks : m.blocks = 0 := by
    have hb : m.blocks = size2BlockCount granularity.toNat m.size := by rw [hm]; rfl
    rw [hb, hsize]
    simp [size2BlockCount]
  have halloc : m.allocBytes = 0 := by
    unfold Manager.allocBytes
    rw [hblocks, Nat.zero_mul]
    rfl
  have hmask : granularity.toNat &&& m.blockMask = granularity.toNat := by
    unfold Manager.blockMask
    rw [hbpb]
    rw [hgk] at hlt ⊢
    rw [and_mask hk hlt, Nat.div_self (Nat.two_pow_pos k), Nat.one_mul]
  have hlast : wrap (0 + granularity.toNat + 0xFFFFFFFFFFFFFFFF) = granularity.toNat - 1 := by
    unfold wrap
    omega
  have hkey : (granularity.toNat - 1) &&& m.keyMask = 0 := by
    have hK : m.bytesPerKey = wrap (2 ^ (k + 7)) := by
      unfold Manager.bytesPerKey
      rw [hbpb, hgk, pow_add]
      rfl
    unfold Manager.keyMask
    by_cases hk7 : k + 7 < 64
    · have hlt7 : 2 ^ (k + 7) < 0x10000000000000000 :=
        lt_of_lt_of_eq (Nat.pow_lt_pow_right (by norm_num) hk7) (by norm_num)
      rw [hK, wrap_of_lt hlt7, and_mask hk7 (by omega), Nat.div_eq_of_lt, Nat.zero_mul]
      calc granularity.toNat - 1 < granularity.toNat := Nat.sub_lt hpos (by norm_num)
        _ = 2 ^ k := hgk
        _ ≤ 2 ^ (k + 7) := Nat.pow_le_pow_right (by norm_num) (by omega)
    · -- The bytes of a key overflow to zero, and the mask with them.
      have hzero : wrap (2 ^ (k + 7)) = 0 := by
        unfold wrap
        rw [show k + 7 = 64 + (k + 7 - 64) by omega, pow_add]
        norm_num
      rw [hK, hzero]
      exact Nat.and_zero _
  obtain ⟨v, hx⟩ : ∃ v, xor m 0 granularity.toNat = some [(0, v)] := by
    unfold xor
    simp only [Nat.zero_and, hmask, hlast, hkey, ne_eq, not_true_eq_false, if_false, if_true]
    exact ⟨_, rfl⟩
  refine ⟨v, ?_⟩
  rw [create_eq hg hm, halloc, hsize, if_neg (lt_irrefl 0), Option.bind_some, hx]
  rfl

/-- On such a device there is nothing to call. -/
theorem Call.not_notEmptyKey {m : Manager} (hsize : m.size = 0) {c : Call} (hin : c.InDevice m) :
    ¬c.NotEmptyKey m := by
  have hle := hin.le
  rintro (hpos | hdvd)
  · omega
  · have ho : c.offset = 0 := by omega
    exact hdvd (ho ▸ Nat.dvd_zero _)

/-- What `create` makes, whatever calls follow, enumerates the maximal free runs, in ascending
order, and `_xor` turns over exactly the blocks of the range. -/
theorem freelist_enumerates_free_runs (newSize granularity : UInt64)
    (hg : isPowerOf2 granularity.toNat = true) (hfits : Fits newSize.toNat granularity.toNat) :
    ∃ m merges, create newSize.toNat granularity.toNat = some (m, merges) ∧
      (∀ c : Call, c.InDevice m → c.NotEmptyKey m → ∃ ms, xor m c.offset c.length = some ms ∧
        ∀ kv b, used (commit kv ms).toList m.bytesPerKey b = true ↔
          (used kv.toList m.bytesPerKey b = true ↔ b ∉ c.blocks m)) ∧
      ∀ calls, Runs.Meets (call m) (Ok m) (created m merges) calls →
        ∃ s, Runs.exec (call m) (created m merges) calls = some s ∧
          ∃ l fuel, enumerate m s.kv fuel enumerateReset = some (l.map (inBytes m)) ∧
            MaximalRuns s.free l ∧ ∀ r ∈ l, r.2 * m.bytesPerBlock ≤ m.size := by
  have hsize := createdManager_size newSize hg
  by_cases hpos : 0 < newSize.toNat / granularity.toNat
  · have hgeo := geometry_created hg hpos hfits
    obtain ⟨merges, hcreate, hstands⟩ := create_spec hg hpos hfits
    refine ⟨_, merges, hcreate, fun c hin hne => ?_, fun calls hok => ?_⟩
    · obtain ⟨ms, hx, hturn, -⟩ := xor_call hgeo hin hne
      exact ⟨ms, hx, hturn⟩
    · obtain ⟨s, hrun, hs⟩ := hstands.exec hgeo hok
      obtain ⟨l, hl, hruns⟩ := hs.enumerate hgeo
      refine ⟨s, hrun, l, _, hl, hruns, fun r hr => ?_⟩
      -- The last block of a run is a block of the device.
      have hne := hruns.nonempty r hr
      have hmem := (hruns.mem (r.2 - 1)).mpr ⟨r, hr, by omega, by omega⟩
      have hlt := hs.free _ hmem
      rw [hgeo.size]
      exact Nat.mul_le_mul_right _ (by omega)
  · have hzero := Nat.eq_zero_of_not_pos hpos
    rw [hzero, Nat.zero_mul] at hsize
    obtain ⟨v, hcreate⟩ := create_empty hg hzero
    refine ⟨_, _, hcreate, fun c hin hne => absurd hne (Call.not_notEmptyKey hsize hin),
      fun calls hok => ?_⟩
    cases calls with
    | nil =>
      refine ⟨_, rfl, [], 1, ?_, .nil ?_, by simp⟩
      · unfold enumerate enumerateNext enumerateBody
        simp [enumerateReset, created, commit, SortedList.mergeWith, SortedList.mergeInto,
          SortedList.empty, hsize]
      · ext b
        simp [created, hsize]
    | cons c calls => exact absurd hok.1.2.2 (Call.not_notEmptyKey hsize hok.1.1)

/-- A device of 1 MiB in blocks of 4 KiB, of which two across a key are allocated. -/
theorem freelist_enumerates_free_runs_small :
    isPowerOf2 0x1000 = true ∧ Fits 0x100000 0x1000 ∧
      ∃ m merges, create 0x100000 0x1000 = some (m, merges) ∧
        ∃ s, Runs.exec (call m) (created m merges) [.allocate 0x7f000 0x2000] = some s ∧
          ∃ l fuel, enumerate m s.kv fuel enumerateReset = some (l.map (inBytes m)) ∧
            MaximalRuns s.free l ∧ ∀ r ∈ l, r.2 * m.bytesPerBlock ≤ m.size := by
  have hfits : Fits 0x100000 0x1000 := by
    unfold Fits
    decide
  obtain ⟨m, merges, hcreate, -, hruns⟩ :=
    freelist_enumerates_free_runs 0x100000 0x1000 (by decide +kernel) hfits
  refine ⟨by decide +kernel, hfits, m, merges, hcreate, hruns _ ⟨⟨?_, ?_, ?_⟩, fun _ _ => trivial⟩⟩
  all_goals
    have hm : some m = some ⟨0x100000, 0x1000, 0x100⟩ := by
      have hm := congrArg (Option.map Prod.fst) hcreate
      rw [Option.map_some] at hm
      rw [← hm]
      decide +kernel
    obtain rfl := Option.some.inj hm
  · exact ⟨by decide, by decide, by decide⟩
  · intro b hb
    have hlo : 0x7f000 ≤ b * 0x1000 := hb.1
    have hhi : b * 0x1000 < 0x7f000 + 0x2000 := hb.2
    exact ⟨by omega, by
      show b < 0x100000 / 0x1000
      omega⟩
  · exact .inl (by decide)

/-- An empty range at the beginning of a key fails the assertion, although it is within the device
and allocates nothing. When the size rounded up to whole keys overflows, the blocks behind the
device are not marked, and the free run goes beyond the size. -/
theorem emptyRange_aborts_and_overflow_exceeds :
    (∃ m merges, create 0x100000 0x1000 = some (m, merges) ∧
      (Call.allocate 0x80000 0).InDevice m ∧
      (Call.allocate 0x80000 0).Allowed m (created m merges).free ∧
      call m (created m merges) (.allocate 0x80000 0) = none) ∧
    ∃ m merges, create 0xFFFFFFFFFFFFFFFF 0x1000 = some (m, merges) ∧
      enumerate m (created m merges).kv 2 enumerateReset = some [(0x1000, 0xFFFFFFFFFFFFF000)] ∧
      m.size < 0x1000 + 0xFFFFFFFFFFFFF000 := by
  constructor
  · refine ⟨⟨0x100000, 0x1000, 0x100⟩, [(0, 1)], by decide +kernel, ⟨by decide, by decide, by decide⟩,
      ?_, ?_⟩
    · rintro b ⟨hlo, hhi⟩
      exact absurd (hlo.trans_lt hhi) (lt_irrefl _)
    · have hx : xor ⟨0x100000, 0x1000, 0x100⟩ 0x80000 0 = none := by decide +kernel
      show (xor _ 0x80000 0).map _ = none
      rw [hx]
      rfl
  · exact ⟨⟨0xFFFFFFFFFFFFF000, 0x1000, 0x10000000000000⟩, [(0, 1)], by decide +kernel,
      by decide +kernel, by decide⟩

end CxxLab.Bluestore.Freelist
