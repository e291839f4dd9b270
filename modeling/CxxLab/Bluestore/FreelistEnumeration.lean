import CxxLab.Bluestore.FreelistManager
import CxxLab.Lib.MaximalRuns

/-!
# Enumerating the freelist

`enumerate_next` returns the maximal free runs. `Reads` says what the iterator will read, as a
recursion over the keys that are left: the blocks before a key and behind the one before it are
free, and the blocks of a key are its bits. The two loops are inductions over it, and every call
then takes the enumeration from one allocated block to the next.
-/

namespace CxxLab.Bluestore.Freelist

/-- The first bit that is `bit`. -/
theorem getNextBit_some {bit : Bool} {v : Bits} {start i : ℕ}
    (h : getNextBit bit (some v) start = some i) :
    start ≤ i ∧ i < 128 ∧ v.getLsbD i = bit ∧ ∀ x, start ≤ x → x < i → v.getLsbD x = !bit := by
  unfold getNextBit at h
  rw [Option.bind_some, List.find?_range'_eq_some] at h
  obtain ⟨hb, hmem, hbefore⟩ := h
  have hmem := List.mem_range'_1.mp hmem
  refine ⟨hmem.1, by omega, by simpa using hb, fun x hx hxi => ?_⟩
  have hne := hbefore x hx hxi
  cases bit <;> simpa using hne

/-- Where no bit is found all others have the other value. -/
theorem getNextBit_none {bit : Bool} {v : Bits} {start : ℕ}
    (h : getNextBit bit (some v) start = none) :
    ∀ x, start ≤ x → x < 128 → v.getLsbD x = !bit := by
  intro x hx hlt
  unfold getNextBit at h
  rw [Option.bind_some, List.find?_eq_none] at h
  have hne := h x (List.mem_range'_1.mpr ⟨hx, by omega⟩)
  cases bit <;> simpa using hne

section Enumeration

variable (m : Manager) (U : ℕ → Bool)

/-- The keys that the iterator has not reached tell which of the blocks from key `j` on are
allocated. -/
def Reads : List (ℕ × Bits) → ℕ → Prop
  | [], j => ∀ b, j * 128 ≤ b → U b = false
  | (k, v) :: p, j => ∃ j', j ≤ j' ∧ k = j' * m.bytesPerKey ∧ (j' + 1) * 128 ≤ m.blocks ∧
    (∀ b, j * 128 ≤ b → b < j' * 128 → U b = false) ∧
    (∀ i, i < 128 → U (j' * 128 + i) = v.getLsbD i) ∧ Reads p (j' + 1)

/-- The enumeration is at a key, and has come to block `c`. -/
structure At (e : Enum) (c : ℕ) : Prop where
  /-- The key, its value and the keys behind it. -/
  key : ∃ j v p, e.offset = j * m.bytesPerKey ∧ e.bl = some v ∧
    e.p = (j * m.bytesPerKey, v) :: p ∧ c = j * 128 + e.pos ∧ (j + 1) * 128 ≤ m.blocks ∧
    (∀ i, i < 128 → U (j * 128 + i) = v.getLsbD i) ∧ Reads m U p (j + 1)

variable {m U} {n : ℕ} (h : Geometry m n)

include h

/-- The offset of a block of a key. -/
theorem getOffset_eq {j i : ℕ} (hle : j * 128 + i ≤ m.blocks) :
    m.getOffset (j * m.bytesPerKey) i = (j * 128 + i) * m.bytesPerBlock := by
  have hsum : j * m.bytesPerKey + i * m.bytesPerBlock = (j * 128 + i) * m.bytesPerBlock := by
    rw [h.bytesPerKey]
    ring
  unfold Manager.getOffset
  rw [hsum, wrap_of_lt (h.mul_lt hle)]

/-- The offset of the next key. -/
theorem next_eq {j : ℕ} (hle : (j + 1) * 128 ≤ m.blocks) :
    wrap (j * m.bytesPerKey + m.bytesPerKey) = (j + 1) * m.bytesPerKey := by
  have hlt := h.mul_lt hle
  rw [← Nat.succ_mul, h.bytesPerKey, ← Nat.mul_assoc]
  exact wrap_of_lt hlt

omit h in
/-- The blocks of a key, from its bits. -/
theorem used_of_getNextBit {bit : Bool} {j pos i : ℕ} {v : Bits}
    (hbits : ∀ i, i < 128 → U (j * 128 + i) = v.getLsbD i) (hi : i ≤ 128)
    (hbefore : ∀ x, pos ≤ x → x < i → v.getLsbD x = !bit) :
    ∀ b, j * 128 + pos ≤ b → b < j * 128 + i → U b = !bit := by
  intro b hlo hhi
  have hb := hbefore (b - j * 128) (by omega) (by omega)
  rw [← hbits _ (by omega)] at hb
  rwa [show j * 128 + (b - j * 128) = b by omega] at hb

/-- What the first loop has found when it stops: all blocks from `c` to before `s` are allocated,
`s` is free, and the enumeration is there or further behind in the same free run. -/
def Cleared (m : Manager) (U : ℕ → Bool) (c o : ℕ) (e : Enum) : Prop :=
  ∃ s, o = s * m.bytesPerBlock ∧ c ≤ s ∧ (∀ b, c ≤ b → b < s → U b = true) ∧ U s = false ∧
    ((∃ c', At m U e c' ∧ e.pos < 128 ∧ s ≤ c' ∧ ∀ b, s ≤ b → b < c' → U b = false) ∨
      (e.p = [] ∧ e.offset = o ∧ ∀ b, s ≤ b → U b = false))

/-- The loop stops in a key with a clear bit. -/
theorem cleared_here {p : List (ℕ × Bits)} {j pos i : ℕ} {v : Bits}
    (hj : (j + 1) * 128 ≤ m.blocks) (hbits : ∀ i, i < 128 → U (j * 128 + i) = v.getLsbD i)
    (hp : Reads m U p (j + 1)) (hnext : getNextBit false (some v) pos = some i) :
    Cleared m U (j * 128 + pos) (m.getOffset (j * m.bytesPerKey) i)
      ⟨j * m.bytesPerKey, i, some v, (j * m.bytesPerKey, v) :: p⟩ := by
  obtain ⟨hle, hlt, hb, hbefore⟩ := getNextBit_some hnext
  refine ⟨j * 128 + i, getOffset_eq h (by omega), by omega,
    used_of_getNextBit hbits hlt.le hbefore, ?_, .inl ?_⟩
  · rw [hbits i hlt, hb]
  · exact ⟨j * 128 + i, ⟨j, v, p, rfl, rfl, rfl, rfl, hj, hbits, hp⟩, hlt, le_rfl,
      fun b hlo hhi => by omega⟩

/-- The first loop stops at the first free block, or behind the last key. -/
theorem findClear_spec {p : List (ℕ × Bits)} {j pos : ℕ} {v : Bits}
    (hj : (j + 1) * 128 ≤ m.blocks) (hbits : ∀ i, i < 128 → U (j * 128 + i) = v.getLsbD i)
    (hp : Reads m U p (j + 1)) (hpos : pos ≤ 128) {r : ℕ × Enum}
    (hrun : findClear m (j * m.bytesPerKey) pos (some v) ((j * m.bytesPerKey, v) :: p) = r) :
    Cleared m U (j * 128 + pos) r.1 r.2 := by
  induction p generalizing j pos v with
  | nil =>
    rw [findClear] at hrun
    cases hnext : getNextBit false (some v) pos with
    | some i =>
      rw [hnext] at hrun
      subst hrun
      exact cleared_here h hj hbits hp hnext
    | none =>
      rw [hnext] at hrun
      subst hrun
      simp only [next_eq h hj]
      refine ⟨(j + 1) * 128, getOffset_eq h (by omega), by omega, ?_, hp _ le_rfl,
        .inr ⟨rfl, ?_, hp⟩⟩
      · intro b hlo hhi
        exact used_of_getNextBit hbits le_rfl (getNextBit_none hnext) b hlo (by omega)
      · rw [getOffset_eq h (by omega), h.bytesPerKey]
        ring
  | cons k p ih =>
    rw [findClear] at hrun
    cases hnext : getNextBit false (some v) pos with
    | some i =>
      rw [hnext] at hrun
      subst hrun
      exact cleared_here h hj hbits hp hnext
    | none =>
      rw [hnext] at hrun
      obtain ⟨k, w⟩ := k
      obtain ⟨j', hle, rfl, hj', hgap, hbits', hp'⟩ := hp
      have hset := used_of_getNextBit hbits le_rfl (getNextBit_none hnext)
      simp only [next_eq h hj] at hrun
      split_ifs at hrun with hgt
      · -- Keys are missing: their blocks are free.
        subst hrun
        have hlt : j + 1 < j' := lt_of_mul_lt_mul_right hgt (Nat.zero_le _)
        have hat : At m U ⟨j' * m.bytesPerKey, 0, some w, (j' * m.bytesPerKey, w) :: p⟩ (j' * 128) :=
          ⟨j', w, p, rfl, rfl, rfl, (Nat.add_zero _).symm, hj', hbits', hp'⟩
        refine ⟨(j + 1) * 128, ?_, by omega, fun b hlo hhi => hset b hlo (by omega),
          hgap _ le_rfl (by omega), .inl ⟨j' * 128, hat, Nat.zero_lt_succ 127, by omega, hgap⟩⟩
        rw [h.bytesPerKey]
        ring
      · have heq : j' = j + 1 := by
          by_contra hne
          exact hgt (Nat.mul_lt_mul_of_pos_right (by omega) h.bytesPerKey_pos)
        subst heq
        obtain ⟨s, ho, hs, hused, hfree, hrest⟩ := ih hj' hbits' hp' (Nat.zero_le _) hrun
        refine ⟨s, ho, by omega, fun b hlo hhi => ?_, hfree, hrest⟩
        by_cases hb : b < (j + 1) * 128
        · exact hset b hlo (by omega)
        · have hlo' : (j + 1) * 128 + 0 ≤ b := not_lt.mp hb
          exact hused b hlo' hhi

/-- What the second loop has found when it stops: all blocks from `c` on are free up to the block
`t` that ends the run, or up to the end. -/
def Ended (m : Manager) (U : ℕ → Bool) (c : ℕ) (e? : Option ℕ) (e : Enum) : Prop :=
  (∃ t, e? = some (t * m.bytesPerBlock) ∧ c ≤ t ∧ t < m.blocks ∧ U t = true ∧ At m U e t ∧
    e.pos < 128 ∧ ∀ b, c ≤ b → b < t → U b = false) ∨
  (e? = none ∧ e.p = [] ∧ (∃ j, e.offset = j * m.bytesPerKey ∧ (j + 1) * 128 ≤ m.blocks) ∧
    ∀ b, c ≤ b → U b = false)

/-- The loop stops in a key with a set bit. -/
theorem ended_here {p : List (ℕ × Bits)} {j pos i : ℕ} {v : Bits}
    (hj : (j + 1) * 128 ≤ m.blocks) (hbits : ∀ i, i < 128 → U (j * 128 + i) = v.getLsbD i)
    (hp : Reads m U p (j + 1)) (hnext : getNextBit true (some v) pos = some i) :
    Ended m U (j * 128 + pos) (some (min m.allocBytes (m.getOffset (j * m.bytesPerKey) i)))
      ⟨j * m.bytesPerKey, i, some v, (j * m.bytesPerKey, v) :: p⟩ := by
  obtain ⟨hle, hlt, hb, hbefore⟩ := getNextBit_some hnext
  have hblk : j * 128 + i < m.blocks := by omega
  refine .inl ⟨j * 128 + i, ?_, by omega, hblk, ?_,
    ⟨j, v, p, rfl, rfl, rfl, rfl, hj, hbits, hp⟩, hlt, used_of_getNextBit hbits hlt.le hbefore⟩
  · rw [getOffset_eq h hblk.le, h.allocBytes,
      Nat.min_eq_right (Nat.mul_le_mul_right _ hblk.le)]
  · rw [hbits i hlt, hb]

/-- The second loop stops at the first allocated block, or there is none. -/
theorem findSet_spec {p : List (ℕ × Bits)} {j pos : ℕ} {v : Bits}
    (hj : (j + 1) * 128 ≤ m.blocks) (hbits : ∀ i, i < 128 → U (j * 128 + i) = v.getLsbD i)
    (hp : Reads m U p (j + 1)) (hpos : pos ≤ 128) {r : Option ℕ × Enum}
    (hrun : findSet m (j * m.bytesPerKey) pos (some v) ((j * m.bytesPerKey, v) :: p) = r) :
    Ended m U (j * 128 + pos) r.1 r.2 := by
  induction p generalizing j pos v with
  | nil =>
    rw [findSet] at hrun
    cases hnext : getNextBit true (some v) pos with
    | some i =>
      rw [hnext] at hrun
      subst hrun
      exact ended_here h hj hbits hp hnext
    | none =>
      rw [hnext] at hrun
      subst hrun
      refine .inr ⟨rfl, rfl, ⟨j, rfl, hj⟩, fun b hlo => ?_⟩
      by_cases hb : b < j * 128 + 128
      · exact used_of_getNextBit hbits le_rfl (getNextBit_none hnext) b hlo hb
      · exact hp b (by omega)
  | cons k p ih =>
    rw [findSet] at hrun
    cases hnext : getNextBit true (some v) pos with
    | some i =>
      rw [hnext] at hrun
      subst hrun
      exact ended_here h hj hbits hp hnext
    | none =>
      rw [hnext] at hrun
      obtain ⟨k, w⟩ := k
      obtain ⟨j', hle, rfl, hj', hgap, hbits', hp'⟩ := hp
      have hclear := used_of_getNextBit hbits le_rfl (getNextBit_none hnext)
      -- The rest of this key and the missing keys are free.
      have hfree : ∀ b, j * 128 + pos ≤ b → b < j' * 128 → U b = false := by
        intro b hlo hhi
        by_cases hb : b < j * 128 + 128
        · exact hclear b hlo hb
        · exact hgap b (by omega) hhi
      rcases ih hj' hbits' hp' (Nat.zero_le _) hrun with
        ⟨t, he, hct, htb, ht, hat, hpos', hbefore⟩ | ⟨he, hnil, hj, hall⟩
      · refine .inl ⟨t, he, by omega, htb, ht, hat, hpos', fun b hlo hhi => ?_⟩
        by_cases hb : b < j' * 128
        · exact hfree b hlo hb
        · exact hbefore b (by omega) hhi
      · refine .inr ⟨he, hnil, hj, fun b hlo => ?_⟩
        by_cases hb : b < j' * 128
        · exact hfree b hlo hb
        · exact hall b (by omega)

variable (htail : ∀ b, n ≤ b → b < m.blocks → U b = true)

include htail

omit h in
/-- A free block within the keys is a block of the device. -/
theorem lt_of_free {b : ℕ} (hb : b < m.blocks) (hfree : U b = false) : b < n := by
  by_contra hn
  rw [htail b (not_lt.mp hn) hb] at hfree
  exact Bool.true_eq_false_eq_False hfree

omit htail in
/-- The device has no more blocks than the bitmap. -/
theorem le_blocks : n ≤ m.blocks := by
  rw [h.blocks]
  omega

/-- A run that nothing ends goes to the end of the device, which is then the end of a key. -/
theorem runToEnd_spec {s : ℕ} {e : Enum} (hs : s < n) (hfree : ∀ b, s ≤ b → U b = false)
    (hoff : e.offset < m.size) : n = m.blocks ∧
      (runToEnd m (s * m.bytesPerBlock) e).1 =
        some (s * m.bytesPerBlock, (n - s) * m.bytesPerBlock) ∧
      (runToEnd m (s * m.bytesPerBlock) e).2.offset = m.size := by
  have hle := le_blocks h
  have hn : n = m.blocks := by
    by_contra hne
    exact (lt_irrefl n) (lt_of_free htail (by omega) (hfree n hs.le))
  have hlt := h.fits
  have hmul : s * m.bytesPerBlock ≤ m.blocks * m.bytesPerBlock := Nat.mul_le_mul_right _ (by omega)
  unfold runToEnd
  rw [if_pos hoff, h.allocBytes]
  refine ⟨hn, ?_, rfl⟩
  rw [wrap_sub hmul hlt, hn, Nat.sub_mul]

/-- A call returns the next free run and comes to the block that ends it, or there are no more
runs. -/
theorem enumerateBody_spec {e : Enum} {c : ℕ} (hat : At m U e c) (hpos : e.pos ≤ 128)
    {r : Option (ℕ × ℕ) × Enum} (hrun : enumerateBody m e = r) :
    (∃ s t, r.1 = some (s * m.bytesPerBlock, (t - s) * m.bytesPerBlock) ∧ c ≤ s ∧ s < t ∧ t ≤ n ∧
      (∀ b, c ≤ b → b < s → U b = true) ∧ (∀ b, s ≤ b → b < t → U b = false) ∧
      ((t < m.blocks ∧ U t = true ∧ At m U r.2 t ∧ r.2.pos < 128) ∨ (t = n ∧ r.2.offset ≥ m.size))) ∨
    (r.1 = none ∧ r.2.offset ≥ m.size ∧ ∀ b, c ≤ b → b < n → U b = true) := by
  have hg := h.bytesPerBlock_pos
  -- The key that the enumeration is at, and the bits that it has read of it.
  obtain ⟨j, v, p, ho, hbl, hp', hc, hj, hbits, hp⟩ := hat.key
  have hblk : ∀ j, j * m.bytesPerKey = j * 128 * m.bytesPerBlock := fun j => by
    rw [h.bytesPerKey]
    ring
  unfold enumerateBody at hrun
  split_ifs at hrun with hge
  · subst hrun
    refine .inr ⟨rfl, hge, fun b hlo hhi => ?_⟩
    have hle : n ≤ j * 128 := by
      rw [ho, hblk, h.size] at hge
      exact le_of_mul_le_mul_right hge hg
    omega
  -- The first free block is looked for, from the position on.
  · rw [ho, hbl, hp'] at hrun
    obtain ⟨o, e1, hclear⟩ : ∃ o e1, findClear m (j * m.bytesPerKey) e.pos (some v)
      ((j * m.bytesPerKey, v) :: p) = (o, e1) := ⟨_, _, rfl⟩
    rw [hclear] at hrun
    -- Every block before it is used.
    obtain ⟨s, rfl, hcs, hused, hfree, hrest⟩ := findClear_spec h hj hbits hp hpos hclear
    rw [← hc] at hcs hused
    dsimp only at hrest hrun
    rcases hrest with ⟨c', hat', hpos', hsc, hgap⟩ | ⟨hnil, hoff, hall⟩
    · -- The iterator is at a key: look for the end of the run.
      obtain ⟨j', v', p', ho', hbl', hp'', hc', hj', hbits', hp'⟩ := hat'.key
      have hsn : s < n := lt_of_free htail (by omega) hfree
      obtain ⟨t?, e2, hset⟩ : ∃ t? e2, findSet m (j' * m.bytesPerKey) e1.pos (some v')
        ((j' * m.bytesPerKey, v') :: p') = (t?, e2) := ⟨_, _, rfl⟩
      have hend := findSet_spec h hj' hbits' hp' hpos'.le hset
      rw [← hc'] at hend
      dsimp only [Ended] at hend
      simp only [hp'', ho', hbl', hset, List.cons_ne_nil, if_false] at hrun
      rcases hend with ⟨t, rfl, hct, htb, ht, hat2, hpos2, hbefore⟩ | ⟨rfl, -, ⟨i, hi, hib⟩, hall⟩
      · subst hrun
        have hrunfree : ∀ b, s ≤ b → b < t → U b = false := by
          intro b hlo hhi
          by_cases hb : b < c'
          · exact hgap b hlo hb
          · exact hbefore b (not_lt.mp hb) hhi
        have hst : s ≠ t := by
          rintro rfl
          rw [ht] at hfree
          exact Bool.true_eq_false_eq_False hfree
        have htn : t ≤ n := by
          by_contra hn
          exact (lt_irrefl n) (lt_of_free htail (by omega) (hrunfree n hsn.le (by omega)))
        refine .inl ⟨s, t, ?_, hcs, by omega, htn, hused, hrunfree, .inl ⟨htb, ht, hat2, hpos2⟩⟩
        show some (s * m.bytesPerBlock, _) = _
        rw [wrap_sub (Nat.mul_le_mul_right _ (by omega)) (h.mul_lt htb.le), Nat.sub_mul]
      · have hrunfree : ∀ b, s ≤ b → U b = false := by
          intro b hlo
          by_cases hb : b < c'
          · exact hgap b hlo hb
          · exact hall b (not_lt.mp hb)
        have hlt : e2.offset < m.size := by
          have hb := h.blocks
          rw [hi, hblk, h.size]
          exact Nat.mul_lt_mul_of_pos_right (by omega) hg
        obtain ⟨hn, hr, hoff⟩ := runToEnd_spec h htail hsn hrunfree hlt
        subst hrun
        exact .inl ⟨s, n, hr, hcs, hsn, le_rfl, hused, fun b hlo _ => hrunfree b hlo,
          .inr ⟨rfl, hoff.ge⟩⟩
    -- The values have come to their end.
    · simp only [hnil, if_true] at hrun
      by_cases hsn : s < n
      · have hlt : e1.offset < m.size := by
          rw [hoff, h.size]
          exact Nat.mul_lt_mul_of_pos_right hsn hg
        obtain ⟨hn, hr, hoff'⟩ := runToEnd_spec h htail hsn hall hlt
        subst hrun
        exact .inl ⟨s, n, hr, hcs, hsn, le_rfl, hused, fun b hlo _ => hall b hlo,
          .inr ⟨rfl, hoff'.ge⟩⟩
      · have hge' : e1.offset ≥ m.size := by
          rw [hoff, h.size]
          exact Nat.mul_le_mul_right _ (not_lt.mp hsn)
        unfold runToEnd at hrun
        rw [if_neg (not_lt.mpr hge')] at hrun
        subst hrun
        exact .inr ⟨rfl, hge', fun b hlo hhi => hused b hlo (by omega)⟩

omit htail in
/-- An enumeration that has come to the end stays there. -/
theorem enumerate_done {kv : Bitmap} {e : Enum} (he : e.offset ≥ m.size) (fuel : ℕ) :
    enumerate m kv (fuel + 1) e = some [] := by
  have hsize : 0 < m.size := by
    rw [h.size]
    exact Nat.mul_pos h.pos h.bytesPerBlock_pos
  have hnext : enumerateNext m kv e = some (none, e) := by
    unfold enumerateNext enumerateBody
    rw [if_neg (by omega), if_pos he]
  unfold enumerate
  rw [hnext]

omit htail in
/-- Behind the first block the iterator is there. -/
theorem enumerateNext_at {kv : Bitmap} {e : Enum} {c : ℕ} (hat : At m U e c) (hc : 0 < c) :
    enumerateNext m kv e = some (enumerateBody m e) := by
  obtain ⟨j, v, p, ho, -, -, hcj, -, -, -⟩ := hat.key
  unfold enumerateNext
  refine if_neg fun h0 => ?_
  have hj : j = 0 := by
    rw [ho] at h0
    exact (Nat.mul_eq_zero.mp h0.1).resolve_right h.bytesPerKey_pos.ne'
  omega

/-- A run of blocks in bytes: its offset and its length. -/
def inBytes (m : Manager) (r : ℕ × ℕ) : ℕ × ℕ :=
  (r.1 * m.bytesPerBlock, (r.2 - r.1) * m.bytesPerBlock)

/-- The calls return the free runs from where the enumeration is. -/
theorem enumerate_spec {kv : Bitmap} {e e' : Enum} {c fuel : ℕ}
    (hnext : enumerateNext m kv e = some (enumerateBody m e')) (hat : At m U e' c)
    (hpos : e'.pos ≤ 128) (hfuel : n - c + 2 ≤ fuel) :
    ∃ l, enumerate m kv fuel e = some (l.map (inBytes m)) ∧
      MaximalRuns {b | (b < n ∧ U b = false) ∧ c ≤ b} l := by
  induction fuel generalizing e e' c with
  | zero => omega
  | succ fuel ih =>
    unfold enumerate
    rw [hnext]
    have hbody := enumerateBody_spec h htail hat hpos rfl
    obtain ⟨r, e2, hr⟩ : ∃ r e2, enumerateBody m e' = (r, e2) := ⟨_, _, rfl⟩
    rw [hr] at hbody ⊢
    dsimp only at hbody
    rcases hbody with ⟨s, t, rfl, hcs, hst, htn, hused, hfree, hrest⟩ | ⟨rfl, -, hused⟩
    · dsimp only
      have hrun : ∀ b, s ≤ b → b < t → b ∈ {b | (b < n ∧ U b = false) ∧ c ≤ b} :=
        fun b hlo hhi => ⟨⟨by omega, hfree b hlo hhi⟩, by omega⟩
      have hfirst : ∀ b ∈ {b | (b < n ∧ U b = false) ∧ c ≤ b}, s ≤ b := by
        rintro b ⟨⟨-, hb⟩, hcb⟩
        by_contra hlt
        rw [hused b hcb (not_le.mp hlt)] at hb
        exact Bool.true_eq_false_eq_False hb
      -- What is behind the run does not depend on where the enumeration was before.
      have hset : {b | b ∈ {b | (b < n ∧ U b = false) ∧ c ≤ b} ∧ t ≤ b} =
          {b | (b < n ∧ U b = false) ∧ t ≤ b} := by
        ext b
        constructor
        · exact fun hb => ⟨hb.1.1, hb.2⟩
        · exact fun hb => ⟨⟨hb.1, le_trans (by omega) hb.2⟩, hb.2⟩
      rcases hrest with ⟨-, ht, hat2, hpos2⟩ | ⟨rfl, hoff⟩
      · obtain ⟨l, hl, hruns⟩ := ih (enumerateNext_at h hat2 (by omega)) hat2 hpos2.le (by omega)
        refine ⟨(s, t) :: l, by rw [hl]; rfl, MaximalRuns.cons hst (fun r hr => ?_) (hset ▸ hruns)
          hrun hfirst⟩
        obtain ⟨⟨-, hfr⟩, hle⟩ := hruns.start_mem hr
        refine lt_of_le_of_ne hle fun heq => ?_
        rw [← heq, ht] at hfr
        exact Bool.true_eq_false_eq_False hfr
      · obtain ⟨f, rfl⟩ : ∃ f, fuel = f + 1 := ⟨fuel - 1, by omega⟩
        refine ⟨[(s, t)], by rw [enumerate_done h hoff]; rfl, MaximalRuns.cons hst (by simp) ?_
          hrun hfirst⟩
        rw [hset]
        exact .nil (Set.eq_empty_of_forall_notMem fun b hb => by
          have h1 : b < t := hb.1.1
          have h2 : t ≤ b := hb.2
          omega)
    · refine ⟨[], rfl, .nil (Set.eq_empty_of_forall_notMem ?_)⟩
      rintro b ⟨⟨hb, hfr⟩, hcb⟩
      rw [hused b hcb hb] at hfr
      exact Bool.true_eq_false_eq_False hfr

end Enumeration

end CxxLab.Bluestore.Freelist
