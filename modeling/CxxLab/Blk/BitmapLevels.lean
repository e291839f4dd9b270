import CxxLab.Blk.BitmapAllocator

/-!
# The levels of the bitmap

What the functions on slots and ranges of `BitmapAllocator.lean` do to single bits, and that the
calls which give space back, take it out or claim it keep the summaries true: an L1 entry says of
its 512 bits whether all, some or none are set, and an L2 bit says whether there is any free space
under it.
-/

namespace CxxLab.Blk.Bitmap

namespace State

variable {bits : ℕ → Bool} {slot start p q l0End fuel : ℕ} {v : Bool} {s s' : State}

/-! ## Slots -/

/-- A word is clear when all its bits are. -/
theorem slotClear_iff : slotClear bits slot = true ↔ ∀ i < 64, bits (64 * slot + i) = false := by
  simp [slotClear]

/-- A word is set when all its bits are. -/
theorem slotSet_iff : slotSet bits slot = true ↔ ∀ i < 64, bits (64 * slot + i) = true := by
  simp [slotSet]

/-- The next set bit is the first one. -/
theorem findNextSetBit_eq_some {i : ℕ} (h : findNextSetBit bits slot start = some i) :
    start ≤ i ∧ i < 64 ∧ bits (64 * slot + i) = true ∧
      ∀ j, start ≤ j → j < i → bits (64 * slot + j) = false := by
  unfold findNextSetBit at h
  obtain ⟨hbit, k, hk, hi, hbefore⟩ := List.find?_eq_some_iff_getElem.mp h
  simp only [List.length_range', List.getElem_range', bitsPerSlot] at hk hi hbefore hbit
  refine ⟨by omega, by omega, hbit, fun j hj hji => ?_⟩
  have hj' := hbefore (j - start) (by omega)
  rw [show start + 1 * (j - start) = j by omega] at hj'
  simpa using hj'

/-- There is no next set bit. -/
theorem findNextSetBit_eq_none (h : findNextSetBit bits slot start = none) (j : ℕ) (hj : start ≤ j)
    (hlt : j < 64) : bits (64 * slot + j) = false := by
  unfold findNextSetBit at h
  have hall := List.find?_eq_none.mp h j (List.mem_range'_1.mpr ⟨hj, by simp; omega⟩)
  simpa using hall

/-- Single bits and whole slots of a range are written, and nothing else. -/
theorem markL0_apply (hfuel : l0End - p ≤ fuel) (u : ℕ) :
    markL0 v fuel p l0End bits u = if p ≤ u ∧ u < l0End then v else bits u := by
  induction fuel generalizing p bits with
  | zero =>
    rw [if_neg (by omega)]
    rfl
  | succ fuel ih =>
    unfold markL0
    split_ifs with hlt hslot hin hin hin
    · simp only [bitsPerSlot] at hslot ⊢
      rw [ih (by omega)]
      split_ifs with hlater
      · rfl
      · exact if_pos (by simp only [bitsPerSlot]; omega)
    · simp only [bitsPerSlot] at hslot ⊢
      rw [ih (by omega), if_neg (by omega)]
      exact if_neg (by simp only [bitsPerSlot]; omega)
    · rw [ih (by omega)]
      split_ifs with hlater
      · rfl
      · have hu : u = p := by omega
        rw [hu, setBit, Function.update_self]
    · rw [ih (by omega), if_neg (by omega)]
      exact Function.update_of_ne (by omega) ..
    · omega
    · rfl

/-- The units of the range are no longer free, and all others are as before. -/
theorem markAllocL0_apply (l0Start l0End u : ℕ) : markAllocL0 bits l0Start l0End u =
    if l0Start ≤ u ∧ u < l0End then false else bits u := markL0_apply (le_refl _) u

/-- The units of the range are free, and all others are as before. -/
theorem markFreeL0_apply (l0Start l0End u : ℕ) : markFreeL0 bits l0Start l0End u =
    if l0Start ≤ u ∧ u < l0End then true else bits u := markL0_apply (le_refl _) u

/-! ## L1 -/

/-- The bits of eight slots. -/
theorem forall_slots {P : ℕ → Prop} (e : ℕ) :
    (∀ i < 8, ∀ j < 64, P (64 * (8 * e + i) + j)) ↔ ∀ j < 512, P (512 * e + j) := by
  constructor
  · intro h j hj
    have hbit := h (j / 64) (by omega) (j % 64) (by omega)
    rwa [show 64 * (8 * e + j / 64) + j % 64 = 512 * e + j by omega] at hbit
  · intro h i hi j hj
    have hbit := h (64 * i + j) (by omega)
    rwa [show 512 * e + (64 * i + j) = 64 * (8 * e + i) + j by omega] at hbit

/-- The words of an L1 entry are clear when its 512 units are. -/
theorem entryClear_iff (e : ℕ) :
    ((List.range slotsPerSlotset).all fun i => slotClear bits (slotsPerSlotset * e + i)) = true ↔
      ∀ j < 512, bits (512 * e + j) = false := by
  rw [← forall_slots (P := fun u => bits u = false)]
  simp [slotClear_iff]

/-- The words of an L1 entry are set when its 512 units are. -/
theorem entrySet_iff (e : ℕ) :
    ((List.range slotsPerSlotset).all fun i => slotSet bits (slotsPerSlotset * e + i)) = true ↔
      ∀ j < 512, bits (512 * e + j) = true := by
  rw [← forall_slots (P := fun u => bits u = true)]
  simp [slotSet_iff]

/-- An entry says that its units are taken when no one of them is free. -/
theorem entryOf_eq_full {e : ℕ} :
    entryOf bits e = .full ↔ ∀ j < 512, bits (512 * e + j) = false := by
  rw [← entryClear_iff]
  unfold entryOf
  split_ifs with h1 h2
  · exact iff_of_true rfl h1
  · exact iff_of_false (by simp) h1
  · exact iff_of_false (by simp) h1

/-- An entry says that its units are free when all of them are. -/
theorem entryOf_eq_free {e : ℕ} :
    entryOf bits e = .free ↔ ∀ j < 512, bits (512 * e + j) = true := by
  rw [← entrySet_iff]
  unfold entryOf
  split_ifs with h1 h2
  · -- An entry is not both.
    refine iff_of_false (by simp) fun h2 => ?_
    have hclear := (entryClear_iff e).mp h1 0 (by norm_num)
    rw [(entrySet_iff e).mp h2 0 (by norm_num)] at hclear
    cases hclear
  · exact iff_of_true rfl h2
  · exact iff_of_false (by simp) h2

/-- The value of an entry depends on its bits. -/
theorem entryOf_congr {bits' : ℕ → Bool} {e : ℕ} (h : ∀ j < 512, bits' (512 * e + j) =
    bits (512 * e + j)) : entryOf bits' e = entryOf bits e := by
  have hclear : ((List.range slotsPerSlotset).all fun i =>
      slotClear bits' (slotsPerSlotset * e + i)) =
      (List.range slotsPerSlotset).all fun i => slotClear bits (slotsPerSlotset * e + i) := by
    refine Bool.eq_iff_iff.mpr ?_
    rw [entryClear_iff, entryClear_iff]
    exact forall₂_congr fun j hj => by rw [h j hj]
  have hset : ((List.range slotsPerSlotset).all fun i =>
      slotSet bits' (slotsPerSlotset * e + i)) =
      (List.range slotsPerSlotset).all fun i => slotSet bits (slotsPerSlotset * e + i) := by
    refine Bool.eq_iff_iff.mpr ?_
    rw [entrySet_iff, entrySet_iff]
    exact forall₂_congr fun j hj => by rw [h j hj]
  rw [entryOf, hclear, hset, entryOf]

/-- What stays when only the summaries change. -/
structure SameL0 (s s' : State) : Prop where
  deviceSize : s'.deviceSize = s.deviceSize
  granularity : s'.granularity = s.granularity
  entries : s'.entries = s.entries
  l2Slots : s'.l2Slots = s.l2Slots
  l0 : s'.l0 = s.l0
  l2 : s'.l2 = s.l2
  available : s'.available = s.available
  lastPos : s'.lastPos = s.lastPos

/-- A state agrees with itself. -/
theorem SameL0.refl (s : State) : SameL0 s s := ⟨rfl, rfl, rfl, rfl, rfl, rfl, rfl, rfl⟩

/-- What agrees with a state that agrees with a third one agrees with it too. -/
theorem SameL0.trans {s'' : State} (h : SameL0 s s') (h' : SameL0 s' s'') : SameL0 s s'' :=
  ⟨h'.1.trans h.1, h'.2.trans h.2, h'.3.trans h.3, h'.4.trans h.4, h'.5.trans h.5, h'.6.trans h.6,
    h'.7.trans h.7, h'.8.trans h.8⟩

/-- Writing an L1 entry leaves everything else. -/
theorem sameL0_markEntry (s : State) (e : ℕ) : SameL0 s (markEntry s e) := by
  show SameL0 s (if s.l1 e = entryOf s.l0 e then s else _)
  by_cases h : s.l1 e = entryOf s.l0 e
  · rw [if_pos h]
    exact SameL0.refl s
  · rw [if_neg h]
    exact ⟨rfl, rfl, rfl, rfl, rfl, rfl, rfl, rfl⟩

/-- The entry gets what its units say. -/
theorem markEntry_l1 (s : State) (e : ℕ) :
    (markEntry s e).l1 = Function.update s.l1 e (entryOf s.l0 e) := by
  show (if s.l1 e = entryOf s.l0 e then s else _).l1 = _
  by_cases h : s.l1 e = entryOf s.l0 e
  · rw [if_pos h, ← h, Function.update_eq_self]
  · rw [if_neg h]

/-- The entries of a list are made to agree with their bits. -/
theorem foldl_markEntry (es : List ℕ) : ∀ s : State, SameL0 s (es.foldl markEntry s) ∧
    ∀ e, (es.foldl markEntry s).l1 e = if e ∈ es then entryOf s.l0 e else s.l1 e := by
  induction es with
  | nil => exact fun s => ⟨SameL0.refl s, fun e => by simp⟩
  | cons a es ih =>
    intro s
    obtain ⟨hsame, hl1⟩ := ih (markEntry s a)
    have ha := sameL0_markEntry s a
    refine ⟨ha.trans hsame, fun e => ?_⟩
    rw [List.foldl_cons, hl1, ha.l0, markEntry_l1]
    by_cases hmem : e ∈ es
    · simp [hmem]
    · by_cases he : e = a
      · simp [he]
      · simp [he, hmem]

/-- Writing a range of L1 entries leaves everything else. -/
theorem sameL0_markL1OnL0 (s : State) (a b : ℕ) : SameL0 s (markL1OnL0 s a b) :=
  (foldl_markEntry _ s).1

/-- The entries that a range of bits touches. -/
theorem markL1OnL0_l1 (s : State) (a b e : ℕ) : (markL1OnL0 s a b).l1 e =
    if a / 512 ≤ e ∧ 512 * e < b then entryOf s.l0 e else s.l1 e := by
  unfold markL1OnL0 roundUp
  rw [(foldl_markEntry _ s).2]
  refine if_congr ?_ rfl rfl
  simp only [List.mem_range'_1, bitsPerSlotset]
  omega

/-! ## The invariant -/

/-- The units under an L2 bit. -/
def Under (b u : ℕ) : Prop := 131072 * b ≤ u ∧ u < 131072 * b + 131072

/-- The summaries are true of the bits, and the bits are of the device. -/
structure Consistent (s : State) : Prop where
  /-- A unit is not empty. -/
  granularity : 0 < s.granularity
  /-- The L1 entries are enough for the device. -/
  device : s.deviceSize ≤ s.entries * s.l2Granularity
  /-- So are the L2 slots. -/
  slots : s.entries ≤ 64 * s.l2Slots
  /-- A set bit has L1 entries. -/
  l0 : ∀ u, s.l0 u = true → u < 131072 * s.entries
  /-- An L1 entry says what its bits are. -/
  l1 : ∀ e < 256 * s.entries, s.l1 e = entryOf s.l0 e
  /-- An L2 bit says whether a unit under it is free. -/
  l2 : ∀ b, s.l2 b = true ↔ ∃ u, Under b u ∧ s.l0 u = true

/-- The bits of a range are written, and then the entries that it touches. -/
theorem markL1OnL0_of_changed {N a b : ℕ} (hl1 : ∀ e < N, s.l1 e = entryOf s.l0 e)
    (hout : ∀ u, ¬ (a ≤ u ∧ u < b) → bits u = s.l0 u) (e : ℕ) (he : e < N) :
    (markL1OnL0 { s with l0 := bits } a b).l1 e = entryOf bits e := by
  rw [markL1OnL0_l1]
  by_cases hin : a / 512 ≤ e ∧ 512 * e < b
  · exact if_pos hin
  · rw [if_neg hin]
    refine (hl1 e he).trans (entryOf_congr fun j hj => (hout _ ?_).symm)
    omega

/-- To round the range to whole entries makes no difference. -/
theorem markL1OnL0_aligned (a b e : ℕ) :
    (markL1OnL0 s (alignDown a bitsPerSlotset) (roundUp b bitsPerSlotset)).l1 e =
      (markL1OnL0 s a b).l1 e := by
  rw [markL1OnL0_l1, markL1OnL0_l1]
  refine if_congr ?_ rfl rfl
  simp only [alignDown, roundUp, bitsPerSlotset]
  omega

/-- A unit before the end of a range, where the end is rounded up. -/
theorem lt_roundUp_div {a u w : ℕ} (ha : 0 < a) : u < roundUp w a / a ↔ a * u < w := by
  rw [roundUp, Nat.mul_div_cancel _ ha, Nat.lt_iff_add_one_le, Nat.le_div_iff_mul_le ha,
    Nat.mul_comm a u, Nat.add_mul]
  omega

/-- An L2 entry stands for 131072 units. -/
theorem l2Granularity_eq (s : State) : s.l2Granularity = s.granularity * 131072 := by
  simp only [l2Granularity, bitsPerSlotset, l1PerL2]
  omega

/-- The L2 entries of a range depend on the granularity only. -/
theorem l2First_congr (h : s'.granularity = s.granularity) (o : ℕ) :
    s'.l2First o = s.l2First o := by
  unfold l2First l2Granularity
  rw [h]

/-- The last L2 entry of a range depends on the size of a unit alone. -/
theorem l2Last_congr (h : s'.granularity = s.granularity) (o : ℕ) :
    s'.l2Last o = s.l2Last o := by
  unfold l2Last l2Granularity
  rw [h]

/-- The L2 entries from the first one of an offset on are those that end behind it. -/
theorem l2First_le_iff {b offset : ℕ} :
    s.l2First offset ≤ b ↔ offset / s.granularity < 131072 * b + 131072 := by
  rw [l2First, l2Granularity_eq, ← Nat.div_div_eq_div_mul]
  omega

/-- The L2 entries before the last one of an end are those that begin before it. -/
theorem lt_l2Last_iff (hg : 0 < s.granularity) {b stop : ℕ} :
    b < s.l2Last stop ↔ s.granularity * (131072 * b) < stop := by
  rw [l2Last, lt_roundUp_div (by rw [l2Granularity_eq]; omega), l2Granularity_eq, Nat.mul_assoc]

/-- A range of the device touches an L2 entry when it touches a unit under it. -/
theorem l2_range_iff (hg : 0 < s.granularity) {b offset len : ℕ} (hlen : 0 < len) :
    s.l2First offset ≤ b ∧ b < s.l2Last (offset + len) ↔
      ∃ u, Under b u ∧ offset / s.granularity ≤ u ∧ s.granularity * u < offset + len := by
  rw [l2First_le_iff, lt_l2Last_iff hg]
  constructor
  · rintro ⟨h1, h2⟩
    refine ⟨max (131072 * b) (offset / s.granularity), ⟨le_max_left _ _, by omega⟩,
      le_max_right _ _, ?_⟩
    rcases max_cases (131072 * b) (offset / s.granularity) with ⟨hmax, -⟩ | ⟨hmax, -⟩
    · rwa [hmax]
    · rw [hmax]
      have := Nat.mul_div_le offset s.granularity
      omega
  · rintro ⟨u, ⟨hu1, hu2⟩, h1, h2⟩
    exact ⟨by omega, (Nat.mul_le_mul_left _ hu1).trans_lt h2⟩

/-! ## Space is given back -/

/-- Only the bits of the range and the summaries change. -/
theorem sameL0_markFreeL1L0 (s : State) (a b : ℕ) :
    SameL0 { s with l0 := markFreeL0 s.l0 a b } (s.markFreeL1L0 a b) := sameL0_markL1OnL0 _ _ _

/-- Taking a range of units leaves everything but L0 and L1. -/
theorem sameL0_markAllocL1L0 (s : State) (a b : ℕ) :
    SameL0 { s with l0 := markAllocL0 s.l0 a b } (s.markAllocL1L0 a b) := sameL0_markL1OnL0 _ _ _

/-- The bits after a range is freed. -/
theorem freeL1_l0 (hg : 0 < s.granularity) (offset len u : ℕ) : (s.freeL1 offset len).l0 u =
    if offset / s.granularity ≤ u ∧ s.granularity * u < offset + len then true else s.l0 u := by
  rw [freeL1, (sameL0_markFreeL1L0 _ _ _).l0]
  show markFreeL0 s.l0 _ _ u = _
  rw [markFreeL0_apply]
  refine if_congr (and_congr_right fun _ => ?_) rfl rfl
  exact lt_roundUp_div hg

/-- The bits of a list are written. -/
theorem foldl_setBit (f : ℕ → Bool) (p : ℕ) : ∀ (ps : List ℕ) (l2 : ℕ → Bool),
    ps.foldl (fun l2 p => setBit l2 p (f p)) l2 p = if p ∈ ps then f p else l2 p := by
  intro ps
  induction ps with
  | nil => exact fun l2 => by simp
  | cons q ps ih =>
    intro l2
    rw [List.foldl_cons, ih]
    by_cases hq : p = q
    · subst hq
      simp [setBit]
    · simp [hq, setBit]

/-- The L2 entries of the range are set, and all others are as before. -/
theorem markL2Free_l2 (a b p : ℕ) :
    (s.markL2Free a b).l2 p = if a ≤ p ∧ p < b then true else s.l2 p := by
  show (List.range' a (b - a)).foldl (fun l2 p => setBit l2 p true) s.l2 p = _
  rw [foldl_setBit fun _ => true]
  refine if_congr ?_ rfl rfl
  rw [List.mem_range'_1]
  omega

/-- A unit of a range of the device has L1 entries. -/
theorem Consistent.unit_lt (h : Consistent s) {u stop : ℕ} (hu : s.granularity * u < stop)
    (hstop : stop ≤ s.deviceSize) : u < 131072 * s.entries := by
  have hdev := h.device
  rw [l2Granularity_eq, ← Nat.mul_assoc, Nat.mul_comm s.entries, Nat.mul_assoc,
    Nat.mul_comm s.entries] at hdev
  exact Nat.lt_of_mul_lt_mul_left (hu.trans_le (hstop.trans hdev))

/-- A range that is given back leaves the summaries true of the bits. -/
theorem Consistent.free (h : Consistent s) {offset len : ℕ} (hlen : 0 < len)
    (hdev : offset + len ≤ s.deviceSize) :
    Consistent ((s.freeL1 offset len).markL2Free ((s.freeL1 offset len).l2First offset)
      ((s.freeL1 offset len).l2Last (offset + len))) := by
  have hg := h.granularity
  -- The device stays, and so do the bits but for the range.
  have hsame := sameL0_markFreeL1L0 s (offset / s.granularity)
    (roundUp (offset + len) s.granularity / s.granularity)
  change SameL0 _ (s.freeL1 offset len) at hsame
  have hgran : (s.freeL1 offset len).granularity = s.granularity := hsame.granularity
  rw [l2First_congr hgran, l2Last_congr hgran]
  have hl0 := freeL1_l0 hg offset len
  -- The summaries cover the range, or were true before.
  constructor
  case granularity => exact hsame.granularity ▸ hg
  case device =>
    show (s.freeL1 offset len).deviceSize ≤
      (s.freeL1 offset len).entries * (s.freeL1 offset len).l2Granularity
    unfold l2Granularity
    rw [hsame.deviceSize, hsame.entries, hsame.granularity]
    exact h.device
  case slots =>
    show (s.freeL1 offset len).entries ≤ 64 * (s.freeL1 offset len).l2Slots
    rw [hsame.entries, hsame.l2Slots]
    exact h.slots
  case l0 =>
    intro u hu
    change (s.freeL1 offset len).l0 u = true at hu
    show u < 131072 * (s.freeL1 offset len).entries
    rw [hsame.entries]
    rw [hl0] at hu
    split_ifs at hu with hin
    · exact h.unit_lt hin.2 hdev
    · exact h.l0 u hu
  case l1 =>
    intro e he
    change e < 256 * (s.freeL1 offset len).entries at he
    rw [hsame.entries] at he
    show (s.freeL1 offset len).l1 e = entryOf (s.freeL1 offset len).l0 e
    rw [freeL1, markFreeL1L0, markL1OnL0_aligned, (sameL0_markL1OnL0 _ _ _).l0]
    refine markL1OnL0_of_changed h.l1 (fun u hu => ?_) e he
    rw [markFreeL0_apply, if_neg hu]
  case l2 =>
    intro b
    rw [markL2Free_l2, hsame.l2]
    show (if _ then true else s.l2 b) = true ↔ ∃ u, Under b u ∧ (s.freeL1 offset len).l0 u = true
    by_cases hin : s.l2First offset ≤ b ∧ b < s.l2Last (offset + len)
    · obtain ⟨u, hu, hu1, hu2⟩ := (l2_range_iff hg hlen).mp hin
      rw [if_pos hin]
      exact iff_of_true rfl ⟨u, hu, by rw [hl0, if_pos ⟨hu1, hu2⟩]⟩
    · rw [if_neg hin, h.l2]
      refine exists_congr fun u => and_congr_right fun hu => ?_
      rw [hl0, if_neg fun hr => hin ((l2_range_iff hg hlen).mpr ⟨u, hu, hr⟩)]

/-! ## Space is taken out -/

/-- An L2 entry has a unit that is free when one of its L1 entries is not full. -/
theorem any_not_full_iff {b : ℕ} (hl1 : ∀ e < 256 * s.entries, s.l1 e = entryOf s.l0 e)
    (hb : b < s.entries) :
    ((List.range' (l1PerL2 * b) l1PerL2).any fun e => s.l1 e ≠ .full) = true ↔
      ∃ u, Under b u ∧ s.l0 u = true := by
  simp only [l1PerL2, List.any_eq_true, List.mem_range'_1, decide_eq_true_eq]
  constructor
  · rintro ⟨e, he, hne⟩
    rw [hl1 e (by omega), Ne, entryOf_eq_full] at hne
    push Not at hne
    obtain ⟨j, hj, hbit⟩ := hne
    exact ⟨512 * e + j, ⟨by omega, by omega⟩, by simpa using hbit⟩
  · rintro ⟨u, ⟨hu1, hu2⟩, hbit⟩
    refine ⟨u / 512, by omega, ?_⟩
    rw [hl1 _ (by omega), Ne, entryOf_eq_full]
    intro hfull
    have hclear := hfull (u % 512) (by omega)
    rw [show 512 * (u / 512) + u % 512 = u by omega, hbit] at hclear
    cases hclear

/-- What `_mark_l2_on_l1` changes. -/
theorem markL2OnL1_eq_some {a b : ℕ} (h : s.markL2OnL1 a b = some s') :
    (b ≤ a ∨ b ≤ s.entries) ∧ s' = { s with l2 := s'.l2 } ∧
      ∀ p, s'.l2 p = if a ≤ p ∧ p < b then
        (List.range' (l1PerL2 * p) l1PerL2).any fun e => s.l1 e ≠ .full else s.l2 p := by
  unfold markL2OnL1 at h
  split_ifs at h with hb
  obtain rfl := Option.some.inj h
  refine ⟨hb, rfl, fun p => ?_⟩
  show (List.range' a (b - a)).foldl _ s.l2 p = _
  rw [foldl_setBit fun p => (List.range' (l1PerL2 * p) l1PerL2).any fun e => s.l1 e ≠ .full]
  refine if_congr ?_ rfl rfl
  rw [List.mem_range'_1]
  omega

/-- The bits of an allocator are changed in a range of L2 entries, which are then made true. -/
theorem Consistent.markL2OnL1 (s₁ : State) {s₂ : State} {a b : ℕ} (h : Consistent s)
    (hsame : SameL0 { s with l0 := s₁.l0, available := s₁.available } s₁)
    (hle : ∀ u, s₁.l0 u = true → s.l0 u = true)
    (hl1 : ∀ e < 256 * s.entries, s₁.l1 e = entryOf s₁.l0 e)
    (hout : ∀ p, ¬ (a ≤ p ∧ p < b) → ∀ u, Under p u → s₁.l0 u = s.l0 u)
    (hm : s₁.markL2OnL1 a b = some s₂) : Consistent s₂ ∧ s₂.l0 = s₁.l0 := by
  obtain ⟨hb, heq, hl2⟩ := markL2OnL1_eq_some hm
  rw [heq]
  have hentries : s₁.entries = s.entries := hsame.entries
  refine ⟨⟨?_, ?_, ?_, fun u hu => ?_, ?_, fun p => ?_⟩, rfl⟩
  · exact hsame.granularity ▸ h.granularity
  · show s₁.deviceSize ≤ s₁.entries * s₁.l2Granularity
    unfold l2Granularity
    rw [hsame.deviceSize, hentries, hsame.granularity]
    exact h.device
  · show s₁.entries ≤ 64 * s₁.l2Slots
    rw [hentries, hsame.l2Slots]
    exact h.slots
  · show u < 131072 * s₁.entries
    rw [hentries]
    exact h.l0 u (hle u hu)
  · show ∀ e < 256 * s₁.entries, s₁.l1 e = entryOf s₁.l0 e
    rwa [hentries]
  · show s₂.l2 p = true ↔ ∃ u, Under p u ∧ s₁.l0 u = true
    rw [hl2]
    by_cases hin : a ≤ p ∧ p < b
    · rw [if_pos hin]
      exact any_not_full_iff (hentries ▸ hl1) (by omega)
    · rw [if_neg hin, hsame.l2]
      refine (h.l2 p).trans (exists_congr fun u => and_congr_right fun hu => ?_)
      rw [hout p hin u hu]

/-- A range that is taken leaves the summaries true of the bits, and takes the units of the range
alone. -/
theorem Consistent.markAllocated (h : Consistent s) {offset len : ℕ} (hlen : 0 < len)
    (hm : s.markAllocated offset len = some s') :
    Consistent s' ∧ ∀ u, s'.l0 u =
      if offset / s.granularity ≤ u ∧ s.granularity * u < offset + len then false else s.l0 u := by
  have hg := h.granularity
  obtain ⟨t, ht, hm⟩ := Option.bind_eq_some_iff.mp hm
  split_ifs at hm with havail
  obtain rfl := Option.some.inj hm
  have hsame := sameL0_markAllocL1L0 s (offset / s.granularity)
    (roundUp (offset + len) s.granularity / s.granularity)
  have hl0 : ∀ u, (s.markAllocL1L0 (offset / s.granularity)
      (roundUp (offset + len) s.granularity / s.granularity)).l0 u =
      if offset / s.granularity ≤ u ∧ s.granularity * u < offset + len then false
      else s.l0 u := by
    intro u
    rw [hsame.l0]
    show markAllocL0 s.l0 _ _ u = _
    rw [markAllocL0_apply]
    exact if_congr (and_congr_right fun _ => lt_roundUp_div hg) rfl rfl
  have hgran : (s.markAllocL1L0 (offset / s.granularity)
      (roundUp (offset + len) s.granularity / s.granularity)).granularity = s.granularity :=
    hsame.granularity
  rw [l2First_congr hgran, l2Last_congr hgran] at ht
  obtain ⟨hcons, htl0⟩ : Consistent t ∧ t.l0 = _ := by
    refine h.markL2OnL1 _ ⟨hsame.1, hsame.2, hsame.3, hsame.4, rfl, hsame.6, rfl, hsame.8⟩
      (fun u hu => ?_) (fun e he => ?_) (fun p hp u hu => ?_) ht
    · rw [hl0] at hu
      split_ifs at hu
      exact hu
    · rw [markAllocL1L0, markL1OnL0_aligned, (sameL0_markL1OnL0 _ _ _).l0]
      refine markL1OnL0_of_changed h.l1 (fun u hu => ?_) e he
      rw [markAllocL0_apply, if_neg hu]
    · rw [hl0, if_neg fun hr => hp ((l2_range_iff hg hlen).mpr ⟨u, hu, hr⟩)]
  refine ⟨⟨hcons.1, hcons.2, hcons.3, hcons.4, hcons.5, hcons.6⟩, fun u => ?_⟩
  show t.l0 u = _
  rw [htl0, hl0]

/-! ## Space is claimed -/

/-- The bits of a range are cleared. -/
def Cleared (bits bits' : ℕ → Bool) (a b : ℕ) : Prop :=
  a ≤ b ∧ ∀ u, bits' u = if a ≤ u ∧ u < b then false else bits u

/-- No bit of an empty range is to be cleared. -/
theorem Cleared.refl (bits : ℕ → Bool) (a : ℕ) : Cleared bits bits a a :=
  ⟨le_refl a, fun u => (if_neg (by omega)).symm⟩

/-- Two ranges that touch. -/
theorem Cleared.trans {bits' bits'' : ℕ → Bool} {a b c : ℕ} (h : Cleared bits bits' b c)
    (h' : Cleared bits' bits'' a b) : Cleared bits bits'' a c := by
  refine ⟨h'.1.trans h.1, fun u => ?_⟩
  have hab := h'.1
  have hbc := h.1
  rw [h'.2, h.2]
  by_cases h1 : a ≤ u ∧ u < b
  · rw [if_pos h1, if_pos (by omega)]
  · by_cases h2 : b ≤ u ∧ u < c
    · rw [if_neg h1, if_pos h2, if_pos (by omega)]
    · rw [if_neg h1, if_neg h2, if_neg (by omega)]

/-- The same, from the left. -/
theorem Cleared.trans_right {bits' bits'' : ℕ → Bool} {a b c : ℕ} (h : Cleared bits bits' a b)
    (h' : Cleared bits' bits'' b c) : Cleared bits bits'' a c := by
  refine ⟨h.1.trans h'.1, fun u => ?_⟩
  have hab := h.1
  have hbc := h'.1
  rw [h'.2, h.2]
  by_cases h1 : a ≤ u ∧ u < b
  · rw [if_pos h1, if_neg (by omega), if_pos (by omega)]
  · by_cases h2 : b ≤ u ∧ u < c
    · rw [if_pos h2, if_pos (by omega)]
    · rw [if_neg h2, if_neg h1, if_neg (by omega)]

/-- A bit is cleared. -/
theorem cleared_setBit (bits : ℕ → Bool) (p : ℕ) :
    Cleared bits (setBit bits p false) p (p + 1) := by
  refine ⟨Nat.le_succ p, fun u => ?_⟩
  by_cases hu : u = p
  · subst hu
    simp [setBit]
  · rw [if_neg (by omega)]
    exact Function.update_of_ne hu ..

/-- A slot is cleared. -/
theorem cleared_setSlot (bits : ℕ → Bool) (q : ℕ) :
    Cleared bits (setSlot bits q false) (64 * q) (64 * q + 64) := by
  refine ⟨by omega, fun u => ?_⟩
  simp only [setSlot, bitsPerSlot]
  exact if_congr (by omega) rfl rfl

/-- The loop over bits clears free units from the right to the left, and ends at the first taken one
or behind `n` of them. -/
theorem claimBitsLeft_spec : ∀ (n p : ℕ) (bits : ℕ → Bool), n ≤ p →
    Cleared bits (claimBitsLeft n p bits).2.2 (claimBitsLeft n p bits).2.1 p ∧
      ((claimBitsLeft n p bits).1 = false → (claimBitsLeft n p bits).2.1 = p - n)
  | 0, p, bits, _ => ⟨Cleared.refl bits p, fun _ => rfl⟩
  | n + 1, p, bits, hn => by
    unfold claimBitsLeft
    split_ifs with hbit
    · obtain ⟨hc, hstop⟩ := claimBitsLeft_spec n (p - 1) (setBit bits (p - 1) false) (by omega)
      have hfirst := cleared_setBit bits (p - 1)
      rw [Nat.sub_add_cancel (by omega)] at hfirst
      exact ⟨hfirst.trans hc, fun h => by rw [hstop h]; omega⟩
    · exact ⟨Cleared.refl bits p, fun h => by cases h⟩

/-- The loop over words clears those that are wholly free, and ends at the end of a word. -/
theorem claimSlotsLeft_spec : ∀ (n : ℕ) (bits : ℕ → Bool),
    Cleared bits (claimSlotsLeft n (64 * n) bits).2 (claimSlotsLeft n (64 * n) bits).1 (64 * n) ∧
      64 ∣ (claimSlotsLeft n (64 * n) bits).1
  | 0, bits => ⟨Cleared.refl bits _, dvd_mul_right 64 0⟩
  | n + 1, bits => by
    unfold claimSlotsLeft
    split_ifs with hslot
    · obtain ⟨hc, hdvd⟩ := claimSlotsLeft_spec n (setSlot bits n false)
      have hp : 64 * (n + 1) - bitsPerSlot = 64 * n := by simp only [bitsPerSlot]; omega
      rw [hp]
      exact ⟨(cleared_setSlot bits n).trans hc, hdvd⟩
    · exact ⟨Cleared.refl bits _, dvd_mul_right _ _⟩

/-- A claim to the left clears the bits from where it ends. -/
theorem claimFreeToLeftL0_spec {p r : ℕ} {bits' : ℕ → Bool}
    (h : s.claimFreeToLeftL0 p = some (r, bits')) : Cleared s.l0 bits' r p := by
  unfold claimFreeToLeftL0 at h
  split_ifs at h with hp
  push Not at hp
  have hone := claimBitsLeft_spec ((p - 1) % bitsPerSlot + 1) p s.l0 (by
    have := Nat.mod_le (p - 1) bitsPerSlot
    omega)
  rcases hfirst : claimBitsLeft ((p - 1) % bitsPerSlot + 1) p s.l0 with ⟨stop, p1, bits1⟩
  rw [hfirst] at h hone
  obtain ⟨hc1, hstop⟩ := hone
  cases stop with
  | true =>
    obtain ⟨rfl, rfl⟩ := Prod.mk.inj (Option.some.inj h)
    exact hc1
  | false =>
    -- The slot that `p` is in is done with.
    have hp1 : p1 = 64 * (p1 / 64) := by
      have hp1 : p1 = p - ((p - 1) % 64 + 1) := hstop rfl
      omega
    have htwo := claimSlotsLeft_spec (p1 / bitsPerSlot) bits1
    rw [show 64 * (p1 / bitsPerSlot) = p1 from hp1.symm] at htwo
    rcases hslots : claimSlotsLeft (p1 / bitsPerSlot) p1 bits1 with ⟨p2, bits2⟩
    simp only [hslots] at h htwo
    obtain ⟨hc2, hdvd⟩ := htwo
    split_ifs at h with hmore
    · obtain ⟨rfl, rfl⟩ := Prod.mk.inj (Option.some.inj h)
      have hle : 64 ≤ p2 := Nat.le_of_dvd hmore.1 hdvd
      exact (hc1.trans hc2).trans (claimBitsLeft_spec 64 p2 bits2 hle).1
    · obtain ⟨rfl, rfl⟩ := Prod.mk.inj (Option.some.inj h)
      exact hc1.trans hc2

/-- The loop over bits clears free units from the left to the right, and ends at the first taken one
or behind `n` of them. -/
theorem claimBitsRight_spec : ∀ (n p : ℕ) (bits : ℕ → Bool),
    Cleared bits (claimBitsRight n p bits).2.2 p (claimBitsRight n p bits).2.1 ∧
      ((claimBitsRight n p bits).1 = false → (claimBitsRight n p bits).2.1 = p + n)
  | 0, p, bits => ⟨Cleared.refl bits p, fun _ => rfl⟩
  | n + 1, p, bits => by
    unfold claimBitsRight
    split_ifs with hbit
    · obtain ⟨hc, hstop⟩ := claimBitsRight_spec n (p + 1) (setBit bits p false)
      exact ⟨(cleared_setBit bits p).trans_right hc, fun h => by rw [hstop h]; omega⟩
    · exact ⟨Cleared.refl bits p, fun h => by cases h⟩

/-- The loop over words clears those that are wholly free. -/
theorem claimSlotsRight_spec : ∀ (n q : ℕ) (bits : ℕ → Bool),
    Cleared bits (claimSlotsRight n (64 * q) bits).2 (64 * q) (claimSlotsRight n (64 * q) bits).1
  | 0, q, bits => Cleared.refl bits _
  | n + 1, q, bits => by
    unfold claimSlotsRight
    have hq : 64 * q / bitsPerSlot = q := by simp
    rw [hq]
    split_ifs with hslot
    · exact (cleared_setSlot bits q).trans_right (claimSlotsRight_spec n (q + 1) _)
    · exact Cleared.refl bits _

/-- A claim to the right clears the bits up to where it ends. -/
theorem claimFreeToRightL0_spec (s : State) (p : ℕ) :
    Cleared s.l0 (s.claimFreeToRightL0 p).2 p (s.claimFreeToRightL0 p).1 := by
  unfold claimFreeToRightL0
  split_ifs with hp
  · exact Cleared.refl s.l0 p
  · have hone := claimBitsRight_spec (bitsPerSlot - p % bitsPerSlot) p s.l0
    rcases hfirst : claimBitsRight (bitsPerSlot - p % bitsPerSlot) p s.l0 with ⟨stop, p1, bits1⟩
    rw [hfirst] at hone
    obtain ⟨hc1, hstop⟩ := hone
    cases stop with
    | true => exact hc1
    | false =>
      have hp1 : p1 = 64 * (p1 / 64) := by
        have hp1 : p1 = p + (64 - p % 64) := hstop rfl
        omega
      have htwo := claimSlotsRight_spec (s.l0Slots - p1 / bitsPerSlot) (p1 / bitsPerSlot) bits1
      rw [show 64 * (p1 / bitsPerSlot) = p1 from hp1.symm] at htwo
      rcases hslots : claimSlotsRight (s.l0Slots - p1 / bitsPerSlot) p1 bits1 with ⟨p2, bits2⟩
      simp only [hslots] at htwo ⊢
      split_ifs with hmore
      · exact (hc1.trans_right htwo).trans_right (claimBitsRight_spec 64 p2 bits2).1
      · exact hc1.trans_right htwo

/-- Claimed bits are taken out of the L1 entries. -/
theorem Consistent.claimedL1 (h : Consistent s) {a b : ℕ} (hc : Cleared s.l0 bits a b) :
    SameL0 { s with l0 := bits } (s.claimedL1 bits a b).2 ∧
      (∀ e < 256 * s.entries, (s.claimedL1 bits a b).2.l1 e = entryOf bits e) ∧
      (s.claimedL1 bits a b).1 = s.granularity * (b - a) := by
  have hout : ∀ u, ¬ (a ≤ u ∧ u < b) → bits u = s.l0 u := fun u hu => by rw [hc.2, if_neg hu]
  unfold State.claimedL1
  simp only
  split_ifs with hab
  · refine ⟨sameL0_markL1OnL0 _ _ _, fun e he => ?_, rfl⟩
    simp only
    rw [markL1OnL0_aligned]
    exact markL1OnL0_of_changed h.l1 hout e he
  · refine ⟨SameL0.refl _, fun e he => ?_, by rw [Nat.sub_eq_zero_of_le (not_lt.mp hab), mul_zero]⟩
    exact (h.l1 e he).trans (entryOf_congr fun j _ => (hout _ (by omega)).symm)

/-- Claimed bits are taken out of the L2 entries. -/
theorem Consistent.claimed (h : Consistent s) {a b o1 o2 avail : ℕ} (hc : Cleared s.l0 bits a b)
    (hfirst : o1 / s.granularity ≤ a) (hlast : s.granularity * b ≤ o2)
    (hm : State.markL2OnL1 { (s.claimedL1 bits a b).2 with available := avail }
      ((s.claimedL1 bits a b).2.l2First o1) ((s.claimedL1 bits a b).2.l2Last o2) = some s') :
    Consistent s' ∧ s'.l0 = bits ∧
      SameL0 { s with l0 := s'.l0, l2 := s'.l2, available := avail } s' := by
  obtain ⟨hsame, hl1, -⟩ := h.claimedL1 hc
  have hg := h.granularity
  have hl0 : (s.claimedL1 bits a b).2.l0 = bits := hsame.l0
  have hgran : (s.claimedL1 bits a b).2.granularity = s.granularity := hsame.granularity
  obtain ⟨hcons, hbits⟩ : Consistent s' ∧ s'.l0 = (s.claimedL1 bits a b).2.l0 := by
    refine h.markL2OnL1 { (s.claimedL1 bits a b).2 with available := avail }
      ⟨hsame.1, hsame.2, hsame.3, hsame.4, rfl, hsame.6, rfl, hsame.8⟩
      (fun u hu => ?_) (fun e he => ?_) (fun p hp u hu => ?_) hm
    · change (s.claimedL1 bits a b).2.l0 u = true at hu
      rw [hl0, hc.2] at hu
      split_ifs at hu
      exact hu
    · show (s.claimedL1 bits a b).2.l1 e = entryOf (s.claimedL1 bits a b).2.l0 e
      rw [hl0]
      exact hl1 e he
    · show (s.claimedL1 bits a b).2.l0 u = s.l0 u
      rw [hl0, hc.2, if_neg]
      rintro ⟨ha, hb⟩
      refine hp ⟨?_, ?_⟩
      · rw [l2First_le_iff, hgran]
        exact hfirst.trans_lt (ha.trans_lt hu.2)
      · rw [lt_l2Last_iff (hgran ▸ hg), hgran]
        calc s.granularity * (131072 * p) ≤ s.granularity * u := Nat.mul_le_mul_left _ hu.1
          _ < s.granularity * b := Nat.mul_lt_mul_of_pos_left hb hg
          _ ≤ o2 := hlast
  refine ⟨hcons, hbits.trans hl0, ?_⟩
  rw [(markL2OnL1_eq_some hm).2.1]
  exact ⟨hsame.1, hsame.2, hsame.3, hsame.4, rfl, rfl, rfl, hsame.8⟩

/-- A claim to the left leaves the summaries true of the bits. -/
theorem Consistent.claimFreeToLeft (h : Consistent s) {offset a : ℕ}
    (hm : s.claimFreeToLeft offset = some (a, s')) : Consistent s' ∧
      SameL0 { s with l0 := s'.l0, l2 := s'.l2, available := s.available - a } s' ∧
      a ≤ s.available ∧ ∃ r, s.claimFreeToLeftL0 (offset / s.granularity) = some (r, s'.l0) ∧
        a = s.granularity * (offset / s.granularity - r) := by
  obtain ⟨⟨r, bits⟩, hr, hm⟩ := Option.bind_eq_some_iff.mp hm
  have hc := claimFreeToLeftL0_spec hr
  obtain ⟨hsame, -, hlen⟩ := h.claimedL1 hc
  have hkept : (s.claimedL1 bits r (offset / s.granularity)).2.available = s.available :=
    hsame.available
  simp only at hm
  split_ifs at hm with havail
  obtain ⟨t, ht, hm⟩ := Option.bind_eq_some_iff.mp hm
  obtain ⟨rfl, rfl⟩ := Prod.mk.inj (Option.some.inj hm)
  rw [hlen, hkept] at ht havail
  rw [hlen]
  have hback : (offset - s.granularity * (offset / s.granularity - r)) / s.granularity = r := by
    have hle := hc.1
    rw [Nat.sub_mul_div]
    omega
  obtain ⟨hcons, hl0, hall⟩ := h.claimed hc hback.le (Nat.mul_div_le _ _) ht
  exact ⟨hcons, hall, havail, r, hl0 ▸ hr, rfl⟩

/-- A claim to the right leaves the summaries true of the bits. -/
theorem Consistent.claimFreeToRight (h : Consistent s) {offset a : ℕ}
    (hm : s.claimFreeToRight offset = some (a, s')) : Consistent s' ∧
      SameL0 { s with l0 := s'.l0, l2 := s'.l2, available := s.available - a } s' ∧
      a ≤ s.available ∧ (s.claimFreeToRightL0 (offset / s.granularity)).2 = s'.l0 ∧
        a = s.granularity *
          ((s.claimFreeToRightL0 (offset / s.granularity)).1 - offset / s.granularity) := by
  have hc := claimFreeToRightL0_spec s (offset / s.granularity)
  obtain ⟨hsame, -, hlen⟩ := h.claimedL1 hc
  have hkept : (s.claimedL1 (s.claimFreeToRightL0 (offset / s.granularity)).2
      (offset / s.granularity) (s.claimFreeToRightL0 (offset / s.granularity)).1).2.available =
      s.available := hsame.available
  unfold State.claimFreeToRight at hm
  simp only at hm
  split_ifs at hm with havail
  obtain ⟨t, ht, hm⟩ := Option.bind_eq_some_iff.mp hm
  obtain ⟨rfl, rfl⟩ := Prod.mk.inj (Option.some.inj hm)
  rw [hlen, hkept] at ht havail
  rw [hlen]
  have hlast : s.granularity * (s.claimFreeToRightL0 (offset / s.granularity)).1 ≤
      offset + s.granularity * ((s.claimFreeToRightL0 (offset / s.granularity)).1 -
        offset / s.granularity) := by
    calc s.granularity * (s.claimFreeToRightL0 (offset / s.granularity)).1
        = s.granularity * (offset / s.granularity) + s.granularity *
          ((s.claimFreeToRightL0 (offset / s.granularity)).1 - offset / s.granularity) := by
          rw [← Nat.mul_add, Nat.add_sub_cancel' hc.1]
      _ ≤ _ := Nat.add_le_add_right (Nat.mul_div_le _ _) _
  obtain ⟨hcons, hl0, hall⟩ := h.claimed hc (le_refl _) hlast ht
  exact ⟨hcons, hall, havail, hl0.symm, rfl⟩

/-! ## The other calls -/

/-- The invariant does not look at `available`. -/
theorem Consistent.withAvailable (h : Consistent s) (n : ℕ) :
    Consistent { s with available := n } := ⟨h.1, h.2, h.3, h.4, h.5, h.6⟩

/-- A new allocator has summaries that are true of its bits. -/
theorem consistent_create {capacity allocUnit : ℕ} (hg : 0 < allocUnit) :
    Consistent (create capacity allocUnit) where
  granularity := hg
  device := by
    show capacity ≤ _ / _ * _
    have hpos : 0 < allocUnit * bitsPerSlotset * l1PerL2 := by simp; exact hg
    unfold roundUp
    rw [Nat.mul_div_cancel _ hpos]
    show capacity ≤ (capacity + (allocUnit * bitsPerSlotset * l1PerL2 - 1)) /
      (allocUnit * bitsPerSlotset * l1PerL2) * (allocUnit * bitsPerSlotset * l1PerL2)
    have hmod := Nat.mod_lt (capacity + (allocUnit * bitsPerSlotset * l1PerL2 - 1)) hpos
    have hdiv := Nat.div_add_mod' (capacity + (allocUnit * bitsPerSlotset * l1PerL2 - 1))
      (allocUnit * bitsPerSlotset * l1PerL2)
    omega
  slots := by
    show roundUp capacity _ / _ ≤ 64 * (roundUp capacity _ / _ / bitsPerSlot)
    have hpos : 0 < allocUnit * bitsPerSlotset * l1PerL2 := by simp; exact hg
    rw [Nat.div_div_eq_div_mul]
    by_contra hlt
    rw [not_le, lt_roundUp_div hpos, ← Nat.mul_assoc] at hlt
    have hpos' : 0 < allocUnit * bitsPerSlotset * l1PerL2 * bitsPerSlot :=
      Nat.mul_pos hpos (by decide)
    exact absurd ((lt_roundUp_div hpos').mpr hlt) (lt_irrefl _)
  l0 u hu := by cases hu
  l1 e _ := by
    show L1Entry.full = entryOf (fun _ => false) e
    exact (entryOf_eq_full.mpr fun _ _ => rfl).symm
  l2 b := by
    refine iff_of_false (by simp [create]) ?_
    rintro ⟨u, -, hu⟩
    cases hu

/-- `init_add_free` leaves the summaries true of the bits. -/
theorem Consistent.initAddFree (h : Consistent s) {offset length : ℕ}
    (hm : s.initAddFree offset length = some s') : Consistent s' := by
  unfold State.initAddFree at hm
  simp only at hm
  split_ifs at hm with h0 hlow hlen hdev
  · exact Option.some.inj hm ▸ h
  · exact Option.some.inj hm ▸ h
  · rw [← Option.some.inj hm]
    exact (h.free (Nat.pos_of_ne_zero hlen) hdev).withAvailable _

/-- `init_rm_free` leaves the summaries true of the bits. -/
theorem Consistent.initRmFree (h : Consistent s) {offset length : ℕ}
    (hm : s.initRmFree offset length = some s') : Consistent s' := by
  unfold State.initRmFree at hm
  simp only at hm
  split_ifs at hm with h0 hlow hlen hdev
  · exact Option.some.inj hm ▸ h
  · exact Option.some.inj hm ▸ h
  · exact (h.markAllocated (Nat.pos_of_ne_zero hlen) hm).1

/-- `release` leaves the summaries true of the bits. -/
theorem Consistent.release (h : Consistent s) {rr : List Interval}
    (hm : s.release rr = some s') : Consistent s' := by
  unfold State.release at hm
  split_ifs at hm with hall
  rw [← Option.some.inj hm]
  refine Consistent.withAvailable ?_ _
  simp only [List.all_eq_true, decide_eq_true_eq] at hall
  -- Each interval is freed in a consistent state of the same device.
  clear hm
  induction rr generalizing s with
  | nil => exact h
  | cons r rr ih =>
    rw [List.foldl_cons]
    have hsame : (s.freeL1 r.start r.len).deviceSize = s.deviceSize :=
      (sameL0_markFreeL1L0 _ _ _).deviceSize
    refine ih (h.free r.pos (hall r List.mem_cons_self)) fun q hq => ?_
    show q.start + q.len ≤ (s.freeL1 r.start r.len).deviceSize
    rw [hsame]
    exact hall q (List.mem_cons_of_mem _ hq)

end State

end CxxLab.Blk.Bitmap
