import CxxLab.Blk.BitmapRuns

/-!
# Claims of free space

`claim_free_to_left` and `claim_free_to_right` follow a run of free units over single bits, whole
slots and single bits again. What they clear is the whole run that ends, or starts, at the offset
(`claimFreeToLeftL0_run`, `claimFreeToRightL0_run`). The second half is about `available`: the calls
that keep it equal to what is free (`KeepsBooks`), and what a claim does to it in every state that
calls lead to.
-/

namespace CxxLab.Blk.Bitmap

open SetBits

namespace State

variable {bits bits' : ℕ → Bool} {p q r slot : ℕ} {s s' : State}

/-! ## The run at a unit -/

/-- The run of free units that ends at `p` begins at `r`. -/
structure RunLeft (bits : ℕ → Bool) (r p : ℕ) : Prop where
  le : r ≤ p
  free : ∀ u, r ≤ u → u < p → bits u = true
  maximal : 0 < r → bits (r - 1) = false

/-- The run of free units that starts at `p` ends at `r`. -/
structure RunRight (bits : ℕ → Bool) (p r : ℕ) : Prop where
  le : p ≤ r
  free : ∀ u, p ≤ u → u < r → bits u = true
  maximal : bits r = false

/-- Outside of a range that is cleared the bits are as before. -/
theorem Cleared.outside {a b u : ℕ} (h : Cleared bits bits' a b) (hu : u < a ∨ b ≤ u) :
    bits' u = bits u := by
  rw [h.2, if_neg (by omega)]

/-- A slot is read from its bits. -/
theorem slotSet_congr (h : ∀ i < 64, bits' (64 * slot + i) = bits (64 * slot + i)) :
    slotSet bits' slot = slotSet bits slot := by
  rw [Bool.eq_iff_iff, slotSet_iff, slotSet_iff]
  exact forall₂_congr fun i hi => by rw [h i hi]

/-- The bits of a slot that is set. -/
theorem bit_of_slotSet (h : slotSet bits slot = true) {u : ℕ} (hu : u / 64 = slot) :
    bits u = true := by
  have hbit := slotSet_iff.mp h (u % 64) (Nat.mod_lt u (by norm_num))
  rwa [← hu, Nat.div_add_mod] at hbit

/-- No unit of a clear word is free. -/
theorem bit_of_slotClear (h : slotClear bits slot = true) {u : ℕ} (hu : u / 64 = slot) :
    bits u = false := by
  have hbit := slotClear_iff.mp h (u % 64) (Nat.mod_lt u (by norm_num))
  rwa [← hu, Nat.div_add_mod] at hbit

/-- Single bits are claimed to the left while they are set. -/
theorem claimBitsLeft_run : ∀ (n p : ℕ) (bits : ℕ → Bool), n ≤ p →
    (∀ u, (claimBitsLeft n p bits).2.1 ≤ u → u < p → bits u = true) ∧
      ((claimBitsLeft n p bits).1 = true → 0 < (claimBitsLeft n p bits).2.1 ∧
        bits ((claimBitsLeft n p bits).2.1 - 1) = false)
  | 0, p, bits, _ => ⟨fun u h1 h2 => absurd h2 (not_lt.mpr h1), fun h => by cases h⟩
  | n + 1, p, bits, hn => by
    have hle := (claimBitsLeft_spec n (p - 1) (setBit bits (p - 1) false) (by omega)).1.1
    obtain ⟨hfree, hstop⟩ := claimBitsLeft_run n (p - 1) (setBit bits (p - 1) false) (by omega)
    unfold claimBitsLeft
    split_ifs with hbit
    · refine ⟨fun u h1 h2 => ?_, fun h => ?_⟩
      · rcases Nat.eq_or_lt_of_le (show u ≤ p - 1 by omega) with rfl | hlt
        · exact hbit
        · rw [← hfree u h1 hlt]
          exact (Function.update_of_ne hlt.ne ..).symm
      · obtain ⟨hpos, hclear⟩ := hstop h
        have hne : (claimBitsLeft n (p - 1) (setBit bits (p - 1) false)).2.1 - 1 ≠ p - 1 := by
          omega
        exact ⟨hpos, (Function.update_of_ne hne ..).symm.trans hclear⟩
    · exact ⟨fun u h1 h2 => absurd h2 (not_lt.mpr h1),
        fun _ => ⟨by simp only; omega, Bool.eq_false_iff.mpr hbit⟩⟩

/-- Slots are claimed to the left while they are set. -/
theorem claimSlotsLeft_run : ∀ (n : ℕ) (bits : ℕ → Bool),
    (∀ u, (claimSlotsLeft n (64 * n) bits).1 ≤ u → u < 64 * n → bits u = true) ∧
      (0 < (claimSlotsLeft n (64 * n) bits).1 →
        slotSet bits ((claimSlotsLeft n (64 * n) bits).1 / 64 - 1) = false)
  | 0, bits => ⟨fun u _ h2 => by omega, fun h => absurd h (lt_irrefl 0)⟩
  | n + 1, bits => by
    obtain ⟨⟨hle, -⟩, hdvd⟩ := claimSlotsLeft_spec n (setSlot bits n false)
    obtain ⟨hfree, hstop⟩ := claimSlotsLeft_run n (setSlot bits n false)
    have hp : 64 * (n + 1) - bitsPerSlot = 64 * n := by simp only [bitsPerSlot]; omega
    have hout : ∀ u, u < 64 * n → setSlot bits n false u = bits u := fun u hu =>
      (cleared_setSlot bits n).outside (.inl hu)
    unfold claimSlotsLeft
    rw [hp]
    split_ifs with hslot
    · refine ⟨fun u h1 h2 => ?_, fun hpos => ?_⟩
      · rcases Nat.lt_or_ge u (64 * n) with hlt | hge
        · rw [← hout u hlt]
          exact hfree u h1 hlt
        · exact bit_of_slotSet hslot (by omega)
      · refine (slotSet_congr fun i hi => hout _ ?_).symm.trans (hstop hpos)
        omega
    · refine ⟨fun u h1 h2 => absurd h2 (not_lt.mpr h1), fun _ => ?_⟩
      rw [show 64 * (n + 1) / 64 - 1 = n by omega]
      exact Bool.eq_false_iff.mpr hslot

/-- What a claim to the left clears is the run that ends at the unit. -/
theorem claimFreeToLeftL0_run (h : s.claimFreeToLeftL0 p = some (r, bits')) :
    RunLeft s.l0 r p := by
  suffices hrun : (∀ u, r ≤ u → u < p → s.l0 u = true) ∧ (0 < r → s.l0 (r - 1) = false) from
    ⟨(claimFreeToLeftL0_spec h).1, hrun.1, hrun.2⟩
  unfold claimFreeToLeftL0 at h
  split_ifs at h with hp
  push Not at hp
  have hn : (p - 1) % bitsPerSlot + 1 ≤ p := by
    have := Nat.mod_le (p - 1) bitsPerSlot
    omega
  -- First the units of the slot that the unit before is in.
  have hone := claimBitsLeft_spec ((p - 1) % bitsPerSlot + 1) p s.l0 hn
  have hrun := claimBitsLeft_run ((p - 1) % bitsPerSlot + 1) p s.l0 hn
  rcases hfirst : claimBitsLeft ((p - 1) % bitsPerSlot + 1) p s.l0 with ⟨stop, p1, bits1⟩
  rw [hfirst] at h hone hrun
  obtain ⟨hc1, hstop⟩ := hone
  obtain ⟨hfree1, hclear1⟩ := hrun
  cases stop with
  | true =>
    obtain ⟨rfl, -⟩ := Prod.mk.inj (Option.some.inj h)
    exact ⟨hfree1, fun _ => (hclear1 rfl).2⟩
  | false =>
    -- The claim has come to the border of a slot, and goes on by whole slots.
    have hp1 : p1 = 64 * (p1 / 64) := by
      have hp1 : p1 = p - ((p - 1) % 64 + 1) := hstop rfl
      omega
    have htwo := claimSlotsLeft_spec (p1 / bitsPerSlot) bits1
    have hrun := claimSlotsLeft_run (p1 / bitsPerSlot) bits1
    rw [show 64 * (p1 / bitsPerSlot) = p1 from hp1.symm] at htwo hrun
    rcases hslots : claimSlotsLeft (p1 / bitsPerSlot) p1 bits1 with ⟨p2, bits2⟩
    simp only [hslots] at h htwo hrun
    obtain ⟨hc2, hdvd⟩ := htwo
    obtain ⟨hfree2, hclear2⟩ := hrun
    -- Before the slots that are cleared the bits are those of the call.
    have hbits1 : ∀ u, u < p1 → bits1 u = s.l0 u := fun u hu => hc1.outside (.inl hu)
    have hbits2 : ∀ u, u < p2 → bits2 u = s.l0 u := fun u hu =>
      (hc2.outside (.inl hu)).trans (hbits1 u (hu.trans_le hc2.1))
    have hfree : ∀ u, p2 ≤ u → u < p → s.l0 u = true := fun u h1 h2 => by
      rcases Nat.lt_or_ge u p1 with hlt | hge
      · rw [← hbits1 u hlt]
        exact hfree2 u h1 hlt
      · exact hfree1 u hge h2
    -- It stops before a slot that is not free as a whole.
    have hslot : 0 < p2 → slotSet bits2 (p2 / 64 - 1) = false := fun hpos => by
      refine (slotSet_congr fun i hi => hc2.outside (.inl ?_)).trans (hclear2 hpos)
      omega
    split_ifs at h with hmore
    · obtain ⟨rfl, -⟩ := Prod.mk.inj (Option.some.inj h)
      have hle : 64 ≤ p2 := Nat.le_of_dvd hmore.1 hdvd
      obtain ⟨hc3, hstop3⟩ := claimBitsLeft_spec 64 p2 bits2 hle
      obtain ⟨hfree3, hclear3⟩ := claimBitsLeft_run 64 p2 bits2 hle
      refine ⟨fun u h1 h2 => ?_, fun hpos => ?_⟩
      · rcases Nat.lt_or_ge u p2 with hlt | hge
        · rw [← hbits2 u hlt]
          exact hfree3 u h1 hlt
        · exact hfree u hge h2
      -- And then by the units of that slot.
      · rcases hflag : (claimBitsLeft 64 p2 bits2).1 with _ | _
        · -- All of the slot would be set.
          have hset : slotSet bits2 (p2 / 64 - 1) = true := slotSet_iff.mpr fun i hi =>
            hfree3 _ (by rw [hstop3 hflag]; omega) (by omega)
          exact absurd hset (by rw [hslot (by omega)]; simp)
        · obtain ⟨hpos3, hclear⟩ := hclear3 hflag
          have hle3 : (claimBitsLeft 64 p2 bits2).2.1 ≤ p2 := hc3.1
          have hlt : (claimBitsLeft 64 p2 bits2).2.1 - 1 < p2 := by omega
          exact (hbits2 _ hlt).symm.trans hclear
    · obtain ⟨rfl, -⟩ := Prod.mk.inj (Option.some.inj h)
      refine ⟨hfree, fun hpos => ?_⟩
      have hmixed : slotClear bits2 (p2 / 64 - 1) = true := by
        by_contra hnot
        exact hmore ⟨hpos, by rw [show p2 / bitsPerSlot = p2 / 64 from rfl, hslot hpos]; simp, hnot⟩
      exact (hbits2 _ (by omega)).symm.trans (bit_of_slotClear hmixed (by omega))

/-- Single bits are claimed to the right while they are set. -/
theorem claimBitsRight_run : ∀ (n p : ℕ) (bits : ℕ → Bool),
    (∀ u, p ≤ u → u < (claimBitsRight n p bits).2.1 → bits u = true) ∧
      ((claimBitsRight n p bits).1 = true → bits (claimBitsRight n p bits).2.1 = false)
  | 0, p, bits => ⟨fun u h1 h2 => absurd h2 (not_lt.mpr h1), fun h => by cases h⟩
  | n + 1, p, bits => by
    have hle := (claimBitsRight_spec n (p + 1) (setBit bits p false)).1.1
    obtain ⟨hfree, hstop⟩ := claimBitsRight_run n (p + 1) (setBit bits p false)
    have hout : ∀ u, p + 1 ≤ u → setBit bits p false u = bits u := fun u hu =>
      Function.update_of_ne (by omega) ..
    unfold claimBitsRight
    split_ifs with hbit
    · refine ⟨fun u h1 h2 => ?_, fun h => (hout _ hle).symm.trans (hstop h)⟩
      rcases Nat.eq_or_lt_of_le h1 with rfl | hlt
      · exact hbit
      · exact (hout u hlt).symm.trans (hfree u hlt h2)
    · exact ⟨fun u h1 h2 => absurd h2 (not_lt.mpr h1), fun _ => Bool.eq_false_iff.mpr hbit⟩

/-- Slots are claimed to the right while they are set. -/
theorem claimSlotsRight_run : ∀ (n q : ℕ) (bits : ℕ → Bool),
    (∀ u, 64 * q ≤ u → u < (claimSlotsRight n (64 * q) bits).1 → bits u = true) ∧
      64 ∣ (claimSlotsRight n (64 * q) bits).1 ∧
      ((claimSlotsRight n (64 * q) bits).1 / 64 < q + n →
        slotSet bits ((claimSlotsRight n (64 * q) bits).1 / 64) = false)
  | 0, q, bits => ⟨fun u h1 h2 => absurd h2 (not_lt.mpr h1), dvd_mul_right 64 q, fun h => by
      have hq : 64 * q / 64 < q + 0 := h
      omega⟩
  | n + 1, q, bits => by
    have hle := (claimSlotsRight_spec n (q + 1) (setSlot bits q false)).1
    obtain ⟨hfree, hdvd, hstop⟩ := claimSlotsRight_run n (q + 1) (setSlot bits q false)
    have hq : 64 * q / bitsPerSlot = q := by simp
    have hout : ∀ u, 64 * (q + 1) ≤ u → setSlot bits q false u = bits u := fun u hu =>
      (cleared_setSlot bits q).outside (.inr (by omega))
    unfold claimSlotsRight
    rw [hq]
    split_ifs with hslot
    · refine ⟨fun u h1 h2 => ?_, hdvd, fun h => ?_⟩
      · rcases Nat.lt_or_ge u (64 * (q + 1)) with hlt | hge
        · exact bit_of_slotSet hslot (by omega)
        · exact (hout u hge).symm.trans (hfree u hge h2)
      · have hlt : (claimSlotsRight n (64 * (q + 1)) (setSlot bits q false)).1 / 64 < q + 1 + n := by
          change (claimSlotsRight n (64 * (q + 1)) (setSlot bits q false)).1 / 64 < q + (n + 1) at h
          omega
        have hsame : slotSet (setSlot bits q false)
            ((claimSlotsRight n (64 * (q + 1)) (setSlot bits q false)).1 / 64) =
            slotSet bits ((claimSlotsRight n (64 * (q + 1)) (setSlot bits q false)).1 / 64) :=
          slotSet_congr fun i hi => hout _ (by omega)
        exact hsame.symm.trans (hstop hlt)
    · refine ⟨fun u h1 h2 => absurd h2 (not_lt.mpr h1), dvd_mul_right 64 q, fun _ => ?_⟩
      rw [Nat.mul_div_cancel_left q (by norm_num)]
      exact Bool.eq_false_iff.mpr hslot

/-- What a claim to the right clears is the run that starts at the unit. -/
theorem Consistent.claimFreeToRightL0_run (h : Consistent s) (p : ℕ) :
    RunRight s.l0 p (s.claimFreeToRightL0 p).1 := by
  suffices hrun : (∀ u, p ≤ u → u < (s.claimFreeToRightL0 p).1 → s.l0 u = true) ∧
      s.l0 (s.claimFreeToRightL0 p).1 = false from
    ⟨(claimFreeToRightL0_spec s p).1, hrun.1, hrun.2⟩
  -- Behind the last slot nothing is free.
  have hend : ∀ u, s.l0Slots ≤ u / 64 → s.l0 u = false := fun u hu => by
    refine Bool.eq_false_iff.mpr fun hbit => ?_
    have hlt := h.l0 u hbit
    simp only [l0Slots, l1PerL2, slotsPerSlotset] at hu
    omega
  unfold claimFreeToRightL0
  split_ifs with hp
  · exact ⟨fun u h1 h2 => absurd h2 (not_lt.mpr h1), hend p hp⟩
  have hone := claimBitsRight_spec (bitsPerSlot - p % bitsPerSlot) p s.l0
  have hrun := claimBitsRight_run (bitsPerSlot - p % bitsPerSlot) p s.l0
  rcases hfirst : claimBitsRight (bitsPerSlot - p % bitsPerSlot) p s.l0 with ⟨stop, p1, bits1⟩
  rw [hfirst] at hone hrun
  obtain ⟨hc1, hstop⟩ := hone
  obtain ⟨hfree1, hclear1⟩ := hrun
  cases stop with
  | true => exact ⟨hfree1, hclear1 rfl⟩
  | false =>
    have hp1 : p1 = 64 * (p1 / 64) := by
      have hp1 : p1 = p + (64 - p % 64) := hstop rfl
      omega
    have htwo := claimSlotsRight_spec (s.l0Slots - p1 / bitsPerSlot) (p1 / bitsPerSlot) bits1
    have hrun := claimSlotsRight_run (s.l0Slots - p1 / bitsPerSlot) (p1 / bitsPerSlot) bits1
    rw [show 64 * (p1 / bitsPerSlot) = p1 from hp1.symm] at htwo hrun
    rcases hslots : claimSlotsRight (s.l0Slots - p1 / bitsPerSlot) p1 bits1 with ⟨p2, bits2⟩
    simp only [hslots] at htwo hrun ⊢
    obtain ⟨hfree2, hdvd, hclear2⟩ := hrun
    -- Behind the slots that are cleared the bits are those of the call.
    have hbits1 : ∀ u, p1 ≤ u → bits1 u = s.l0 u := fun u hu => hc1.outside (.inr hu)
    have hbits2 : ∀ u, p2 ≤ u → bits2 u = s.l0 u := fun u hu =>
      (htwo.outside (.inr hu)).trans (hbits1 u (htwo.1.trans hu))
    -- All units up to there were free.
    have hfree : ∀ u, p ≤ u → u < p2 → s.l0 u = true := fun u h1 h2 => by
      rcases Nat.lt_or_ge u p1 with hlt | hge
      · exact hfree1 u h1 hlt
      · exact (hbits1 u hge).symm.trans (hfree2 u hge h2)
    have hslot : p2 / 64 < s.l0Slots → slotSet bits2 (p2 / 64) = false := fun hlt => by
      have hlt' : p2 / 64 < p1 / bitsPerSlot + (s.l0Slots - p1 / bitsPerSlot) := by omega
      refine (slotSet_congr fun i hi => htwo.outside (.inr ?_)).trans (hclear2 hlt')
      omega
    split_ifs with hmore
    · obtain ⟨hc3, hstop3⟩ := claimBitsRight_spec 64 p2 bits2
      obtain ⟨hfree3, hclear3⟩ := claimBitsRight_run 64 p2 bits2
      refine ⟨fun u h1 h2 => ?_, ?_⟩
      · rcases Nat.lt_or_ge u p2 with hlt | hge
        · exact hfree u h1 hlt
        · exact (hbits2 u hge).symm.trans (hfree3 u hge h2)
      -- And then by the units of the slot where it stopped.
      · rcases hflag : (claimBitsRight 64 p2 bits2).1 with _ | _
        · -- All of the slot would be set.
          have hset : slotSet bits2 (p2 / 64) = true := slotSet_iff.mpr fun i hi =>
            hfree3 _ (by omega) (by rw [hstop3 hflag]; omega)
          exact absurd hset (by rw [hslot hmore.1]; simp)
        · exact (hbits2 _ hc3.1).symm.trans (hclear3 hflag)
    · refine ⟨hfree, ?_⟩
      rcases Nat.lt_or_ge (p2 / 64) s.l0Slots with hlt | hge
      · have hclear : slotClear bits2 (p2 / 64) = true := by
          by_contra hnot
          exact hmore ⟨hlt, by rw [show p2 / bitsPerSlot = p2 / 64 from rfl, hslot hlt]; simp, hnot⟩
        exact (hbits2 p2 (le_refl p2)).symm.trans (bit_of_slotClear hclear rfl)
      · exact hend p2 hge

/-! ## What is free -/

/-- Two states are of one device in either order. -/
theorem SameDevice.symm (h : SameDevice s s') : SameDevice s' s :=
  ⟨h.1.symm, h.2.symm, h.3.symm, h.4.symm⟩

/-- Units are taken: the bytes that are free are fewer by theirs. -/
theorem freeBytes_taken (hc : Consistent s) (hd : SameDevice s s') {t : List ℕ} (ht : t.Nodup)
    (hfree : ∀ u ∈ t, s.l0 u = true) (hbits : ∀ u, s'.l0 u = (s.l0 u && decide (u ∉ t))) :
    s.freeBytes = s'.freeBytes + s.granularity * t.length := by
  have hlen : s.freeUnits.length =
      (setBits s'.l0 0 (131072 * s.entries)).length + t.length :=
    length_setBits_without ht (fun u hu => ⟨⟨Nat.zero_le u, hc.l0 u (hfree u hu)⟩, hfree u hu⟩) hbits
  have hleft : s'.freeUnits.length = (setBits s'.l0 0 (131072 * s.entries)).length := by
    rw [freeUnits, hd.entries]
  rw [freeBytes, freeBytes, hd.granularity, ← Nat.mul_add, hlen, hleft]

/-- The same for a range of units. -/
theorem freeBytes_range {a n : ℕ} (hc : Consistent s) (hd : SameDevice s s')
    (hfree : ∀ u, a ≤ u → u < a + n → s.l0 u = true)
    (hbits : ∀ u, s'.l0 u = if a ≤ u ∧ u < a + n then false else s.l0 u) :
    s.freeBytes = s'.freeBytes + s.granularity * n := by
  have hmem : ∀ u, u ∈ List.range' a n ↔ a ≤ u ∧ u < a + n := fun u => List.mem_range'_1
  rw [freeBytes_taken hc hd (t := List.range' a n) List.nodup_range'
    (fun u hu => hfree u ((hmem u).mp hu).1 ((hmem u).mp hu).2) fun u => ?_, List.length_range']
  rw [hbits]
  by_cases hu : a ≤ u ∧ u < a + n
  · rw [if_pos hu, decide_eq_false (not_not.mpr ((hmem u).mpr hu)), Bool.and_false]
  · rw [if_neg hu, decide_eq_true (mt (hmem u).mp hu), Bool.and_true]

/-- What is free is no more than the units that have bits. -/
theorem freeBytes_le (s : State) : s.freeBytes ≤ s.granularity * (131072 * s.entries) := by
  refine Nat.mul_le_mul_left _ ((List.length_filter_le _ _).trans ?_)
  rw [List.length_range', Nat.sub_zero]

/-! ## What a claim does -/

/-- The units from `p` up to `q` are claimed: their bytes are returned, they and no others are no
longer free, and the summaries and `available` are true of what is left. -/
structure Claimed (s : State) (p q a : ℕ) (s' : State) : Prop where
  length : a = s.granularity * (q - p)
  marked : ∀ u, s'.l0 u = if p ≤ u ∧ u < q then false else s.l0 u
  summaries : Consistent s'
  available : s'.available = s'.freeBytes

/-- A claim to the left returns, with the run of free units that ends at the offset. -/
def ClaimsLeft (s : State) (offset : ℕ) : Prop :=
  ∃ r a s', s.claimFreeToLeft offset = some (a, s') ∧
    RunLeft s.l0 r (offset / s.granularity) ∧ Claimed s r (offset / s.granularity) a s'

/-- A claim to the right returns, with the run of free units that starts at the offset. -/
def ClaimsRight (s : State) (offset : ℕ) : Prop :=
  ∃ r a s', s.claimFreeToRight offset = some (a, s') ∧
    RunRight s.l0 (offset / s.granularity) r ∧ Claimed s (offset / s.granularity) r a s'

/-- A run of free units is taken out of `available`, which is true of what is left exactly when it
was true before. -/
theorem claimed_iff {a : ℕ} (hc : Consistent s) (hc' : Consistent s')
    (hsame : SameL0 { s with l0 := s'.l0, l2 := s'.l2, available := s.available - a } s')
    (hle : a ≤ s.available) (hpq : p ≤ q) (hfree : ∀ u, p ≤ u → u < q → s.l0 u = true)
    (hmarked : ∀ u, s'.l0 u = if p ≤ u ∧ u < q then false else s.l0 u)
    (hlen : a = s.granularity * (q - p)) :
    Claimed s p q a s' ↔ s.available = s.freeBytes := by
  have hd : SameDevice s s' := ⟨hsame.1, hsame.2, hsame.3, hsame.4⟩
  have havail : s'.available = s.available - a := hsame.available
  have hq : p + (q - p) = q := Nat.add_sub_cancel' hpq
  have hbytes : s.freeBytes = s'.freeBytes + s.granularity * (q - p) :=
    freeBytes_range hc hd (by rwa [hq]) (by rwa [hq])
  constructor
  · intro h
    have hout := h.available
    omega
  · intro h
    exact ⟨hlen, hmarked, hc', by omega⟩

/-- The last L2 entry of a range of the device is one of the device. -/
theorem l2Last_le (hg : 0 < s.granularity) {stop : ℕ} (h : stop ≤ s.entries * s.l2Granularity) :
    s.l2Last stop ≤ s.entries := by
  by_contra hlt
  rw [not_le, lt_l2Last_iff hg] at hlt
  rw [l2Granularity_eq, Nat.mul_left_comm, Nat.mul_comm s.entries] at h
  omega

/-- Writing L2 entries of the device goes through. -/
theorem markL2OnL1_total {a b n : ℕ} (s : State) (h : b ≤ s.entries) :
    ∃ s', State.markL2OnL1 { s with available := n } a b = some s' := ⟨_, if_pos (.inr h)⟩

/-- The free units of a run are among those that are free. -/
theorem run_le_freeBytes (hc : Consistent s) {n : ℕ}
    (hfree : ∀ u, p ≤ u → u < p + n → s.l0 u = true) : s.granularity * n ≤ s.freeBytes := by
  obtain ⟨t, ht⟩ : ∃ t : State, t =
      { s with l0 := fun u => if p ≤ u ∧ u < p + n then false else s.l0 u } := ⟨_, rfl⟩
  have hd : SameDevice s t := ht ▸ ⟨rfl, rfl, rfl, rfl⟩
  have hbytes := freeBytes_range hc hd hfree fun u => by rw [ht]
  omega

/-- A claim that has room in `available` returns. -/
theorem Consistent.claimFreeToLeft_total (h : Consistent s) {offset : ℕ}
    (hpos : 0 < offset / s.granularity) (hdev : offset ≤ s.deviceSize)
    (havail : s.available = s.freeBytes) : ∃ r, s.claimFreeToLeft offset = some r := by
  have hg := h.granularity
  have hstop : offset ≤ s.entries * s.l2Granularity := hdev.trans h.device
  have hin : offset / s.granularity ≤ s.entries * (l1PerL2 * bitsPerSlotset) := by
    rw [l2Granularity_eq, Nat.mul_left_comm] at hstop
    calc offset / s.granularity ≤ s.granularity * (s.entries * 131072) / s.granularity :=
          Nat.div_le_div_right hstop
      _ = s.entries * (l1PerL2 * bitsPerSlotset) := Nat.mul_div_cancel_left _ hg
  obtain ⟨⟨r, bits⟩, hr⟩ : ∃ r, s.claimFreeToLeftL0 (offset / s.granularity) = some r := by
    unfold claimFreeToLeftL0
    rw [if_neg (by omega)]
    split
    · exact ⟨_, rfl⟩
    · simp only
      split_ifs <;> exact ⟨_, rfl⟩
  have hrun := claimFreeToLeftL0_run hr
  obtain ⟨hsame, -, hlen⟩ := h.claimedL1 (claimFreeToLeftL0_spec hr)
  have hroom : s.granularity * (offset / s.granularity - r) ≤ s.available := havail ▸
    run_le_freeBytes h fun u h1 h2 => hrun.free u h1 (by have := hrun.le; omega)
  unfold State.claimFreeToLeft
  rw [hr]
  simp only [Option.bind_eq_bind, Option.bind_some]
  have hkept : (s.claimedL1 bits r (offset / s.granularity)).2.available = s.available :=
    hsame.available
  have hgran : (s.claimedL1 bits r (offset / s.granularity)).2.granularity = s.granularity :=
    hsame.granularity
  have hentries : (s.claimedL1 bits r (offset / s.granularity)).2.entries = s.entries :=
    hsame.entries
  rw [hlen, hkept, if_pos hroom, l2Last_congr hgran]
  have hlast : s.l2Last offset ≤ (s.claimedL1 bits r (offset / s.granularity)).2.entries :=
    hentries ▸ l2Last_le hg hstop
  exact (markL2OnL1_total _ hlast).elim fun t ht => ⟨_, Option.bind_eq_some_iff.mpr ⟨t, ht, rfl⟩⟩

/-- So does every claim to the right. -/
theorem Consistent.claimFreeToRight_total (h : Consistent s) {offset : ℕ}
    (hdvd : s.granularity ∣ offset) (hdev : offset ≤ s.deviceSize)
    (havail : s.available = s.freeBytes) : ∃ r, s.claimFreeToRight offset = some r := by
  have hg := h.granularity
  have hrun := h.claimFreeToRightL0_run (offset / s.granularity)
  obtain ⟨hsame, -, hlen⟩ := h.claimedL1 (claimFreeToRightL0_spec s (offset / s.granularity))
  unfold State.claimFreeToRight
  simp only [Option.bind_eq_bind]
  obtain ⟨⟨r, bits⟩, hr⟩ : ∃ r, s.claimFreeToRightL0 (offset / s.granularity) = r := ⟨_, rfl⟩
  rw [hr] at hrun hsame hlen ⊢
  have hle : offset / s.granularity ≤ r := hrun.le
  have hroom : s.granularity * (r - offset / s.granularity) ≤ s.available := havail ▸
    run_le_freeBytes h fun u h1 h2 => hrun.free u h1 (by simp only; omega)
  have hkept : (s.claimedL1 bits (offset / s.granularity) r).2.available = s.available :=
    hsame.available
  have hgran : (s.claimedL1 bits (offset / s.granularity) r).2.granularity = s.granularity :=
    hsame.granularity
  have hentries : (s.claimedL1 bits (offset / s.granularity) r).2.entries = s.entries :=
    hsame.entries
  -- The run ends at a unit that has bits, or it is empty and ends at the offset.
  have hstop : offset + s.granularity * (r - offset / s.granularity) ≤
      s.entries * s.l2Granularity := by
    rcases Nat.eq_or_lt_of_le hle with heq | hlt
    · rw [← heq, Nat.sub_self, Nat.mul_zero, Nat.add_zero]
      exact hdev.trans h.device
    · have hpos : 0 < r := (Nat.zero_le _).trans_lt hlt
      have hlast := h.l0 (r - 1) (hrun.free (r - 1) (Nat.le_sub_one_of_lt hlt)
        (Nat.sub_one_lt_of_lt hpos))
      calc offset + s.granularity * (r - offset / s.granularity)
          = s.granularity * (offset / s.granularity + (r - offset / s.granularity)) := by
            rw [Nat.mul_add, Nat.mul_div_cancel' hdvd]
        _ ≤ s.granularity * (131072 * s.entries) := Nat.mul_le_mul_left _ (by omega)
        _ = s.entries * s.l2Granularity := by
            rw [l2Granularity_eq, Nat.mul_left_comm s.entries, Nat.mul_comm s.entries]
  simp only [hlen, hkept]
  rw [if_pos hroom, l2Last_congr hgran]
  have hlast : s.l2Last (offset + s.granularity * (r - offset / s.granularity)) ≤
      (s.claimedL1 bits (offset / s.granularity) r).2.entries := hentries ▸ l2Last_le hg hstop
  exact (markL2OnL1_total _ hlast).elim fun t ht => ⟨_, Option.bind_eq_some_iff.mpr ⟨t, ht, rfl⟩⟩

/-- A claim to the left does what it is for exactly when `available` is what is free and the offset
is not 0. -/
theorem claimsLeft_iff (h : Consistent s) {offset : ℕ} (hdvd : s.granularity ∣ offset)
    (hdev : offset ≤ s.deviceSize) :
    s.ClaimsLeft offset ↔ 0 < offset ∧ s.available = s.freeBytes := by
  have hzero : 0 < offset / s.granularity ↔ 0 < offset := by
    obtain ⟨p, rfl⟩ := hdvd
    rw [Nat.mul_div_cancel_left _ h.granularity]
    exact (Nat.mul_pos_iff_of_pos_left h.granularity).symm
  constructor
  · rintro ⟨r, a, s', hcall, hrun, hclaimed⟩
    obtain ⟨hc', hsame, hle, r', hr', -⟩ := h.claimFreeToLeft hcall
    refine ⟨hzero.mp (Nat.pos_of_ne_zero fun h0 => ?_), ?_⟩
    · rw [claimFreeToLeftL0, if_pos (.inl h0)] at hr'
      cases hr'
    · exact (claimed_iff h hc' hsame hle hrun.le hrun.free hclaimed.marked hclaimed.length).mp
        hclaimed
  · rintro ⟨hpos, havail⟩
    obtain ⟨⟨a, s'⟩, hcall⟩ := h.claimFreeToLeft_total (hzero.mpr hpos) hdev havail
    obtain ⟨hc', hsame, hle, r, hr, hlen⟩ := h.claimFreeToLeft hcall
    have hrun := claimFreeToLeftL0_run hr
    exact ⟨r, a, s', hcall, hrun, (claimed_iff h hc' hsame hle hrun.le hrun.free
      (claimFreeToLeftL0_spec hr).2 hlen).mpr havail⟩

/-- A claim to the right does what it is for exactly when `available` is what is free. -/
theorem claimsRight_iff (h : Consistent s) {offset : ℕ} (hdvd : s.granularity ∣ offset)
    (hdev : offset ≤ s.deviceSize) : s.ClaimsRight offset ↔ s.available = s.freeBytes := by
  constructor
  · rintro ⟨r, a, s', hcall, hrun, hclaimed⟩
    obtain ⟨hc', hsame, hle, -, -⟩ := h.claimFreeToRight hcall
    exact (claimed_iff h hc' hsame hle hrun.le hrun.free hclaimed.marked hclaimed.length).mp hclaimed
  · intro havail
    obtain ⟨⟨a, s'⟩, hcall⟩ := h.claimFreeToRight_total hdvd hdev havail
    obtain ⟨hc', hsame, hle, hbits, hlen⟩ := h.claimFreeToRight hcall
    have hrun := h.claimFreeToRightL0_run (offset / s.granularity)
    have hmarked := (claimFreeToRightL0_spec s (offset / s.granularity)).2
    rw [hbits] at hmarked
    exact ⟨_, a, s', hcall, hrun,
      (claimed_iff h hc' hsame hle hrun.le hrun.free hmarked hlen).mpr havail⟩

/-! ## The calls that keep `available` true -/

/-- None of the units of a range is free. -/
def NoneFree (s : State) (offset len : ℕ) : Prop :=
  ∀ u, offset ≤ s.granularity * u → s.granularity * u < offset + len → s.l0 u = false

/-- All of the units of a range are free. -/
def AllFree (s : State) (offset len : ℕ) : Prop :=
  ∀ u, offset ≤ s.granularity * u → s.granularity * u < offset + len → s.l0 u = true

/-- Where the whole units of a range begin. -/
def innerOffset (s : State) (offset : ℕ) : ℕ := roundUp offset s.granularity

/-- The length of the whole units of a range. -/
def innerLength (s : State) (offset length : ℕ) : ℕ :=
  alignDown (offset + length - s.innerOffset offset) s.granularity

/-- What is given back is aligned, disjoint and not free, what is taken out is free, and an
allocation loses nothing. -/
def KeepsBooks (s : State) : Call → Prop
  | .initAddFree offset length => s.NoneFree (s.innerOffset offset) (s.innerLength offset length)
  | .initRmFree offset length => s.AllFree (s.innerOffset offset) (s.innerLength offset length)
  | .allocate want unit _ hint => s.ComesToBlocks want unit hint
  | .release releaseSet =>
    (∀ r ∈ releaseSet, s.granularity ∣ r.start ∧ s.granularity ∣ r.len ∧ s.NoneFree r.start r.len) ∧
      releaseSet.Pairwise fun a b => a.start + a.len ≤ b.start ∨ b.start + b.len ≤ a.start
  | .claimFreeToLeft _ => True
  | .claimFreeToRight _ => True

/-- A range is freed, as `_mark_free` and `_free_l2` do it. -/
def freed (s : State) (offset len : ℕ) : State :=
  (s.freeL1 offset len).markL2Free ((s.freeL1 offset len).l2First offset)
    ((s.freeL1 offset len).l2Last (offset + len))

/-- A range that is given back changes neither the device nor `available`. -/
theorem sameDevice_freed (s : State) (offset len : ℕ) :
    SameDevice s (s.freed offset len) ∧ (s.freed offset len).available = s.available := by
  have hsame := sameL0_markFreeL1L0 s (offset / s.granularity)
    (roundUp (offset + len) s.granularity / s.granularity)
  exact ⟨⟨hsame.1, hsame.2, hsame.3, hsame.4⟩, hsame.available⟩

/-- A unit of an aligned range. -/
theorem div_le_iff_of_dvd {g offset u : ℕ} (hg : 0 < g) (hdvd : g ∣ offset) :
    offset / g ≤ u ↔ offset ≤ g * u := by
  obtain ⟨m, rfl⟩ := hdvd
  rw [Nat.mul_div_cancel_left _ hg, Nat.mul_le_mul_left_iff hg]

/-- The units of the range are free, and all others are as before. -/
theorem freed_l0 (len : ℕ) (hg : 0 < s.granularity) {offset : ℕ} (hdvd : s.granularity ∣ offset)
    (u : ℕ) :
    (s.freed offset len).l0 u =
      if offset ≤ s.granularity * u ∧ s.granularity * u < offset + len then true else s.l0 u :=
  (freeL1_l0 hg offset len u).trans
    (if_congr (and_congr_left fun _ => div_le_iff_of_dvd hg hdvd) rfl rfl)

/-- A range is freed of which no unit is free. -/
theorem freeBytes_freed (hc : Consistent s) {offset len : ℕ} (ho : s.granularity ∣ offset)
    (hl : s.granularity ∣ len) (hpos : 0 < len) (hdev : offset + len ≤ s.deviceSize)
    (hnone : s.NoneFree offset len) : (s.freed offset len).freeBytes = s.freeBytes + len := by
  have hg := hc.granularity
  have hd := (sameDevice_freed s offset len).1
  have hl0 := freed_l0 len hg ho
  obtain ⟨m, rfl⟩ := ho
  obtain ⟨k, rfl⟩ := hl
  have hiff : ∀ u, m ≤ u ∧ u < m + k ↔ s.granularity * m ≤ s.granularity * u ∧
      s.granularity * u < s.granularity * m + s.granularity * k := fun u => by
    rw [← Nat.mul_add, Nat.mul_le_mul_left_iff hg, Nat.mul_lt_mul_left hg]
  have hc' : Consistent (s.freed (s.granularity * m) (s.granularity * k)) := hc.free hpos hdev
  rw [freeBytes_range (a := m) (n := k) hc' hd.symm (fun u h1 h2 => ?_) fun u => ?_, hd.granularity]
  · rw [hl0, if_pos ((hiff u).mp ⟨h1, h2⟩)]
  · rw [hl0]
    by_cases hu : m ≤ u ∧ u < m + k
    · rw [if_pos hu]
      exact hnone u ((hiff u).mp hu).1 ((hiff u).mp hu).2
    · rw [if_neg hu, if_neg (mt (hiff u).mpr hu)]

/-- Intervals are freed, of which no unit is free. -/
theorem freeBytes_foldl_freed : ∀ (rr : List Interval) {s : State}, Consistent s →
    (∀ r ∈ rr, r.start + r.len ≤ s.deviceSize) → KeepsBooks s (.release rr) →
      SameDevice s (rr.foldl (fun s r => s.freed r.start r.len) s) ∧
      (rr.foldl (fun s r => s.freed r.start r.len) s).available = s.available ∧
      (rr.foldl (fun s r => s.freed r.start r.len) s).freeBytes =
        s.freeBytes + (rr.map Interval.len).sum
  | [], s, _, _, _ => ⟨SameDevice.refl s, rfl, rfl⟩
  | r :: rr, s, hc, hdev, ⟨hall, hapart⟩ => by
    obtain ⟨ho, hl, hnone⟩ := hall r List.mem_cons_self
    obtain ⟨hfirst, hrest⟩ := List.pairwise_cons.mp hapart
    have hdev₁ := hdev r List.mem_cons_self
    have hbytes := freeBytes_freed hc ho hl r.pos hdev₁ hnone
    obtain ⟨hd, havail⟩ := sameDevice_freed s r.start r.len
    have hl0 := freed_l0 r.len hc.granularity ho
    have hc' : Consistent (s.freed r.start r.len) := hc.free r.pos hdev₁
    have hkeeps : KeepsBooks (s.freed r.start r.len) (.release rr) := by
      refine ⟨fun q hq => ?_, hrest⟩
      obtain ⟨hqo, hql, hqnone⟩ := hall q (List.mem_cons_of_mem r hq)
      rw [hd.granularity]
      refine ⟨hqo, hql, fun u h1 h2 => ?_⟩
      rw [hd.granularity] at h1 h2
      rw [hl0, if_neg]
      · exact hqnone u h1 h2
      · have := hfirst q hq
        omega
    obtain ⟨hd', havail', hbytes'⟩ := freeBytes_foldl_freed rr hc'
      (fun q hq => by rw [hd.deviceSize]; exact hdev q (List.mem_cons_of_mem r hq)) hkeeps
    rw [List.foldl_cons, List.map_cons, List.sum_cons]
    exact ⟨hd.trans hd', havail'.trans havail, by omega⟩

/-- A range is taken out of which all units are free. -/
theorem freeBytes_markAllocated (hc : Consistent s) {offset len : ℕ} (ho : s.granularity ∣ offset)
    (hl : s.granularity ∣ len) (hpos : 0 < len) (hfree : s.AllFree offset len)
    (hm : s.markAllocated offset len = some s') :
    SameDevice s s' ∧ s'.available = s.available - len ∧ s.freeBytes = s'.freeBytes + len := by
  have hg := hc.granularity
  obtain ⟨-, hbits⟩ := hc.markAllocated hpos hm
  obtain ⟨t, ht, hm⟩ := Option.bind_eq_some_iff.mp hm
  split_ifs at hm with havail
  obtain rfl := Option.some.inj hm
  have hsame := sameL0_markAllocL1L0 s (offset / s.granularity)
    (roundUp (offset + len) s.granularity / s.granularity)
  have hkept := (markL2OnL1_eq_some ht).2.1
  have hd : SameDevice s { t with available := t.available - len } := by
    rw [hkept]
    exact ⟨hsame.1, hsame.2, hsame.3, hsame.4⟩
  have hleft : t.available = s.available := by
    rw [hkept]
    exact hsame.available
  refine ⟨hd, by rw [← hleft], ?_⟩
  obtain ⟨m, rfl⟩ := ho
  obtain ⟨k, rfl⟩ := hl
  rw [Nat.mul_div_cancel_left _ hg] at hbits
  have hiff : ∀ u, m ≤ u ∧ u < m + k ↔
      m ≤ u ∧ s.granularity * u < s.granularity * m + s.granularity * k := fun u => by
    rw [← Nat.mul_add, Nat.mul_lt_mul_left hg]
  refine freeBytes_range (a := m) (n := k) hc hd (fun u h1 h2 => ?_) fun u => ?_
  · exact hfree u (Nat.mul_le_mul_left _ h1) ((hiff u).mp ⟨h1, h2⟩).2
  · exact (hbits u).trans (if_congr (hiff u).symm rfl rfl)

/-- What is returned says how many bytes there were. -/
theorem resultOf_inj {a b : ℕ} (h : resultOf a = resultOf b) : a = b := by
  unfold resultOf at h
  split_ifs at h <;> omega

/-- Whole blocks are allocated. -/
theorem freeBytes_allocate {want unit maxAllocSize : ℕ} {hint r : ℤ} {res : List PExtent}
    (hc : Consistent s) (ha : Admissible s want unit) (hblocks : s.ComesToBlocks want unit hint)
    (hword : s.available < wordEnd) (havail : s.available = s.freeBytes)
    (h : s.allocate want unit maxAllocSize hint [] = some (r, s', res)) :
    SameDevice s s' ∧ s'.available = s'.freeBytes := by
  obtain ⟨-, hd, o, rfl, hr, htook, -⟩ := allocate_took hc ha h
  obtain ⟨a, hra, hleft⟩ := allocate_available ha hword h
  obtain ⟨r', t, res, hcall, hcover, hbits, -⟩ := allocate_good hc ha (hblocks.good ha maxAllocSize)
    hblocks.1
  rw [h] at hcall
  simp only [Option.some.injEq, Prod.mk.injEq] at hcall
  obtain ⟨-, rfl, rfl⟩ := hcall
  have ha' : a = s.granularity * (s.target want hint).length := by
    rw [← resultOf_inj (hr.symm.trans hra), htook.wf.count, hcover]
  have hd' : (s.target want hint).Nodup :=
    (nodup_reach (plan_firsts s _).1).sublist (List.take_sublist _ _)
  have hbytes := freeBytes_taken hc hd hd' (fun u hu => mem_reach (List.mem_of_mem_take hu)) hbits
  have hle : a ≤ s.available := by omega
  have hsub : wordSub s.available a = s.available - a := by
    rw [wordSub, Nat.mod_eq_of_lt (hle.trans_lt hword),
      show s.available + (wordEnd - a) = s.available - a + wordEnd by omega, Nat.add_mod_right]
    exact Nat.mod_eq_of_lt (by omega)
  exact ⟨hd, by omega⟩

/-- `available` is what is free, and all bytes of the device can be counted in a word. -/
structure Books (s : State) : Prop where
  valid : Valid s
  word : s.granularity * (131072 * s.entries) < wordEnd
  available : s.available = s.freeBytes

/-- The books stay right where `available` is what is free. -/
theorem Books.of_sameDevice (h : Books s) (hv : Valid s') (hd : SameDevice s s')
    (havail : s'.available = s'.freeBytes) : Books s' :=
  ⟨hv, by rw [hd.granularity, hd.entries]; exact h.word, havail⟩

/-- The start of the whole units of a range is aligned. -/
theorem dvd_innerOffset (s : State) (offset : ℕ) : s.granularity ∣ s.innerOffset offset :=
  Nat.dvd_mul_left _ _

/-- The length of the whole units of a range is aligned. -/
theorem dvd_innerLength (s : State) (offset length : ℕ) :
    s.granularity ∣ s.innerLength offset length := Nat.dvd_mul_left _ _

/-- A call that keeps the books. -/
theorem books_step (h : Books s) (c : Call) (hk : KeepsBooks s c) (hs : step s c = some s') :
    Books s' := by
  have hv := valid_step h.valid c hs
  have hc := h.valid.consistent
  have havail := h.available
  -- One case for each call: the bits that it turns over are the bytes that it counts.
  cases c with
  | initAddFree offset length =>
    change s.initAddFree offset length = some s' at hs
    unfold State.initAddFree at hs
    simp only at hs
    split_ifs at hs with h0 hlow hlen hdev
    · exact Option.some.inj hs ▸ h
    · exact Option.some.inj hs ▸ h
    · obtain ⟨hd, hkept⟩ := sameDevice_freed s (s.innerOffset offset) (s.innerLength offset length)
      have hbytes := freeBytes_freed hc (dvd_innerOffset s offset) (dvd_innerLength s offset length)
        (Nat.pos_of_ne_zero hlen) hdev hk
      have hs' : s' = { s.freed (s.innerOffset offset) (s.innerLength offset length) with
          available := (s.freed (s.innerOffset offset) (s.innerLength offset length)).available +
            s.innerLength offset length } := (Option.some.inj hs).symm
      subst hs'
      refine h.of_sameDevice hv ⟨hd.1, hd.2, hd.3, hd.4⟩ ?_
      show (s.freed _ _).available + s.innerLength offset length = (s.freed _ _).freeBytes
      rw [hkept, hbytes, havail]
  | initRmFree offset length =>
    change s.initRmFree offset length = some s' at hs
    unfold State.initRmFree at hs
    simp only at hs
    split_ifs at hs with h0 hlow hlen hdev
    · exact Option.some.inj hs ▸ h
    · exact Option.some.inj hs ▸ h
    · obtain ⟨hd, hleft, hbytes⟩ := freeBytes_markAllocated hc (dvd_innerOffset s offset)
        (dvd_innerLength s offset length) (Nat.pos_of_ne_zero hlen) hk hs
      exact h.of_sameDevice hv hd (by omega)
  | allocate want unit maxAllocSize hint =>
    obtain ⟨⟨r, t, res⟩, ht, rfl⟩ := Option.map_eq_some_iff.mp hs
    have hword : s.available < wordEnd := havail ▸ (freeBytes_le s).trans_lt h.word
    obtain ⟨hd, hleft⟩ := freeBytes_allocate hc (admissible_of_allocate h.valid ht) hk hword havail ht
    exact h.of_sameDevice hv hd hleft
  | release releaseSet =>
    change s.release releaseSet = some s' at hs
    unfold State.release at hs
    split_ifs at hs with hall
    simp only [List.all_eq_true, decide_eq_true_eq] at hall
    obtain ⟨hd, hkept, hbytes⟩ := freeBytes_foldl_freed releaseSet hc hall hk
    have hs' : s' = { releaseSet.foldl (fun s r => s.freed r.start r.len) s with
        available := (releaseSet.foldl (fun s r => s.freed r.start r.len) s).available +
          (releaseSet.map Interval.len).sum } := (Option.some.inj hs).symm
    subst hs'
    refine h.of_sameDevice hv ⟨hd.1, hd.2, hd.3, hd.4⟩ ?_
    show _ = (releaseSet.foldl (fun s r => s.freed r.start r.len) s).freeBytes
    rw [hbytes, ← havail, ← hkept]
  | claimFreeToLeft offset =>
    obtain ⟨⟨a, t⟩, ht, rfl⟩ := Option.map_eq_some_iff.mp hs
    obtain ⟨hc', hsame, hle, r, hr, hlen⟩ := hc.claimFreeToLeft ht
    have hrun := claimFreeToLeftL0_run hr
    exact h.of_sameDevice hv ⟨hsame.1, hsame.2, hsame.3, hsame.4⟩ ((claimed_iff hc hc' hsame hle
      hrun.le hrun.free (claimFreeToLeftL0_spec hr).2 hlen).mpr havail).available
  | claimFreeToRight offset =>
    obtain ⟨⟨a, t⟩, ht, rfl⟩ := Option.map_eq_some_iff.mp hs
    obtain ⟨hc', hsame, hle, hbits, hlen⟩ := hc.claimFreeToRight ht
    have hrun := hc.claimFreeToRightL0_run (offset / s.granularity)
    have hmarked := (claimFreeToRightL0_spec s (offset / s.granularity)).2
    rw [hbits] at hmarked
    exact h.of_sameDevice hv ⟨hsame.1, hsame.2, hsame.3, hsame.4⟩ ((claimed_iff hc hc' hsame hle
      hrun.le hrun.free hmarked hlen).mpr havail).available

/-- The books of a new allocator are right. -/
theorem books_create {capacity allocUnit : ℕ} (hunit : isp2 allocUnit = true)
    (hword : capacity + 131072 * allocUnit ≤ wordEnd) : Books (create capacity allocUnit) where
  valid := valid_create hunit
  word := by
    have hpos : 0 < allocUnit := exists_two_pow_of_isp2 hunit |>.elim fun k hk => hk ▸ Nat.two_pow_pos k
    show allocUnit * (131072 * (roundUp capacity (allocUnit * 512 * 256) /
      (allocUnit * 512 * 256))) < wordEnd
    have hG : allocUnit * 512 * 256 = 131072 * allocUnit := by omega
    rw [hG, ← Nat.mul_assoc, Nat.mul_comm allocUnit]
    have hle := Nat.mul_div_le (roundUp capacity (131072 * allocUnit)) (131072 * allocUnit)
    have hround : roundUp capacity (131072 * allocUnit) ≤
        capacity + (131072 * allocUnit - 1) := Nat.div_mul_le_self _ _
    omega
  available := by
    have hnone : (create capacity allocUnit).freeUnits = [] :=
      setBits_eq_nil_iff.mpr fun u _ _ => rfl
    rw [freeBytes, hnone]
    rfl

/-- In every state that calls lead to, a claim at an aligned offset of the device returns the run
of free units that ends, or starts, there, and leaves true summaries and counts, exactly when
`available` is what is free and it is not a claim to the left of 0; and `available` is what is free
where the calls before keep the books. -/
theorem claims_exact {capacity allocUnit : ℕ} (hunit : isp2 allocUnit = true)
    (hword : capacity + 131072 * allocUnit ≤ wordEnd) {calls : List Call} {s : State}
    (hrun : Runs.exec step (create capacity allocUnit) calls = some s) :
    (Runs.Meets step KeepsBooks (create capacity allocUnit) calls → s.available = s.freeBytes) ∧
    ∀ offset, s.granularity ∣ offset → offset ≤ s.deviceSize →
      (s.ClaimsRight offset ↔ s.available = s.freeBytes) ∧
      (s.ClaimsLeft offset ↔ 0 < offset ∧ s.available = s.freeBytes) := by
  have hc := (valid_exec hunit hrun).consistent
  refine ⟨fun hmeets => ?_, fun offset hdvd hdev =>
    ⟨claimsRight_iff hc hdvd hdev, claimsLeft_iff hc hdvd hdev⟩⟩
  exact (Runs.exec_invariant (fun _ c _ hs hk hstep => books_step hs c hk hstep) calls _ _
    (books_create hunit hword) hmeets hrun).available

/-- Eight units that are given to the allocator. -/
theorem claims_exact_eight :
    (Runs.Meets step KeepsBooks (create 8 1) [.initAddFree 0 8] → eight.available = eight.freeBytes) ∧
    ∀ offset, eight.granularity ∣ offset → offset ≤ eight.deviceSize →
      (eight.ClaimsRight offset ↔ eight.available = eight.freeBytes) ∧
      (eight.ClaimsLeft offset ↔ 0 < offset ∧ eight.available = eight.freeBytes) :=
  have hunit : isp2 1 = true := by decide
  have hrun : Runs.exec step (create 8 1) [.initAddFree 0 8] = some eight := rfl
  claims_exact hunit (by decide) hrun

/-- At offset 0 nothing is to the left, but the claim shifts by -1 and reads in front of `l0`. With two
words that are free, it clears the first one and returns 0. -/
theorem not_claimsLeft_zero :
    ∃ s, Runs.exec step (create 128 1) [.initAddFree 0 128] = some s ∧ ¬ s.ClaimsLeft 0 := by
  refine ⟨(create 128 1).markFree 0 128, rfl, ?_⟩
  rintro ⟨r, a, s', hcall, -⟩
  cases hcall

end State

end CxxLab.Blk.Bitmap
