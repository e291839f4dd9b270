import CxxLab.Blk.BitmapAllocate

/-!
# The scan of the second level

`_allocate_l2` goes over the words of `l2` with a bit index that counts from the word and an end that
counts from the first word. Here its loops are a walk over a list of L2 entries (`allocateRound_eq`),
which is found from the bits that the round begins with (`roundVisits`). An entry of the list that is
reached with a bit index of 64 or more is not in the word that the scan is at; when the walk comes to
one it has left the bits of the word behind, and it is wrong to go on unless the entry has more than
what is left to take.
-/

namespace CxxLab.Blk.Bitmap

open SetBits

/-- An L2 entry that a scan comes to, and whether the bit index is beyond the word. -/
structure Visit where
  entry : ℕ
  beyond : Bool
  deriving DecidableEq, Repr

namespace State

/-- The scan is at an L2 entry. It says whether the call is done. -/
def visit (want minLength maxLength : ℕ) (v : Visit) (s : State) (o : Out) :
    Option (Bool × State × Out) :=
  match allocateL1 want minLength maxLength (List.range' (l1PerL2 * v.entry) l1PerL2) s o with
  | none => none
  | some (s, o) =>
    match s.isEmptyL1 v.entry with
    | none => none
    | some empty =>
      if empty ∧ v.beyond then none
      else
        let s := if empty then { s with l2 := setBit s.l2 v.entry false } else s
        if want ≤ o.allocated then
          some (true, { s with
            lastPos := v.entry
            available := wordSub s.available o.allocated }, o)
        else some (false, s, o)

/-- The scan of a list of L2 entries. -/
def walk (want minLength maxLength : ℕ) : List Visit → State → Out → Option (Bool × State × Out)
  | [], s, o => some (false, s, o)
  | v :: vs, s, o =>
    match visit want minLength maxLength v s o with
    | none => none
    | some (true, r) => some (true, r)
    | some (false, s, o) => walk want minLength maxLength vs s o

/-- The L2 entries that the scan of a word comes to, from the bit `start` on. -/
def slotVisits (l2 : ℕ → Bool) (slot start scanEnd : ℕ) : List Visit :=
  if slotSet l2 slot then
    (List.range' 0 scanEnd).map fun i => ⟨bitsPerSlot * slot + i, decide (bitsPerSlot ≤ i)⟩
  else
    ((setBits (fun i => l2 (bitsPerSlot * slot + i)) start bitsPerSlot).filter (· < scanEnd)).map
      fun i => ⟨bitsPerSlot * slot + i, false⟩

/-- The L2 entries that a round comes to, from the bit `idx` on. -/
def roundVisits (l2 : ℕ → Bool) (roundEnd : ℕ) : ℕ → ℕ → List Visit
  | 0, _ => []
  | fuel + 1, idx =>
    if idx < roundEnd then
      if slotClear l2 (idx / bitsPerSlot) then roundVisits l2 roundEnd fuel (idx + bitsPerSlot)
      else
        let scanEnd := min (idx / bitsPerSlot * bitsPerSlot + bitsPerSlot) roundEnd
        slotVisits l2 (idx / bitsPerSlot) (idx % bitsPerSlot) scanEnd ++
          roundVisits l2 roundEnd fuel scanEnd
    else []

variable {want minLength maxLength : ℕ} {s s' : State} {o o' : Out} {d : Bool} {v : Visit}

/-! ## What a visit writes beside `l0` and `l1` -/

/-- Taking units of L1 entries leaves L2 and `available`. -/
theorem allocateL1_keeps : ∀ (es : List ℕ) (s : State) (o : Out) {r : State × Out},
    allocateL1 want minLength maxLength es s o = some r →
      r.1.l2 = s.l2 ∧ r.1.available = s.available
  | [], s, o, r, h => by
    obtain rfl := Option.some.inj h
    exact ⟨rfl, rfl⟩
  | p :: ps, s, o, r, h => by
    unfold allocateL1 at h
    simp only at h
    split_ifs at h with hend hfull hrem hfree
    · obtain rfl := Option.some.inj h
      exact ⟨rfl, rfl⟩
    · exact allocateL1_keeps ps s o h
    · obtain rfl := Option.some.inj h
      exact ⟨rfl, rfl⟩
    · split at h
      · cases h
      · obtain ⟨hl2, havail⟩ := allocateL1_keeps ps _ _ h
        exact ⟨hl2.trans (sameL0_markAllocL1L0 s _ _).l2,
          havail.trans (sameL0_markAllocL1L0 s _ _).available⟩
    · split at h
      · cases h
      · obtain ⟨hl2, havail⟩ := allocateL1_keeps ps _ _ h
        exact ⟨hl2.trans (sameL0_markL1OnL0 _ _ _).l2,
          havail.trans (sameL0_markL1OnL0 _ _ _).available⟩

/-- What a visit did that has ended. -/
theorem visit_eq_some (h : visit want minLength maxLength v s o = some (d, s', o')) :
    ∃ s₁ empty,
      allocateL1 want minLength maxLength (List.range' (l1PerL2 * v.entry) l1PerL2) s o =
        some (s₁, o') ∧
      s₁.isEmptyL1 v.entry = some empty ∧ ¬ (empty = true ∧ v.beyond = true) ∧
      (d = true ↔ want ≤ o'.allocated) ∧
      s'.available = (if d then wordSub s₁.available o'.allocated else s₁.available) ∧
      s' = { s₁ with
        l2 := if empty then setBit s₁.l2 v.entry false else s₁.l2
        lastPos := s'.lastPos
        available := s'.available } := by
  unfold visit at h
  split at h
  · cases h
  rename_i s₁ o₁ hL1
  split at h
  · cases h
  rename_i empty hempty
  split at h
  · cases h
  rename_i hbeyond
  refine ⟨s₁, empty, ?_⟩
  by_cases hwant : want ≤ o₁.allocated
  · simp only [hwant, if_true] at h
    injection h with h
    injection h with hd h
    injection h with hs ho
    subst hd hs ho
    refine ⟨hL1, hempty, hbeyond, iff_of_true rfl hwant, ?_, ?_⟩ <;> cases empty <;> rfl
  · simp only [hwant, if_false] at h
    injection h with h
    injection h with hd h
    injection h with hs ho
    subst hd hs ho
    refine ⟨hL1, hempty, hbeyond, iff_of_false (by simp) hwant, ?_, ?_⟩ <;> cases empty <;> rfl

/-- A visit writes the bit of its entry only, and not beyond the word. -/
theorem visit_l2 (h : visit want minLength maxLength v s o = some (d, s', o')) {p : ℕ}
    (hp : v.beyond = false → p ≠ v.entry) : s'.l2 p = s.l2 p := by
  obtain ⟨s₁, empty, hL1, -, hbeyond, -, -, hs'⟩ := visit_eq_some h
  rw [hs', ← (allocateL1_keeps _ _ _ hL1).1]
  cases empty with
  | false => rfl
  | true =>
    refine Function.update_of_ne (hp (Bool.eq_false_iff.mpr fun hb => hbeyond ⟨rfl, hb⟩)) _ _

/-- A walk leaves the L2 entries that it does not come to. -/
theorem walk_l2 : ∀ (vs : List Visit) (s : State) (o : Out) {d : Bool} {s' : State} {o' : Out},
    walk want minLength maxLength vs s o = some (d, s', o') → ∀ p, ⟨p, false⟩ ∉ vs →
      s'.l2 p = s.l2 p
  | [], s, o, d, s', o', h, p, _ => by
    obtain ⟨-, h⟩ := Prod.mk.inj (Option.some.inj h)
    obtain ⟨rfl, -⟩ := Prod.mk.inj h
    rfl
  | v :: vs, s, o, d, s', o', h, p, hp => by
    unfold walk at h
    have hne : v.beyond = false → p ≠ v.entry := fun hb heq =>
      hp (List.mem_cons.mpr (.inl (by rw [heq, ← hb])))
    split at h
    · cases h
    · rename_i r hvisit
      obtain ⟨-, h⟩ := Prod.mk.inj (Option.some.inj h)
      subst h
      exact visit_l2 hvisit hne
    · rename_i s₁ o₁ hvisit
      rw [walk_l2 vs s₁ o₁ h p fun hin => hp (List.mem_cons_of_mem v hin)]
      exact visit_l2 hvisit hne

/-- What was allocated is taken from `available` where the call is done. -/
theorem visit_available (h : visit want minLength maxLength v s o = some (d, s', o')) :
    s'.available = if d then wordSub s.available o'.allocated else s.available := by
  obtain ⟨s₁, empty, hL1, -, -, -, havail, -⟩ := visit_eq_some h
  rw [havail, (allocateL1_keeps _ _ _ hL1).2]

/-- A walk takes what it allocated off `available` if it has all that it wants. -/
theorem walk_available : ∀ (vs : List Visit) (s : State) (o : Out) {d : Bool} {s' : State}
    {o' : Out}, walk want minLength maxLength vs s o = some (d, s', o') →
      s'.available = if d then wordSub s.available o'.allocated else s.available
  | [], s, o, d, s', o', h => by
    simp only [walk, Option.some.injEq, Prod.mk.injEq] at h
    obtain ⟨rfl, rfl, rfl⟩ := h
    rfl
  | v :: vs, s, o, d, s', o', h => by
    unfold walk at h
    split at h
    · cases h
    · rename_i r hvisit
      simp only [Option.some.injEq, Prod.mk.injEq] at h
      obtain ⟨rfl, rfl⟩ := h
      exact visit_available hvisit
    · rename_i s₁ o₁ hvisit
      have hkept : s₁.available = s.available := visit_available hvisit
      rw [walk_available vs s₁ o₁ h, hkept]

/-- One walk after another. -/
theorem walk_append (vs ws : List Visit) (s : State) (o : Out) :
    walk want minLength maxLength (vs ++ ws) s o =
      match walk want minLength maxLength vs s o with
      | none => none
      | some (true, r) => some (true, r)
      | some (false, s, o) => walk want minLength maxLength ws s o := by
  induction vs generalizing s o with
  | nil => rfl
  | cons v vs ih =>
    rw [List.cons_append, walk, walk]
    cases visit want minLength maxLength v s o with
    | none => rfl
    | some r =>
      obtain ⟨d, s₁, o₁⟩ := r
      cases d with
      | true => rfl
      | false => exact ih s₁ o₁

/-! ## The loops are walks -/

/-- One bit of a word is one visit. -/
theorem allocateBits_succ {slotStart scanEnd bit fuel : ℕ} {allSet : Bool} (h : bit < scanEnd) :
    allocateBits want minLength maxLength slotStart scanEnd allSet (fuel + 1) (some bit) s o =
      match visit want minLength maxLength ⟨slotStart + bit, decide (bitsPerSlot ≤ bit)⟩ s o with
      | none => none
      | some (true, r) => some (true, r)
      | some (false, s, o) =>
        allocateBits want minLength maxLength slotStart scanEnd allSet fuel
          (if allSet then if bit + 1 < scanEnd then some (bit + 1) else none
            else findNextSetBit s.l2 (slotStart / bitsPerSlot) (bit + 1)) s o := by
  rw [allocateBits, if_pos h, visit]
  simp only
  rcases allocateL1 want minLength maxLength
    (List.range' (l1PerL2 * (slotStart + bit)) l1PerL2) s o with _ | ⟨s₁, o₁⟩
  · rfl
  simp only
  rcases s₁.isEmptyL1 (slotStart + bit) with _ | empty
  · rfl
  simp only [decide_eq_true_eq]
  by_cases hb : empty = true ∧ bitsPerSlot ≤ bit
  · rw [if_pos hb, if_pos hb]
  · rw [if_neg hb, if_neg hb]
    by_cases hwant : want ≤ o₁.allocated
    · simp only [hwant, if_true]
    · simp only [hwant, if_false]

/-- The loop over the bits of a word ends where there is no next bit before the end. -/
theorem allocateBits_done {slotStart scanEnd fuel : ℕ} {allSet : Bool} {next : Option ℕ}
    (h : ∀ bit, next = some bit → scanEnd ≤ bit) :
    allocateBits want minLength maxLength slotStart scanEnd allSet fuel next s o =
      some (false, s, o) := by
  cases next with
  | none => cases fuel <;> rfl
  | some bit =>
    cases fuel with
    | zero => rfl
    | succ fuel =>
      rw [allocateBits, if_neg (not_lt.mpr (h bit rfl))]

/-- The scan of a word that is all set comes to every bit up to the end, also beyond the word. -/
theorem allocateBits_set (slot scanEnd : ℕ) : ∀ (fuel bit : ℕ) (s : State) (o : Out),
    scanEnd ≤ bit + fuel →
      allocateBits want minLength maxLength (bitsPerSlot * slot) scanEnd true fuel (some bit) s o =
        walk want minLength maxLength ((List.range' bit (scanEnd - bit)).map fun i =>
          ⟨bitsPerSlot * slot + i, decide (bitsPerSlot ≤ i)⟩) s o
  | fuel, bit, s, o, hfuel => by
    by_cases hbit : bit < scanEnd
    swap
    · rw [Nat.sub_eq_zero_of_le (not_lt.mp hbit)]
      exact allocateBits_done fun b hb => by
        obtain rfl := Option.some.inj hb
        exact not_lt.mp hbit
    obtain ⟨n, hn⟩ : ∃ n, scanEnd - bit = n + 1 := ⟨scanEnd - bit - 1, by omega⟩
    obtain ⟨fuel, rfl⟩ : ∃ k, fuel = k + 1 := ⟨fuel - 1, by omega⟩
    rw [allocateBits_succ hbit, hn, List.range'_succ, List.map_cons, walk]
    cases visit want minLength maxLength ⟨bitsPerSlot * slot + bit, decide (bitsPerSlot ≤ bit)⟩ s o
      with
    | none => rfl
    | some r =>
      obtain ⟨d, s₁, o₁⟩ := r
      cases d with
      | true => rfl
      | false =>
        simp only [if_true]
        have hrest := allocateBits_set slot scanEnd fuel (bit + 1) s₁ o₁ (by omega)
        rw [show scanEnd - (bit + 1) = n by omega] at hrest
        rw [← hrest]
        by_cases hnext : bit + 1 < scanEnd
        · rw [if_pos hnext]
        · rw [if_neg hnext, allocateBits_done fun b hb => by cases hb]
          exact (allocateBits_done fun b hb => by
            obtain rfl := Option.some.inj hb
            exact not_lt.mp hnext).symm

/-- The first set bit and what is behind it. -/
theorem setBits_findNextSetBit (l2 : ℕ → Bool) (slot start : ℕ) :
    setBits (fun i => l2 (bitsPerSlot * slot + i)) start bitsPerSlot =
      match findNextSetBit l2 slot start with
      | none => []
      | some i => i :: setBits (fun i => l2 (bitsPerSlot * slot + i)) (i + 1) bitsPerSlot := by
  cases hnext : findNextSetBit l2 slot start with
  | none => exact setBits_eq_nil_iff.mpr fun u h1 h2 => findNextSetBit_eq_none hnext u h1 h2
  | some i =>
    obtain ⟨h1, h2, hset, hclear⟩ := findNextSetBit_eq_some hnext
    have hrun : ∀ u, i ≤ u → u < i + 1 → (fun i => l2 (bitsPerSlot * slot + i)) u = true :=
      fun u hu1 hu2 => by
        rw [show u = i by omega]
        exact hset
    have hskip : ∀ u, start ≤ u → u < i → (fun i => l2 (bitsPerSlot * slot + i)) u = false := hclear
    show setBits (fun i => l2 (bitsPerSlot * slot + i)) start bitsPerSlot =
      i :: setBits (fun i => l2 (bitsPerSlot * slot + i)) (i + 1) bitsPerSlot
    rw [setBits_skip h1 hskip, setBits_run (show i + 1 ≤ bitsPerSlot from h2) hrun]
    rfl

/-- The scan of a word that is not all set comes to the set bits before the end. -/
theorem allocateBits_mixed (l2 : ℕ → Bool) (slot scanEnd : ℕ) :
    ∀ (fuel start : ℕ) (s : State) (o : Out), scanEnd ≤ start + fuel →
      (∀ p, bitsPerSlot * slot + start ≤ p → s.l2 p = l2 p) →
      allocateBits want minLength maxLength (bitsPerSlot * slot) scanEnd false fuel
          (findNextSetBit s.l2 slot start) s o =
        walk want minLength maxLength
          (((setBits (fun i => l2 (bitsPerSlot * slot + i)) start bitsPerSlot).filter
            (· < scanEnd)).map fun i => ⟨bitsPerSlot * slot + i, false⟩) s o
  | fuel, start, s, o, hfuel, hl2 => by
    have hsame : setBits (fun i => l2 (bitsPerSlot * slot + i)) start bitsPerSlot =
        setBits (fun i => s.l2 (bitsPerSlot * slot + i)) start bitsPerSlot :=
      setBits_congr fun u h1 _ => (hl2 _ (by omega)).symm
    rw [hsame, setBits_findNextSetBit]
    cases hnext : findNextSetBit s.l2 slot start with
    | none =>
      rw [allocateBits_done fun b hb => by cases hb]
      rfl
    | some bit =>
      obtain ⟨h1, h2, -, -⟩ := findNextSetBit_eq_some hnext
      simp only
      by_cases hbit : bit < scanEnd
      swap
      · -- The bits behind this one are not before the end either.
        rw [allocateBits_done fun b hb => by
          obtain rfl := Option.some.inj hb
          exact not_lt.mp hbit]
        rw [List.filter_eq_nil_iff.mpr fun i hi => ?_]
        · rfl
        · rcases List.mem_cons.mp hi with rfl | hi
          · simpa using hbit
          · have hlt := (mem_setBits.mp hi).1.1
            simp only [decide_eq_true_eq]
            omega
      obtain ⟨fuel, rfl⟩ : ∃ k, fuel = k + 1 := ⟨fuel - 1, by omega⟩
      rw [allocateBits_succ hbit, List.filter_cons_of_pos (by simpa using hbit), List.map_cons,
        walk]
      rw [show decide (bitsPerSlot ≤ bit) = false from decide_eq_false (not_le.mpr h2)]
      rcases hvisit : visit want minLength maxLength ⟨bitsPerSlot * slot + bit, false⟩ s o with
        _ | ⟨d, s₁, o₁⟩
      · rfl
      cases d with
      | true => rfl
      | false =>
        have hrest := allocateBits_mixed l2 slot scanEnd fuel (bit + 1) s₁ o₁ (by omega)
          fun p hp => by
            rw [visit_l2 hvisit fun _ => by simp only; omega]
            exact hl2 p (by omega)
        have hslot : bitsPerSlot * slot / bitsPerSlot = slot := by simp
        simp only [Bool.false_eq_true, if_false, hslot]
        rw [hrest]
        congr 3
        refine setBits_congr fun u hu _ => (hl2 _ (by omega)).symm

/-- A visit within a word is to one of its entries. -/
theorem entry_lt_of_mem_slotVisits {l2 : ℕ → Bool} {slot start scanEnd : ℕ}
    (h : v ∈ slotVisits l2 slot start scanEnd) (hb : v.beyond = false) :
    v.entry < bitsPerSlot * slot + bitsPerSlot := by
  unfold slotVisits at h
  split_ifs at h
  · obtain ⟨i, -, rfl⟩ := List.mem_map.mp h
    have hlt := of_decide_eq_false hb
    exact Nat.add_lt_add_left (not_le.mp hlt) _
  · obtain ⟨i, hi, rfl⟩ := List.mem_map.mp h
    have hlt := (mem_setBits.mp (List.mem_of_mem_filter hi)).1.2
    exact Nat.add_lt_add_left hlt _

/-- A round of `_allocate_l2` is a walk over the entries that its first bits say. -/
theorem allocateRound_eq (l2 : ℕ → Bool) (roundEnd : ℕ) : ∀ (fuel idx : ℕ) (s : State) (o : Out),
    (∀ p, idx / bitsPerSlot * bitsPerSlot ≤ p → s.l2 p = l2 p) →
      allocateRound want minLength maxLength roundEnd fuel idx s o =
        walk want minLength maxLength (roundVisits l2 roundEnd fuel idx) s o
  | 0, idx, s, o, _ => rfl
  | fuel + 1, idx, s, o, hl2 => by
    unfold allocateRound roundVisits
    by_cases hidx : idx < roundEnd
    swap
    · rw [if_neg hidx, if_neg hidx]
      rfl
    rw [if_pos hidx, if_pos hidx]
    have hword : ∀ i < 64, s.l2 (64 * (idx / bitsPerSlot) + i) = l2 (64 * (idx / bitsPerSlot) + i) :=
      fun i _ => hl2 _ (by simp only [bitsPerSlot]; omega)
    have hclear : slotClear s.l2 (idx / bitsPerSlot) = slotClear l2 (idx / bitsPerSlot) := by
      refine Bool.eq_iff_iff.mpr ?_
      rw [slotClear_iff, slotClear_iff]
      exact forall₂_congr fun i hi => by rw [hword i hi]
    have hset : slotSet s.l2 (idx / bitsPerSlot) = slotSet l2 (idx / bitsPerSlot) := by
      refine Bool.eq_iff_iff.mpr ?_
      rw [slotSet_iff, slotSet_iff]
      exact forall₂_congr fun i hi => by rw [hword i hi]
    rw [hclear]
    by_cases hskip : slotClear l2 (idx / bitsPerSlot) = true
    · rw [if_pos hskip, if_pos hskip]
      exact allocateRound_eq l2 roundEnd fuel _ s o fun p hp => hl2 p (by
        simp only [bitsPerSlot] at hp ⊢
        omega)
    rw [if_neg hskip, if_neg hskip]
    simp only [hset]
    rw [walk_append, Nat.mul_comm (idx / bitsPerSlot)]
    obtain ⟨scanEnd, hend⟩ : ∃ e, e = min (bitsPerSlot * (idx / bitsPerSlot) + bitsPerSlot) roundEnd :=
      ⟨_, rfl⟩
    rw [← hend]
    -- The word is a walk, and so is the round behind it.
    have hwalk : allocateBits want minLength maxLength (bitsPerSlot * (idx / bitsPerSlot)) scanEnd
        (slotSet l2 (idx / bitsPerSlot)) scanEnd
        (if slotSet l2 (idx / bitsPerSlot) then some 0
          else findNextSetBit s.l2 (idx / bitsPerSlot) (idx % bitsPerSlot)) s o =
        walk want minLength maxLength
          (slotVisits l2 (idx / bitsPerSlot) (idx % bitsPerSlot) scanEnd) s o := by
      unfold slotVisits
      cases slotSet l2 (idx / bitsPerSlot) with
      | true => exact allocateBits_set (idx / bitsPerSlot) scanEnd scanEnd 0 s o (by omega)
      | false =>
        refine allocateBits_mixed l2 (idx / bitsPerSlot) scanEnd scanEnd _ s o (by omega) ?_
        exact fun p hp => hl2 p (by rw [Nat.mul_comm]; omega)
    rw [hwalk]
    -- Either the walk ends in the word, or the round goes on behind it.
    rcases hdone : walk want minLength maxLength
      (slotVisits l2 (idx / bitsPerSlot) (idx % bitsPerSlot) scanEnd) s o with _ | ⟨d, s₁, o₁⟩
    · rfl
    cases d with
    | true => rfl
    | false =>
      rcases Nat.lt_or_ge scanEnd roundEnd with hlt | hge
      swap
      · -- The round ends here.
        cases fuel <;> simp only [allocateRound, roundVisits, if_neg (not_lt.mpr hge), walk]
      have hscan : scanEnd = bitsPerSlot * (idx / bitsPerSlot) + bitsPerSlot := by omega
      refine allocateRound_eq l2 roundEnd fuel scanEnd s₁ o₁ fun p hp => ?_
      have hbehind : bitsPerSlot * (idx / bitsPerSlot) + bitsPerSlot ≤ p := by
        simp only [bitsPerSlot] at hscan hp ⊢
        omega
      rw [walk_l2 _ _ _ hdone p fun hin => ?_]
      · exact hl2 p (by rw [Nat.mul_comm]; omega)
      · -- An entry of the word is before its end.
        have hlt := entry_lt_of_mem_slotVisits hin rfl
        simp only at hlt
        omega

/-! ## What a visit takes -/

/-- The parts of the allocator that no allocation writes. -/
structure SameDevice (s s' : State) : Prop where
  deviceSize : s'.deviceSize = s.deviceSize
  granularity : s'.granularity = s.granularity
  entries : s'.entries = s.entries
  l2Slots : s'.l2Slots = s.l2Slots

/-- A state is of its own device. -/
theorem SameDevice.refl (s : State) : SameDevice s s := ⟨rfl, rfl, rfl, rfl⟩

/-- States of one device are so in a row. -/
theorem SameDevice.trans {s'' : State} (h : SameDevice s s') (h' : SameDevice s' s'') :
    SameDevice s s'' :=
  ⟨h'.1.trans h.1, h'.2.trans h.2, h'.3.trans h.3, h'.4.trans h.4⟩

/-- The units under an L2 entry that are free. -/
def freeUnder (bits : ℕ → Bool) (b : ℕ) : List ℕ :=
  setBits bits (131072 * b) (131072 * b + 131072)

/-- The units of an L2 entry that are free. -/
theorem mem_freeUnder {bits : ℕ → Bool} {b u : ℕ} :
    u ∈ freeUnder bits b ↔ Under b u ∧ bits u = true := mem_setBits

/-- A unit of an L2 entry is known by its quotient. -/
theorem under_iff {b u : ℕ} : Under b u ↔ u / 131072 = b := by
  unfold Under
  omega

/-- The free units of an L2 entry are those of its L1 entries. -/
theorem flatMap_freeIn (bits : ℕ → Bool) (b : ℕ) :
    (List.range' (l1PerL2 * b) l1PerL2).flatMap (freeIn bits) = freeUnder bits b := by
  have h := flatMap_setBits bits 512 256 (256 * b)
  rw [← Nat.mul_assoc] at h
  exact h

/-- The check of the L1 entries finds out whether a unit of the entry is free. -/
theorem isEmptyL1_eq_some {b : ℕ} {empty : Bool} (h : s.isEmptyL1 b = some empty) :
    b < s.entries ∧ (empty = true ↔ ∀ u, Under b u → s.l0 u = false) := by
  unfold isEmptyL1 at h
  split_ifs at h with hb
  refine ⟨hb, ?_⟩
  rw [← Option.some.inj h, List.all_eq_true]
  constructor
  · intro hall u hu
    have hentry := hall (u / 512) (List.mem_range'_1.mpr ⟨by
      simp only [l1PerL2]
      have := hu.1
      omega, by
      simp only [l1PerL2]
      have := hu.2
      omega⟩)
    have hbit := (entryClear_iff (u / 512)).mp hentry (u % 512) (Nat.mod_lt _ (by norm_num))
    rwa [Nat.div_add_mod] at hbit
  · intro hall e he
    rw [List.mem_range'_1] at he
    simp only [l1PerL2] at he
    exact (entryClear_iff e).mpr fun j hj => hall _ ⟨by omega, by omega⟩

/-- The L1 entries under a visited L2 entry give its free units. -/
theorem takes_visit (want : ℕ) (hc : Consistent s) (L : Lengths s.granularity minLength maxLength)
    (hwf : Wf s.granularity maxLength s.l0 o) (b : ℕ) :
    Takes s.granularity minLength maxLength (Under b)
        ((freeUnder s.l0 b).take ((want - o.allocated) / s.granularity)) s.l0 o
        ((allocateL1 want minLength maxLength (List.range' (l1PerL2 * b) l1PerL2) s o).map
          fun r => (r.1.l0, r.2)) ∧
      ∀ r, allocateL1 want minLength maxLength (List.range' (l1PerL2 * b) l1PerL2) s o = some r →
        Summed s r.1 := by
  have h := allocateL1_spec want (List.range' (l1PerL2 * b) l1PerL2) s o L
    (List.pairwise_lt_range' 1) hwf hc.l1 hc.l0
  rw [flatMap_freeIn] at h
  refine ⟨h.1.mono fun u hu => ?_, h.2⟩
  rw [List.mem_range'_1] at hu
  simp only [l1PerL2] at hu
  exact ⟨by omega, by omega⟩

/-- A visit keeps the summaries true. -/
theorem visit_consistent (hc : Consistent s) (L : Lengths s.granularity minLength maxLength)
    (hwf : Wf s.granularity maxLength s.l0 o)
    (h : visit want minLength maxLength v s o = some (d, s', o')) :
    Consistent s' ∧ SameDevice s s' ∧ v.entry < s.entries ∧ (d = true ↔ want ≤ o'.allocated) ∧
      (v.beyond = true → ∃ u, Under v.entry u ∧ s'.l0 u = true) ∧
      (allocateL1 want minLength maxLength (List.range' (l1PerL2 * v.entry) l1PerL2) s o).map
        (fun r => (r.1.l0, r.2)) = some (s'.l0, o') := by
  obtain ⟨s₁, empty, hL1, hempty, hbeyond, hd, -, hs'⟩ := visit_eq_some h
  obtain ⟨htakes, hsummed⟩ := takes_visit want hc L hwf v.entry
  have hsum := hsummed _ hL1
  have htook := htakes.took (s₁.l0, o') (by rw [hL1]; rfl)
  obtain ⟨hb, hiff⟩ := isEmptyL1_eq_some hempty
  have hsame := hsum.same
  have hl0 : s'.l0 = s₁.l0 := by rw [hs']
  refine ⟨?_, ?_, hsame.entries ▸ hb, hd, fun hv => ?_, by rw [hL1, hl0]; rfl⟩
  -- Only the L2 bit of the entry can have changed.
  · rw [hs']
    refine ⟨?_, ?_, ?_, fun u hu => ?_, fun e he => ?_, fun p => ?_⟩
    · show 0 < s₁.granularity
      rw [hsame.granularity]
      exact hc.granularity
    · show s₁.deviceSize ≤ s₁.entries * (s₁.granularity * bitsPerSlotset * l1PerL2)
      rw [hsame.deviceSize, hsame.entries, hsame.granularity]
      exact hc.device
    · show s₁.entries ≤ 64 * s₁.l2Slots
      rw [hsame.entries, hsame.l2Slots]
      exact hc.slots
    · show u < 131072 * s₁.entries
      rw [hsame.entries]
      exact hc.l0 u (htook.sub u hu)
    · refine hsum.l1 e ?_
      rw [← hsame.entries]
      exact he
    -- The bit is cleared exactly when nothing is free under it any more.
    · show (if empty = true then setBit s₁.l2 v.entry false else s₁.l2) p = true ↔
        ∃ u, Under p u ∧ s₁.l0 u = true
      by_cases hp : p = v.entry
      · subst hp
        by_cases he : empty = true
        · rw [if_pos he]
          refine iff_of_false (by simp [setBit]) ?_
          rintro ⟨u, hu, hbit⟩
          rw [hiff.mp he u hu] at hbit
          cases hbit
        · rw [if_neg he, hsame.l2]
          have hsome : ∃ u, Under v.entry u ∧ s₁.l0 u = true := by
            by_contra hnone
            push Not at hnone
            exact he (hiff.mpr fun u hu => Bool.eq_false_iff.mpr (hnone u hu))
          refine iff_of_true ?_ hsome
          obtain ⟨u, hu, hbit⟩ := hsome
          exact (hc.l2 v.entry).mpr ⟨u, hu, htook.sub u hbit⟩
      -- Under another entry nothing was taken.
      · have hl2 : (if empty = true then setBit s₁.l2 v.entry false else s₁.l2) p = s.l2 p := by
          split_ifs
          · exact (Function.update_of_ne hp _ _).trans (congrFun hsame.l2 p)
          · exact congrFun hsame.l2 p
        rw [hl2, hc.l2]
        refine exists_congr fun u => and_congr_right fun hu => ?_
        have hframe : s₁.l0 u = s.l0 u := htook.frame u fun hv => hp (by
          rw [← under_iff.mp hu, under_iff.mp hv])
        rw [hframe]
  · rw [hs']
    exact ⟨hsame.deviceSize, hsame.granularity, hsame.entries, hsame.l2Slots⟩
  · by_contra hnone
    push Not at hnone
    rw [hl0] at hnone
    exact hbeyond ⟨hiff.mpr fun u hu => Bool.eq_false_iff.mpr (hnone u hu), hv⟩

/-- A visit comes to its end if its L1 entries do, and one beyond the word finds something free. -/
theorem visit_total {b : ℕ} {beyond : Bool} {s₁ : State}
    (h : allocateL1 want minLength maxLength (List.range' (l1PerL2 * b) l1PerL2) s o = some (s₁, o'))
    (hb : b < s₁.entries)
    (hbeyond : beyond = true → ∃ u, Under b u ∧ s₁.l0 u = true) :
    ∃ d s', visit want minLength maxLength ⟨b, beyond⟩ s o = some (d, s', o') := by
  obtain ⟨empty, hempty⟩ : ∃ e, s₁.isEmptyL1 b = some e := by
    unfold isEmptyL1
    exact ⟨_, if_pos hb⟩
  have hnot : ¬ (empty = true ∧ beyond = true) := by
    rintro ⟨he, hbe⟩
    obtain ⟨u, hu, hbit⟩ := hbeyond hbe
    rw [(isEmptyL1_eq_some hempty).2.mp he u hu] at hbit
    cases hbit
  unfold visit
  simp only [h, hempty, hnot, if_false]
  by_cases hwant : want ≤ o'.allocated
  · simp only [hwant, if_true]
    exact ⟨_, _, rfl⟩
  · simp only [hwant, if_false]
    exact ⟨_, _, rfl⟩

/-! ## What a walk takes -/

/-- Whatever a walk comes to, it keeps the summaries true. -/
theorem walk_consistent : ∀ (vs : List Visit) {s : State} {o : Out} {d : Bool} {s' : State} {o' : Out},
    Consistent s → Lengths s.granularity minLength maxLength → Wf s.granularity maxLength s.l0 o →
      walk want minLength maxLength vs s o = some (d, s', o') →
      Consistent s' ∧ SameDevice s s' ∧
        (∃ t, Took s.granularity minLength maxLength (fun _ => True) t s.l0 s'.l0 o o') ∧
        (vs ≠ [] ∨ o.allocated < want → (d = true ↔ want ≤ o'.allocated))
  | [], s, o, d, s', o', hc, _, hwf, h => by
    simp only [walk, Option.some.injEq, Prod.mk.injEq] at h
    obtain ⟨rfl, rfl, rfl⟩ := h
    exact ⟨hc, SameDevice.refl s, ⟨[], Took.refl hwf _⟩, fun hlt => by simpa using hlt⟩
  | v :: vs, s, o, d, s', o', hc, L, hwf, h => by
    unfold walk at h
    split at h
    · cases h
    · rename_i r hvisit
      simp only [Option.some.injEq, Prod.mk.injEq] at h
      obtain ⟨rfl, rfl⟩ := h
      obtain ⟨hc', hdev, -, hd, -, hL1⟩ := visit_consistent hc L hwf hvisit
      exact ⟨hc', hdev, ⟨_, ((takes_visit want hc L hwf v.entry).1.took _ hL1).anywhere⟩,
        fun _ => hd⟩
    · rename_i s₁ o₁ hvisit
      obtain ⟨hc', hdev, -, hd, -, hL1⟩ := visit_consistent hc L hwf hvisit
      have htook := ((takes_visit want hc L hwf v.entry).1.took _ hL1).anywhere
      obtain ⟨hc'', hdev', ⟨t, htook'⟩, hdone⟩ := walk_consistent vs hc' (hdev.granularity ▸ L)
        (hdev.granularity ▸ htook.wf) h
      rw [hdev.granularity] at htook'
      exact ⟨hc'', hdev.trans hdev', ⟨_, htook.trans htook' fun _ => rfl⟩,
        fun _ => hdone (.inr (not_le.mp fun hle => by cases hd.mpr hle))⟩

end State

/-- The entries that a walk comes to in the words that it is at. -/
def firsts (vs : List Visit) : List ℕ := (vs.takeWhile fun v => !v.beyond).map Visit.entry

/-- The first entry that a walk comes to beyond a word. -/
def beyondOf (vs : List Visit) : Option ℕ := (vs.find? Visit.beyond).map Visit.entry

/-- The free units that a walk comes to, up to the first entry beyond a word. -/
def reach (bits : ℕ → Bool) (vs : List Visit) : List ℕ :=
  (firsts vs).flatMap (State.freeUnder bits) ++
    match beyondOf vs with
    | none => []
    | some b => if b ∈ firsts vs then [] else State.freeUnder bits b

/-- A walk for `n` units comes to its end: it has them before it leaves a word behind, or it does
not leave one behind, or the entry beyond it has L1 entries and more free units than are needed. -/
def Served (entries : ℕ) (bits : ℕ → Bool) (vs : List Visit) (n : ℕ) : Prop :=
  n ≤ ((firsts vs).flatMap (State.freeUnder bits)).length ∨ beyondOf vs = none ∨
    ∃ b, beyondOf vs = some b ∧ b < entries ∧ b ∉ firsts vs ∧ n < (reach bits vs).length

/-- A part of an allocation that comes to an end when `S` holds. -/
structure Walks (g minLength maxLength : ℕ) (t : List ℕ) (S : Prop) (bits : ℕ → Bool) (o : Out)
    (f : Option ((ℕ → Bool) × Out)) : Prop where
  took : ∀ r, f = some r →
    Took g minLength maxLength (fun _ => True) t bits r.1 o r.2 ∧ (Grown g t bits r.1 o r.2 → S)
  good : Good g minLength maxLength t o → S →
    ∃ r, f = some r ∧ Grown g t bits r.1 o r.2 ∧ Aligned minLength r.2

section

variable {g minLength maxLength : ℕ} {t t' : List ℕ} {S : Prop} {bits bits' : ℕ → Bool}
  {o o' : Out} {f f₁ : Option ((ℕ → Bool) × Out)} {R : ℕ → Prop}

/-- Where the units went to the caller none is lost. -/
theorem Grown.not_leaked (h : Grown g t bits bits' o o') : ¬ Leaked g bits bits' o' := by
  rintro ⟨u, hb, hb', hu⟩
  rw [h.bits, hb, Bool.true_and, decide_eq_false_iff_not, not_not] at hb'
  exact hu (h.cover ▸ List.mem_append_right _ hb')

/-- One part of an allocation, and `f` with the rest of it. What `f` does needs to be known only when
the first part has lost nothing. -/
theorem Walks.seq (h : Takes g minLength maxLength R t bits o f₁) (hd : (t ++ t').Nodup)
    (hclosed : Good g minLength maxLength (t ++ t') o → BlockClosed (minLength / g) t)
    (hnone : f₁ = none → f = none)
    (hany : ∀ r, f₁ = some r → ∀ q, f = some q →
      ∃ t₂, Took g minLength maxLength (fun _ => True) t₂ r.1 q.1 r.2 q.2)
    (hsome : ∀ r, f₁ = some r → Wf g maxLength r.1 r.2 → Grown g t bits r.1 o r.2 →
      Walks g minLength maxLength t' S r.1 r.2 f) :
    Walks g minLength maxLength (t ++ t') S bits o f := by
  constructor
  case took =>
    intro q hq
    obtain ⟨r, hr⟩ : ∃ r, f₁ = some r := Option.ne_none_iff_exists'.mp fun h₁ => by
      rw [hnone h₁] at hq
      cases hq
    have htook := (h.took r hr).anywhere
    rcases htook.outcome with hgrown | hleaked
    · obtain ⟨htook', hS⟩ := (hsome r hr htook.wf hgrown).took q hq
      have hall := htook.trans htook' fun _ => rfl
      refine ⟨hall, fun hg => ?_⟩
      rcases htook'.outcome with hgrown' | ⟨u, hb, hb', hu⟩
      · exact hS hgrown'
      · exact absurd ⟨u, htook.sub u hb, hb', hu⟩ hg.not_leaked
    · obtain ⟨t₂, htook'⟩ := hany r hr q hq
      have hlost := hleaked.trans htook'
      exact ⟨htook.trans htook' fun hgrown => absurd hleaked hgrown.not_leaked,
        fun hg => absurd hlost hg.not_leaked⟩
  case good =>
    intro hgood hS
    obtain ⟨r, hr, hgrown, hal⟩ := h.good (hgood.left (hclosed hgood))
    obtain ⟨q, hq, hgrown', hal'⟩ := (hsome r hr (h.took r hr).wf hgrown).good
      (hgood.right hd (hclosed hgood) hal) hS
    exact ⟨q, hq, hgrown.trans hgrown', hal'⟩

/-- The part ends here. -/
theorem walks_end (hwf : Wf g maxLength bits o) (hS : S) :
    Walks g minLength maxLength [] S bits o (some (bits, o)) := by
  refine ⟨fun r hr => ?_, fun hgood _ => ⟨_, rfl, ⟨fun u => by simp, by simp⟩, hgood.aligned⟩⟩
  obtain rfl := Option.some.inj hr
  exact ⟨Took.refl hwf _, fun _ => hS⟩

/-- There is enough when so many units are in the extents. -/
theorem Grown.enough_iff {want : ℕ} (h : Grown g t bits bits' o o') (hg : 0 < g)
    (hwf : Wf g maxLength bits o) (hwf' : Wf g maxLength bits' o') (hwant : g ∣ want) :
    want ≤ o'.allocated ↔ (want - o.allocated) / g ≤ t.length := by
  obtain ⟨w, rfl⟩ := hwant
  rw [h.allocated hwf hwf', hwf.count, ← Nat.mul_add, ← Nat.mul_sub, Nat.mul_div_cancel_left _ hg,
    Nat.mul_le_mul_left_iff hg]
  omega

/-! ## The walk, visit by visit -/

/-- A visit within the word is a first one. -/
@[simp]
theorem firsts_inside (b : ℕ) (vs : List Visit) : firsts (⟨b, false⟩ :: vs) = b :: firsts vs := rfl

/-- Behind a visit beyond the word there are no first ones. -/
@[simp]
theorem firsts_beyond (b : ℕ) (vs : List Visit) : firsts (⟨b, true⟩ :: vs) = [] := rfl

/-- A visit within the word is not beyond it. -/
@[simp]
theorem beyondOf_inside (b : ℕ) (vs : List Visit) : beyondOf (⟨b, false⟩ :: vs) = beyondOf vs := rfl

/-- A visit beyond the word is where the walk leaves it. -/
@[simp]
theorem beyondOf_beyond (b : ℕ) (vs : List Visit) : beyondOf (⟨b, true⟩ :: vs) = some b := rfl

/-- The bits when an L2 entry is used up. -/
def without (bits : ℕ → Bool) (b : ℕ) : ℕ → Bool :=
  fun u => bits u && decide (u ∉ State.freeUnder bits b)

/-- The bits without an L2 entry. -/
theorem without_eq_true {b u : ℕ} :
    without bits b u = true ↔ bits u = true ∧ u / 131072 ≠ b := by
  simp only [without, Bool.and_eq_true, decide_eq_true_eq, State.mem_freeUnder, State.under_iff]
  tauto

/-- Without its units an L2 entry has none, and the others have theirs. -/
theorem freeUnder_without (b q : ℕ) :
    State.freeUnder (without bits b) q = if q = b then [] else State.freeUnder bits q := by
  split_ifs with hq
  · subst hq
    refine setBits_eq_nil_iff.mpr fun u h1 h2 => Bool.eq_false_iff.mpr fun hbit => ?_
    exact (without_eq_true.mp hbit).2 (State.under_iff.mp ⟨h1, h2⟩)
  · refine setBits_congr fun u h1 h2 => Bool.eq_iff_iff.mpr ?_
    rw [without_eq_true, and_iff_left]
    rw [State.under_iff.mp ⟨h1, h2⟩]
    exact hq

/-- Units of other entries stay. -/
theorem flatMap_without {b : ℕ} {bs : List ℕ} (hb : b ∉ bs) :
    bs.flatMap (State.freeUnder (without bits b)) = bs.flatMap (State.freeUnder bits) :=
  List.flatMap_congr fun q hq => by
    have hqb : q ≠ b := fun heq => hb (heq ▸ hq)
    rw [freeUnder_without, if_neg hqb]

/-- The first visit reaches the units of its entry, and the rest is reached without them. -/
theorem reach_inside {b : ℕ} {vs : List Visit} (hb : b ∉ firsts vs) :
    reach bits (⟨b, false⟩ :: vs) = State.freeUnder bits b ++ reach (without bits b) vs := by
  unfold reach
  rw [firsts_inside, beyondOf_inside, List.flatMap_cons, flatMap_without hb, List.append_assoc]
  congr 2
  cases beyondOf vs with
  | none => rfl
  | some q =>
    simp only [List.mem_cons, freeUnder_without]
    by_cases hqb : q = b
    · subst hqb
      rw [if_pos (.inl rfl), if_neg hb, if_pos rfl]
    · simp only [hqb, false_or, if_false]

/-- Units that are reached are free. -/
theorem mem_reach {u : ℕ} {vs : List Visit} (h : u ∈ reach bits vs) : bits u = true := by
  rcases List.mem_append.mp h with h | h
  · obtain ⟨b, -, hu⟩ := List.mem_flatMap.mp h
    exact (State.mem_freeUnder.mp hu).2
  · cases hb : beyondOf vs with
    | none =>
      rw [hb] at h
      cases h
    | some b =>
      rw [hb] at h
      simp only at h
      split_ifs at h
      · cases h
      · exact (State.mem_freeUnder.mp h).2

/-- No unit is reached twice. -/
theorem nodup_reach {vs : List Visit} (h : (firsts vs).Nodup) : (reach bits vs).Nodup := by
  have hin : ∀ {b u}, u ∈ State.freeUnder bits b → u / 131072 = b := fun hu =>
    State.under_iff.mp (State.mem_freeUnder.mp hu).1
  refine List.nodup_append.mpr ⟨List.nodup_flatMap.mpr ⟨fun b _ => setBits_nodup _ _ _,
    h.imp fun {a b} hab u ha hb => hab ((hin ha).symm.trans (hin hb))⟩, ?_, ?_⟩
  · cases beyondOf vs with
    | none => exact List.nodup_nil
    | some b =>
      simp only
      split_ifs
      · exact List.nodup_nil
      · exact setBits_nodup _ _ _
  · intro u hu w hw heq
    subst heq
    obtain ⟨a, ha, hua⟩ := List.mem_flatMap.mp hu
    cases hb : beyondOf vs with
    | none =>
      rw [hb] at hw
      cases hw
    | some b =>
      rw [hb] at hw
      simp only at hw
      split_ifs at hw with hin'
      · cases hw
      · exact hin' ((hin hw).symm.trans (hin hua) ▸ ha)

/-- After a visit the rest of the walk has the rest to find. -/
theorem served_inside {entries b n : ℕ} {vs : List Visit} (hb : b ∉ firsts vs)
    (hn : (State.freeUnder bits b).length < n) :
    Served entries bits (⟨b, false⟩ :: vs) n ↔
      Served entries (without bits b) vs (n - (State.freeUnder bits b).length) := by
  unfold Served
  rw [reach_inside hb, firsts_inside, beyondOf_inside, List.flatMap_cons, List.length_append,
    List.length_append, flatMap_without hb]
  constructor
  · rintro (h | h | ⟨q, hq, hlt, hnot, h⟩)
    · exact .inl (by omega)
    · exact .inr (.inl h)
    · exact .inr (.inr ⟨q, hq, hlt, fun hin => hnot (List.mem_cons_of_mem b hin), by omega⟩)
  · rintro (h | h | ⟨q, hq, hlt, hnot, h⟩)
    · exact .inl (by omega)
    · exact .inr (.inl h)
    · by_cases hqb : q = b
      · -- The entry beyond the word is used up, and gives nothing.
        subst hqb
        have hreach : reach (without bits q) vs = (firsts vs).flatMap (State.freeUnder bits) := by
          rw [reach, flatMap_without hb, hq]
          simp only [freeUnder_without, if_true, ite_self, List.append_nil]
        rw [hreach] at h
        exact .inl (by omega)
      · refine .inr (.inr ⟨q, hq, hlt, ?_, by omega⟩)
        rintro (_ | ⟨_, hin⟩)
        · exact hqb rfl
        · exact hnot hin

/-- Some unit of a list is not among its first ones exactly when there are more. -/
theorem exists_not_mem_take_iff {l : List ℕ} (h : l.Nodup) {n : ℕ} :
    (∃ u ∈ l, u ∉ l.take n) ↔ n < l.length := by
  constructor
  · rintro ⟨u, hu, hnot⟩
    by_contra hge
    rw [List.take_of_length_le (not_lt.mp hge)] at hnot
    exact hnot hu
  · intro hlt
    by_contra hall
    push Not at hall
    have hle := (List.Nodup.subperm h hall).length_le
    rw [List.length_take] at hle
    omega

end

namespace State

variable {want minLength maxLength : ℕ} {s : State} {o : Out}

/-- When the L1 entries end, so does the visit. -/
theorem visit_of_l1 (hc : Consistent s) (L : Lengths s.granularity minLength maxLength)
    (hwf : Wf s.granularity maxLength s.l0 o) {b : ℕ} (beyond : Bool) {r : (ℕ → Bool) × Out}
    (hr : (allocateL1 want minLength maxLength (List.range' (l1PerL2 * b) l1PerL2) s o).map
      (fun r => (r.1.l0, r.2)) = some r) (hb : b < s.entries)
    (hbeyond : beyond = true → ∃ u, Under b u ∧ r.1 u = true) :
    ∃ d s', visit want minLength maxLength ⟨b, beyond⟩ s o = some (d, s', r.2) ∧ s'.l0 = r.1 ∧
      Consistent s' ∧ SameDevice s s' ∧ (d = true ↔ want ≤ r.2.allocated) := by
  obtain ⟨⟨s₁, o₁⟩, hL1, rfl⟩ := Option.map_eq_some_iff.mp hr
  have hentries : s₁.entries = s.entries :=
    ((takes_visit want hc L hwf b).2 _ hL1).same.entries
  obtain ⟨d, s', hvisit⟩ := visit_total hL1 (hentries ▸ hb) hbeyond
  obtain ⟨hc', hdev, -, hd, -, hmap⟩ := visit_consistent hc L hwf hvisit
  rw [hL1] at hmap
  exact ⟨d, s', hvisit, (congrArg Prod.fst (Option.some.inj hmap)).symm, hc', hdev, hd⟩

/-- A visit fails where its L1 entries do. -/
theorem visit_none {v : Visit}
    (h : (allocateL1 want minLength maxLength (List.range' (l1PerL2 * v.entry) l1PerL2) s o).map
      (fun r => (r.1.l0, r.2)) = none) : visit want minLength maxLength v s o = none := by
  unfold visit
  rw [Option.map_eq_none_iff.mp h]

/-- Whatever comes behind a visit, it loses nothing that the visit has taken. -/
theorem took_behind (hc : Consistent s) (L : Lengths s.granularity minLength maxLength)
    (hwf : Wf s.granularity maxLength s.l0 o) {v : Visit} {vs : List Visit}
    {r q : (ℕ → Bool) × Out}
    (hr : (allocateL1 want minLength maxLength (List.range' (l1PerL2 * v.entry) l1PerL2) s o).map
      (fun r => (r.1.l0, r.2)) = some r)
    (hq : (walk want minLength maxLength (v :: vs) s o).map (fun r => (r.2.1.l0, r.2.2)) = some q) :
    ∃ t, Took s.granularity minLength maxLength (fun _ => True) t r.1 q.1 r.2 q.2 := by
  obtain ⟨⟨d', s', o'⟩, hwalk, rfl⟩ := Option.map_eq_some_iff.mp hq
  have hwf' := ((takes_visit want hc L hwf v.entry).1.took r hr).wf
  unfold walk at hwalk
  split at hwalk
  · cases hwalk
  · rename_i p hvisit
    simp only [Option.some.injEq, Prod.mk.injEq] at hwalk
    obtain ⟨rfl, rfl⟩ := hwalk
    obtain ⟨-, -, -, -, -, hL1⟩ := visit_consistent hc L hwf hvisit
    rw [hr, Option.some.injEq] at hL1
    subst hL1
    exact ⟨[], Took.refl hwf' _⟩
  · rename_i s₁ o₁ hvisit
    obtain ⟨hc₁, hdev, -, -, -, hL1⟩ := visit_consistent hc L hwf hvisit
    rw [hr, Option.some.injEq] at hL1
    subst hL1
    obtain ⟨-, -, ⟨t, htook⟩, -⟩ := walk_consistent vs hc₁ (hdev.granularity ▸ L)
      (hdev.granularity ▸ hwf') hwalk
    rw [hdev.granularity] at htook
    exact ⟨t, htook⟩

/-- What a walk takes is the first of the free units that it comes to. -/
theorem walk_spec : ∀ (vs : List Visit) (s : State) (o : Out), Consistent s →
    Lengths s.granularity minLength maxLength → Wf s.granularity maxLength s.l0 o →
      s.granularity ∣ want → (o.allocated < want ∨ firsts vs ≠ [] ∨ vs = []) → (firsts vs).Nodup →
      (∀ b ∈ firsts vs, s.l2 b = true) →
      Walks s.granularity minLength maxLength
        ((reach s.l0 vs).take ((want - o.allocated) / s.granularity))
        (Served s.entries s.l0 vs ((want - o.allocated) / s.granularity)) s.l0 o
        ((walk want minLength maxLength vs s o).map fun r => (r.2.1.l0, r.2.2))
  | [], s, o, _, _, hwf, _, _, _, _ => by
    have hnil : reach s.l0 [] = [] := rfl
    rw [hnil, List.take_nil]
    exact walks_end hwf (.inr (.inl rfl))
  | ⟨b, false⟩ :: vs, s, o, hc, L, hwf, hwant, _, hd, hl2 => by
    obtain ⟨n, hn⟩ : ∃ n, n = (want - o.allocated) / s.granularity := ⟨_, rfl⟩
    rw [firsts_inside] at hd hl2
    obtain ⟨hb, hd'⟩ := List.nodup_cons.mp hd
    have htakes := (takes_visit want hc L hwf b).1
    rw [← hn] at htakes ⊢
    have hentry : b < s.entries := by
      obtain ⟨u, hu, hbit⟩ := (hc.l2 b).mp (hl2 b List.mem_cons_self)
      have hlt := hc.l0 u hbit
      have hle := hu.1
      omega
    -- What the walk takes is that of the first visit, then that of the rest.
    have hsplit : (reach s.l0 (⟨b, false⟩ :: vs)).take n = (freeUnder s.l0 b).take n ++
        (reach (without s.l0 b) vs).take (n - (freeUnder s.l0 b).length) := by
      rw [reach_inside hb, List.take_append]
    rw [hsplit]
    refine Walks.seq htakes ?_ (fun hgood => ?_) (fun hnone => ?_)
      (fun r hr q hq => took_behind hc L hwf hr hq) fun r hr hwf' hgrown => ?_
    · rw [← hsplit]
      exact (nodup_reach (show (firsts (⟨b, false⟩ :: vs)).Nodup from hd)).sublist
        (List.take_sublist _ _)
    · -- No block is under two L2 entries.
      rcases hgood.fits with hnil | ⟨-, hdvd⟩
      · rw [(List.append_eq_nil_iff.mp hnil).1]
        exact fun u hu => by cases hu
      · refine hgood.closed.left (w := 131072) (i := b) (hdvd.trans (by norm_num)) (fun u hu => ?_)
          fun u hu => ?_
        · exact under_iff.mp (mem_freeUnder.mp (List.mem_of_mem_take hu)).1
        · exact (without_eq_true.mp (mem_reach (List.mem_of_mem_take hu))).2
    · rw [walk, visit_none hnone]
      rfl
    -- The visit comes to its end, with `d` saying whether that was enough.
    obtain ⟨d, s₁, hvisit, hl0, hc₁, hdev, hdone⟩ := visit_of_l1 hc L hwf false hr hentry
      fun hbeyond => by cases hbeyond
    rw [hgrown.enough_iff L.unit hwf hwf' hwant, ← hn, List.length_take] at hdone
    cases d with
    | true =>
      -- The entry has all that is left to take.
      have hle : n ≤ (freeUnder s.l0 b).length := by
        have := hdone.mp rfl
        omega
      rw [Nat.sub_eq_zero_of_le hle, List.take_zero, walk, hvisit]
      simp only [Option.map_some, hl0]
      refine walks_end hwf' (.inl ?_)
      rw [firsts_inside, List.flatMap_cons, List.length_append]
      omega
    | false =>
      have hmore : (freeUnder s.l0 b).length < n := by
        have := mt hdone.mpr (by simp)
        omega
      have hbits : r.1 = without s.l0 b := by
        funext u
        rw [hgrown.bits, List.take_of_length_le hmore.le]
        rfl
      have hleft : (want - r.2.allocated) / s.granularity = n - (freeUnder s.l0 b).length := by
        rw [hgrown.left hwf hwf', ← hn, List.length_take]
        omega
      have hrest := walk_spec vs s₁ r.2 hc₁ (hdev.granularity ▸ L)
        (by rw [hl0, hdev.granularity]; exact hwf') (hdev.granularity ▸ hwant)
        (.inl (not_le.mp fun hle => by
          rw [hgrown.enough_iff L.unit hwf hwf' hwant, ← hn, List.length_take] at hle
          omega)) hd' fun q hq => by
          have hqb : q ≠ b := fun heq => hb (heq ▸ hq)
          rw [visit_l2 hvisit fun _ => hqb]
          exact hl2 q (List.mem_cons_of_mem b hq)
      rw [hdev.granularity, hleft, hdev.entries, hl0, hbits] at hrest
      rw [walk, hvisit, served_inside hb hmore, hbits]
      exact hrest
  | ⟨b, true⟩ :: vs, s, o, hc, L, hwf, hwant, hlt, _, _ => by
    obtain ⟨n, hn⟩ : ∃ n, n = (want - o.allocated) / s.granularity := ⟨_, rfl⟩
    have htakes := (takes_visit want hc L hwf b).1
    rw [← hn] at htakes ⊢
    have hreach : reach s.l0 (⟨b, true⟩ :: vs) = freeUnder s.l0 b := rfl
    have hnpos : 0 < n := by
      replace hlt : o.allocated < want := hlt.resolve_right (by simp)
      obtain ⟨w, rfl⟩ := hwant
      rw [hwf.count, ← Nat.mul_sub, Nat.mul_div_cancel_left _ L.unit] at hn
      rw [hwf.count] at hlt
      have := Nat.lt_of_mul_lt_mul_left hlt
      omega
    -- It ends when the entry is there and something stays free in it.
    have hserved : Served s.entries s.l0 (⟨b, true⟩ :: vs) n ↔
        b < s.entries ∧ n < (freeUnder s.l0 b).length := by
      unfold Served
      rw [hreach, firsts_beyond, beyondOf_beyond, List.flatMap_nil, List.length_nil]
      constructor
      · rintro (h | h | ⟨q, hq, hlt, -, h⟩)
        · omega
        · cases h
        · obtain rfl := Option.some.inj hq
          exact ⟨hlt, h⟩
      · rintro ⟨hb, h⟩
        exact .inr (.inr ⟨b, rfl, hb, List.not_mem_nil, h⟩)
    -- Something stays free under the entry exactly when not all of it was wanted.
    have hstays : ∀ {r : (ℕ → Bool) × Out},
        Grown s.granularity ((freeUnder s.l0 b).take n) s.l0 r.1 o r.2 →
        ((∃ u, Under b u ∧ r.1 u = true) ↔ n < (freeUnder s.l0 b).length) := fun {r} hgrown => by
      refine Iff.trans (exists_congr fun u => ?_)
        (exists_not_mem_take_iff (l := freeUnder s.l0 b) (setBits_nodup _ _ _))
      rw [mem_freeUnder, hgrown.bits, Bool.and_eq_true, decide_eq_true_eq, and_assoc]
    rw [hreach, ← List.append_nil (List.take n _)]
    refine Walks.seq htakes ?_ (fun hgood => ?_) (fun hnone => ?_)
      (fun r hr q hq => took_behind hc L hwf hr hq) fun r hr hwf' hgrown => ?_
    · rw [List.append_nil]
      exact List.Nodup.sublist (List.take_sublist _ _) (setBits_nodup _ _ _)
    · rw [List.append_nil] at hgood
      exact hgood.closed
    · rw [walk, visit_none hnone]
      rfl
    -- The call ends here, or the assertion of the scan fails.
    by_cases hS : b < s.entries ∧ n < (freeUnder s.l0 b).length
    · obtain ⟨d, s₁, hvisit, hl0, -, -, hdone⟩ := visit_of_l1 hc L hwf true hr hS.1 fun _ =>
        (hstays hgrown).mpr hS.2
      rw [hgrown.enough_iff L.unit hwf hwf' hwant, ← hn, List.length_take] at hdone
      obtain rfl : d = true := hdone.mpr (by omega)
      rw [walk, hvisit]
      simp only [Option.map_some, hl0]
      exact walks_end hwf' (hserved.mpr hS)
    · have hnone : visit want minLength maxLength ⟨b, true⟩ s o = none := by
        rcases hvisit : visit want minLength maxLength ⟨b, true⟩ s o with _ | ⟨d, s', o'⟩
        · rfl
        obtain ⟨-, -, hentry, -, hfree, hL1⟩ := visit_consistent hc L hwf hvisit
        rw [hr, Option.some.injEq] at hL1
        subst hL1
        exact absurd ⟨hentry, (hstays hgrown).mp (hfree rfl)⟩ hS
      rw [walk, hnone]
      exact ⟨fun q hq => (by cases hq), fun _ h => absurd (hserved.mp h) hS⟩

end State

end CxxLab.Blk.Bitmap
