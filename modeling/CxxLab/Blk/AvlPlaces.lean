import CxxLab.Blk.AvlExtents

/-!
# Where the AVL allocator finds a place

`_allocate_single` looks behind a cursor, and then, for a size and its halves in turn, among the
first hundred ranges that are long enough. This module says of the free ranges when it finds nothing
at all and when it finds a place for all that was asked for, and from it when a call of `allocate`
without a limit on the extents returns none, or one extent.
-/

namespace CxxLab.Blk.AvlAllocator

variable {σ : Type}

/-! ## Places -/

/-- One of the first ranges, in the order of length, that are not shorter than a size has an aligned
place for it. -/
def HasPlace (t : AvlAllocator σ) (size align : ℕ) : Prop :=
  ∃ r ∈ (t.rangeSizeTree.dropWhile fun r => r.shorter (0, size)).take maxSearchCount,
    p2roundup r.1 align + size ≤ r.2

instance (t : AvlAllocator σ) (size align : ℕ) : Decidable (t.HasPlace size align) :=
  inferInstanceAs (Decidable (∃ r ∈ _, _))

/-- The sizes that the loop of `_allocate_single` tries, for at most `n` of them. -/
def halves (unit : ℕ) : ℕ → ℕ → List ℕ
  | 0, _ => []
  | n + 1, size =>
    let next := p2align (size / 2) unit
    size :: if unit ≤ next then halves unit n next else []

section

variable (cfg : AvlConfig σ) (t : AvlAllocator σ) (pastEnd size unit : ℕ)

/-- The cursor is used, and there is a place behind it. -/
def CursorHasPlace : Prop :=
  ¬Forced cfg t size ∧ (t.pickBlockAfter pastEnd (t.cursorOf size) size unit).isSome = true

instance : Decidable (CursorHasPlace cfg t pastEnd size unit) :=
  inferInstanceAs (Decidable (_ ∧ _))

/-- The size that is looked for: what is asked for, or what is left of the longest range in
units. -/
def soughtSize : ℕ := if t.maxSize < size then p2align t.maxSize unit else size

/-- There is no place: the longest range is shorter than a unit, or nothing is found behind the
cursor and no half has a place. -/
def NoPlace : Prop :=
  t.maxSize < size ∧ t.maxSize < unit ∨
    ¬CursorHasPlace cfg t pastEnd size unit ∧
      ∀ s ∈ halves unit 64 (soughtSize t size unit), ¬t.HasPlace s unit

instance : Decidable (NoPlace cfg t pastEnd size unit) :=
  inferInstanceAs (Decidable (_ ∨ _))

/-- There is a place for the whole size. -/
def WholePlace : Prop :=
  size ≤ t.maxSize ∧ (CursorHasPlace cfg t pastEnd size unit ∨ t.HasPlace size unit)

instance : Decidable (WholePlace cfg t pastEnd size unit) :=
  inferInstanceAs (Decidable (_ ∧ _))

end

variable {cfg : AvlConfig σ}

/-! ## Searches -/

/-- The loop of `_pick_block_fits` finds a place where one of the ranges within its limit has
one. -/
theorem searchFits_isSome {size align : ℕ} {l : List RangeSeg} {count : ℕ} :
    (searchFits size align count l).isSome = true ↔
      ∃ r ∈ l.take (maxSearchCount - count), p2roundup r.1 align + size ≤ r.2 := by
  induction l generalizing count with
  | nil => simp [searchFits]
  | cons r rs ih =>
    rw [searchFits]
    split_ifs with hstop hfit
    · simp [show maxSearchCount - count = 0 by omega]
    · have hsucc : maxSearchCount - count = (maxSearchCount - (count + 1)) + 1 := by omega
      simp [hsucc, List.take_succ_cons, hfit]
    · have hsucc : maxSearchCount - count = (maxSearchCount - (count + 1)) + 1 := by omega
      rw [ih, hsucc, List.take_succ_cons]
      simp [hfit]

/-- So does `_pick_block_fits`. -/
theorem pickBlockFits_isSome_iff {t : AvlAllocator σ} {size align : ℕ} :
    (t.pickBlockFits size align).isSome = true ↔ t.HasPlace size align := by
  unfold pickBlockFits HasPlace
  rw [searchFits_isSome, Nat.sub_zero]

/-- The halving loop finds nothing where none of its sizes has a place. -/
theorem halveUntilFits_eq_none {t : AvlAllocator σ} {unit n size : ℕ} :
    t.halveUntilFits unit n size = none ↔ ∀ s ∈ halves unit n size, ¬t.HasPlace s unit := by
  induction n generalizing size with
  | zero => simp [halveUntilFits, halves]
  | succ n ih =>
    rw [halveUntilFits, halves, List.forall_mem_cons, ← pickBlockFits_isSome_iff]
    cases t.pickBlockFits size unit with
    | some o => simp
    | none =>
      dsimp only
      split_ifs with hunit
      · simp [ih]
      · simp

/-- It finds the size itself where that has a place. -/
theorem halveUntilFits_whole {t : AvlAllocator σ} {unit n size : ℕ} (hu : 0 < unit) :
    (t.halveUntilFits unit (n + 1) size).map Prod.snd = some size ↔ t.HasPlace size unit := by
  rw [halveUntilFits, ← pickBlockFits_isSome_iff]
  cases t.pickBlockFits size unit with
  | some o => simp
  | none =>
    dsimp only
    -- What is found later is at most a half.
    have hlt := p2align_le (size / 2) unit
    split_ifs with hunit
    · simp only [Option.isSome_none, Bool.false_eq_true, iff_false]
      intro h
      obtain ⟨p, hp, hsnd⟩ := Option.map_eq_some_iff.mp h
      have hle := (halveUntilFits_fitsAt hu (hu.trans_le hunit) hp).2.2
      omega
    · simp

/-! ## `_allocate_single` -/

variable {t : AvlAllocator σ} {pastEnd size unit : ℕ}

/-- What is picked for a size that is not longer than the longest range. -/
theorem pickBlock_of_le (h : size ≤ t.maxSize) :
    (pickBlock cfg t pastEnd t.maxSize size unit false).2 =
      if CursorHasPlace cfg t pastEnd size unit then
        (t.pickBlockAfter pastEnd (t.cursorOf size) size unit).map fun offset => (offset, size)
      else t.halveUntilFits unit 64 size := by
  have hlt : ¬t.maxSize < size := not_lt.mpr h
  unfold pickBlock CursorHasPlace Forced cursorOf
  simp only [hlt, false_or, Bool.false_eq_true]
  split_ifs with h1 h2 h3
  · exact absurd h1 h2.1
  · rfl
  · cases hp : t.pickBlockAfter pastEnd (t.lbas (cbits (size &&& negWord size) - 1)) size unit with
    | some o => rfl
    | none =>
      rw [hp] at h3
      exact absurd h3.2 (by simp)
  · cases hp : t.pickBlockAfter pastEnd (t.lbas (cbits (size &&& negWord size) - 1)) size unit with
    | some o => exact absurd ⟨h1, by simp [hp]⟩ h3
    | none => rfl

/-- Nothing is picked where there is no place. -/
theorem pickBlock_eq_none (h : size ≤ t.maxSize) :
    (pickBlock cfg t pastEnd t.maxSize size unit false).2 = none ↔
      ¬CursorHasPlace cfg t pastEnd size unit ∧ ∀ s ∈ halves unit 64 size, ¬t.HasPlace s unit := by
  rw [pickBlock_of_le h]
  split_ifs with hcursor
  · have hsome := hcursor.2
    simp only [Option.map_eq_none_iff, hcursor, not_true, false_and, iff_false]
    intro hnone
    rw [hnone] at hsome
    cases hsome
  · simp [halveUntilFits_eq_none, hcursor]

/-- A place for the whole size is found where there is one. -/
theorem finds_iff (hu : 0 < unit) (h : size ≤ t.maxSize) :
    Finds cfg t pastEnd size unit ↔ WholePlace cfg t pastEnd size unit := by
  unfold Finds WholePlace
  rw [pickBlock_of_le h]
  split_ifs with hcursor
  · obtain ⟨o, ho⟩ := Option.isSome_iff_exists.mp hcursor.2
    simp [ho, h, hcursor]
  · rw [halveUntilFits_whole hu]
    simp [h, hcursor]

/-- `_allocate_single` finds no space where there is no place. -/
theorem allocateSingle_noSpace_iff {k : ℕ} (hmax : t.maxSize < wordEnd)
    (hsize : 0 < size) (hw : size < wordEnd) :
    allocateSingle cfg t pastEnd size (2 ^ k) = .noSpace ↔
      NoPlace cfg t pastEnd size (2 ^ k) := by
  rcases Nat.lt_or_ge t.maxSize size with hlt | hle
  · have hforced : ¬CursorHasPlace cfg t pastEnd size (2 ^ k) := fun h => h.1 (.inl hlt)
    rw [allocateSingle_of_lt hlt]
    unfold NoPlace soughtSize
    rw [if_pos hlt, ← halveUntilFits_eq_none]
    split_ifs with hunit hzero
    · simp [hlt, hunit]
    · exact absurd hzero (p2align_pos (not_lt.mp hunit) hmax).ne'
    · cases t.halveUntilFits (2 ^ k) 64 (p2align t.maxSize (2 ^ k)) with
      | none => simp [hforced]
      | some p =>
        dsimp only
        cases removeFromTree cfg t p.1 p.2 <;> simp [hunit]
  · have hnot : ¬t.maxSize < size := not_lt.mpr hle
    rw [allocateSingle_of_le hle, if_neg fun h => and_negWord_ne_zero hsize hw h.2]
    unfold NoPlace soughtSize
    rw [if_neg hnot, ← pickBlock_eq_none hle]
    simp only [hnot, false_and, false_or]
    cases hpick : pickBlock cfg t pastEnd t.maxSize size (2 ^ k) false with
    | mk t0 p =>
      cases p with
      | none => simp
      | some p =>
        dsimp only
        cases removeFromTree cfg t0 p.1 p.2 <;> simp

/-- It makes an extent of the whole size where there is a place for it. -/
theorem Rep.allocateSingle_whole_iff {F : Set ℕ} (h : Rep F t) (hwithin : Within cfg F)
    (hcap : cfg.rangeCountCap = 0) {k : ℕ} (hk : k < 64) (hsize : 0 < size)
    (hw : size < wordEnd) :
    (∃ offset t', AvlAllocator.allocateSingle cfg t pastEnd size (2 ^ k) =
        .extent offset size t') ↔
      WholePlace cfg t pastEnd size (2 ^ k) := by
  have hmax := h.maxSize_lt hwithin
  have hu : 0 < 2 ^ k := Nat.two_pow_pos k
  constructor
  · rintro ⟨o, t', he⟩
    rcases Nat.lt_or_ge t.maxSize size with hlt | hle
    · -- What is left of a shorter range is shorter.
      rw [allocateSingle_of_lt hlt] at he
      split_ifs at he with hunit hzero
      cases hhalve : t.halveUntilFits (2 ^ k) 64 (p2align t.maxSize (2 ^ k)) with
      | none => simp [hhalve] at he
      | some p =>
        obtain ⟨o', got⟩ := p
        have hgot := (halveUntilFits_fitsAt hu (Nat.pos_of_ne_zero hzero) hhalve).2.2
        have hle := p2align_le t.maxSize (2 ^ k)
        rw [hhalve] at he
        dsimp only at he
        cases hrm : AvlAllocator.removeFromTree cfg t o' got with
        | none => simp [hrm] at he
        | some t1 =>
          rw [hrm] at he
          simp only [Single.extent.injEq] at he
          omega
    · rw [← finds_iff hu hle]
      unfold Finds
      rw [allocateSingle_of_le hle, if_neg fun h => and_negWord_ne_zero hsize hw h.2] at he
      cases hpick : AvlAllocator.pickBlock cfg t pastEnd t.maxSize size (2 ^ k) false with
      | mk t0 p =>
        rw [hpick] at he
        cases p with
        | none => simp at he
        | some p =>
          dsimp only at he
          cases hrm : AvlAllocator.removeFromTree cfg t0 p.1 p.2 with
          | none => simp [hrm] at he
          | some t1 =>
            rw [hrm] at he
            simp only [Single.extent.injEq] at he
            simp [he.2.1]
  · intro hplace
    have hfinds := (finds_iff hu hplace.1).mpr hplace
    have hu2 : isp2 (2 ^ k) = true := by simp [isp2]
    have huw : 2 ^ k < wordEnd := by
      rw [wordEnd_eq]
      exact Nat.pow_lt_pow_right (by norm_num) hk
    rcases h.allocateSingle hwithin hcap hu2 huw pastEnd hsize with hno | ⟨o, len, t', he, -⟩
    · exact absurd hno (AvlAllocator.allocateSingle_ne_noSpace hplace.1 hfinds)
    · obtain rfl := extent_of_finds hplace.1 hfinds he
      exact ⟨o, t', he⟩

/-! ## `allocate` without a limit -/

/-- An allocator that calls reach which keep their promises. -/
def Reached (cfg : AvlConfig Unit) (t : AvlAllocator Unit) : Prop :=
  ∃ calls s, Runs.Meets (call cfg) (fun s c => c.Allowed cfg s.free) .init calls ∧
    Runs.exec (call cfg) .init calls = some s ∧ s.trees = t

/-- The bytes of the ranges of an allocator. -/
def freeBytes (t : AvlAllocator σ) : Set ℕ := {x | ∃ r ∈ t.rangeTree, r.1 ≤ x ∧ x < r.2}

/-- An allocator represents the bytes of its ranges. -/
theorem Rep.freeBytes_eq {F : Set ℕ} (h : Rep F t) : t.freeBytes = F := by
  ext x
  exact (h.runs.mem x).symm

/-- An allocator that calls reach represents its bytes, and they are on the device. -/
theorem Reached.stands {deviceSize blockSize : ℕ} {t : AvlAllocator Unit}
    (hd : deviceSize < 0x8000000000000000) (hb : blockSize < wordEnd)
    (h : Reached (.plain deviceSize blockSize) t) :
    Rep t.freeBytes t ∧ Within (.plain deviceSize blockSize) t.freeBytes := by
  obtain ⟨calls, s, hcalls, hs, rfl⟩ := h
  have hstands : Stands (.plain deviceSize blockSize) s := by
    refine Runs.exec_invariant (fun s c s' h hok hs => Stands.call hb h hok hs) calls .init s
      ⟨rep_init (), hd, fun x hx => absurd hx (Set.notMem_empty x)⟩ hcalls hs
  rw [hstands.rep.freeBytes_eq]
  exact ⟨hstands.rep, hstands.within⟩

/-- How a call stands that wants a number of bytes, and sets no smaller limit on the extents. -/
inductive Outcome (cfg : AvlConfig σ) (F : Set ℕ) (t : AvlAllocator σ) (pastEnd want unit : ℕ) :
    AvlAllocator σ → List (ℕ × ℕ) → Prop where
  /-- There is no place, and nothing is taken. -/
  | none (t' : AvlAllocator σ) (place : NoPlace cfg t pastEnd (maxExtent cfg want want) unit)
    (left : Rep F t') : Outcome cfg F t pastEnd want unit t' []
  /-- There is a place for all, and it is taken as one extent. -/
  | whole (t' : AvlAllocator σ) (offset : ℕ) (limit : maxExtent cfg want want = want)
    (some : ¬NoPlace cfg t pastEnd (maxExtent cfg want want) unit)
    (place : WholePlace cfg t pastEnd want unit)
    (free : ∀ x, offset ≤ x → x < offset + want → x ∈ F)
    (left : Rep (F \ bytesOf [(offset, want)]) t') :
    Outcome cfg F t pastEnd want unit t' [(offset, want)]
  /-- There is a place, but not for all: the first extent is shorter. -/
  | part (t' : AvlAllocator σ) (offset length : ℕ) (es : List (ℕ × ℕ))
    (some : ¬NoPlace cfg t pastEnd (maxExtent cfg want want) unit)
    (short : ¬(maxExtent cfg want want = want ∧ WholePlace cfg t pastEnd want unit))
    (lt : length < want) (le : length ≤ maxExtent cfg want want) (pos : 0 < length)
    (free : ∀ x, offset ≤ x → x < offset + length → x ∈ F)
    (rest : bytesOf es ⊆ F \ bytesOf [(offset, length)])
    (restPos : ∀ e ∈ es, 0 < e.2)
    (left : Rep (F \ bytesOf ((offset, length) :: es)) t') :
    Outcome cfg F t pastEnd want unit t' ((offset, length) :: es)

/-- The extents of the loop are not empty. -/
theorem Rep.allocateLoop_pos {F : Set ℕ} (h : Rep F t) (hwithin : Within cfg F)
    (hcap : cfg.rangeCountCap = 0) {unit : ℕ} (hu : isp2 unit = true) (huw : unit < wordEnd)
    {maxAllocSize : ℕ} (hmax : 0 < maxAllocSize) {n rest : ℕ} {t' : AvlAllocator σ}
    {es : List (ℕ × ℕ)}
    (hes : AvlAllocator.allocateLoop cfg pastEnd unit maxAllocSize n rest t = some (t', es)) :
    ∀ e ∈ es, 0 < e.2 := by
  induction n generalizing F t rest t' es with
  | zero =>
    simp only [AvlAllocator.allocateLoop, Option.some.injEq, Prod.mk.injEq] at hes
    simp [← hes.2]
  | succ n ih =>
    rw [AvlAllocator.allocateLoop] at hes
    split_ifs at hes with hrest
    · simp only [Option.some.injEq, Prod.mk.injEq] at hes
      simp [← hes.2]
    · have hsize : 0 < min maxAllocSize rest := by omega
      rcases h.allocateSingle hwithin hcap hu huw pastEnd hsize with
        hs | ⟨o, len, t1, hs, hpos, -, -, h1⟩
      · rw [hs] at hes
        simp only [Option.some.injEq, Prod.mk.injEq] at hes
        simp [← hes.2]
      · rw [hs] at hes
        obtain ⟨⟨t2, es'⟩, hloop, heq⟩ := Option.map_eq_some_iff.mp hes
        obtain ⟨-, rfl⟩ := Prod.mk.inj heq
        refine List.forall_mem_cons.mpr ⟨hpos, ih h1 ⟨hwithin.device, fun x hx => ?_⟩ hloop⟩
        exact hwithin.mem x hx.1

/-- A call that wants a number of bytes, and sets no smaller limit, comes to one of the three
outcomes. -/
theorem Rep.allocate_outcome {F : Set ℕ} (h : Rep F t) (hwithin : Within cfg F)
    (hcap : cfg.rangeCountCap = 0) {unit want : ℕ} (hu : isp2 unit = true) (huw : unit < wordEnd)
    (hdvd : want % unit = 0) (hwant : want < wordEnd) (hpos : 0 < maxExtent cfg want want)
    (pastEnd : ℕ) :
    ∃ t' es, AvlAllocator.allocate cfg t pastEnd want unit want = some (t', es) ∧
      Outcome cfg F t pastEnd want unit t' es := by
  obtain ⟨hu0, -, k, rfl⟩ := unit_le hu huw
  have hk : k < 64 := by
    rw [wordEnd_eq] at huw
    exact (Nat.pow_lt_pow_iff_right (by norm_num)).mp huw
  have hle : maxExtent cfg want want ≤ want := by
    calc maxExtent cfg want want ≤ if want = 0 then want else want := maxExtent_le want want
      _ = want := by split_ifs <;> rfl
  obtain ⟨n, rfl⟩ : ∃ n, want = n + 1 := ⟨want - 1, by omega⟩
  -- Without a smaller limit one round asks for all that is wanted.
  obtain ⟨m, hm⟩ : ∃ m, m = maxExtent cfg (n + 1) (n + 1) := ⟨_, rfl⟩
  rw [← hm] at hpos hle
  have hmin : min m (n + 1) = m := by omega
  have hnone : AvlAllocator.allocateSingle cfg t pastEnd m (2 ^ k) = .noSpace ↔
      NoPlace cfg t pastEnd m (2 ^ k) :=
    allocateSingle_noSpace_iff (h.maxSize_lt hwithin) hpos (hle.trans_lt hwant)
  have hwhole : (∃ offset t', AvlAllocator.allocateSingle cfg t pastEnd m (2 ^ k) =
      .extent offset m t') ↔ WholePlace cfg t pastEnd m (2 ^ k) :=
    h.allocateSingle_whole_iff hwithin hcap hk hpos (hle.trans_lt hwant)
  -- One round of the loop.
  have hnothing (hs : AvlAllocator.allocateSingle cfg t pastEnd m (2 ^ k) = .noSpace) :
      AvlAllocator.allocate cfg t pastEnd (n + 1) (2 ^ k) (n + 1) = some (t, []) := by
    rw [AvlAllocator.allocate, if_pos ⟨hu, hdvd⟩, ← hm, AvlAllocator.allocateLoop,
      if_neg (Nat.succ_ne_zero n), hmin, hs]
  have hround {offset length : ℕ} {t1 : AvlAllocator σ}
      (hs : AvlAllocator.allocateSingle cfg t pastEnd m (2 ^ k) = .extent offset length t1) :
      AvlAllocator.allocate cfg t pastEnd (n + 1) (2 ^ k) (n + 1) =
        (AvlAllocator.allocateLoop cfg pastEnd (2 ^ k) m n (n + 1 - length) t1).map fun p =>
          (p.1, (offset, length) :: p.2) := by
    rw [AvlAllocator.allocate, if_pos ⟨hu, hdvd⟩, ← hm, AvlAllocator.allocateLoop,
      if_neg (Nat.succ_ne_zero n), hmin, hs]
  rcases h.allocateSingle hwithin hcap hu huw pastEnd hpos with
    hs | ⟨o, len, t1, hs, hlen, hlm, hF, h1⟩
  -- Nothing is found.
  · rw [hnothing hs]
    exact ⟨t, [], rfl, .none t (hm ▸ hnone.mp hs) h⟩
  -- A place is found, with all that is wanted or with a part of it.
  · have hsome : ¬NoPlace cfg t pastEnd m (2 ^ k) := fun hno => by
      rw [hnone.mpr hno] at hs
      cases hs
    have hw1 : Within cfg (F \ {x | o ≤ x ∧ x < o + len}) :=
      ⟨hwithin.device, fun x hx => hwithin.mem x hx.1⟩
    rw [hround hs]
    rcases Nat.lt_or_ge len (n + 1) with hlt | hge
    -- The next rounds look for the rest.
    · obtain ⟨t2, es, hrest, hsub, hrep⟩ :=
        h1.allocateLoop hw1 hcap hu huw pastEnd hpos n (n + 1 - len)
      rw [hrest]
      refine ⟨t2, (o, len) :: es, rfl, .part t2 o len es (hm ▸ hsome) ?_ hlt (hm ▸ hlm) hlen hF ?_
        (h1.allocateLoop_pos hw1 hcap hu huw hpos hrest) ?_⟩
      · rintro ⟨heq, hplace⟩
        rw [hm.trans heq] at hwhole hs
        obtain ⟨o', t', he⟩ := hwhole.mpr hplace
        rw [hs, Single.extent.injEq] at he
        omega
      · rw [bytesOf_singleton]
        exact hsub
      · rw [← diff_bytesOf_cons]
        exact hrep
    · -- All that is wanted is there, so the loop ends.
      obtain rfl : len = m := by omega
      obtain rfl : len = n + 1 := by omega
      refine ⟨t1, [(o, n + 1)], ?_, .whole t1 o hm.symm (hm ▸ hsome) (hwhole.mp ⟨o, t1, hs⟩) hF ?_⟩
      · rw [Nat.sub_self]
        cases n <;> simp [AvlAllocator.allocateLoop]
      · rw [bytesOf_singleton]
        exact h1

end CxxLab.Blk.AvlAllocator
