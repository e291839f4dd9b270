import CxxLab.Blk.AvlRuns

/-!
# The extents that the AVL allocator returns

What a caller of `allocate` gets: extents that were free, do not meet and are aligned multiples of
the unit, and with blocks for units as many bytes as there are. `allocate_exact_iff` says when.
The loop of `_allocate` asks in each round for the smaller of `max_alloc_size` and what is still
wanted. A size that is not a multiple of the unit is taken as it is where a range has room for it,
and `_pick_block_after` reads the start of `rs_start` where that is the end of the tree.
-/

namespace CxxLab.Blk.AvlAllocator

variable {σ : Type} {cfg : AvlConfig σ}

/-! ## Reads behind the last range -/

/-- The second loop of `_pick_block_after`, where `first` is the start of the range at the cursor;
`none` is a read of it when there is no such range. -/
def searchFore (size align : ℕ) (first : Option ℕ) (last : ℕ) : ℕ → List RangeSeg → Option Search
  | count, [] => some (.missed count last)
  | count, r :: rs =>
    if p2roundup r.1 align + size ≤ r.2 then some (.found (p2roundup r.1 align))
    else if maxSearchCount < count + 1 then some .gaveUp
    else first.bind fun f =>
      if maxSearchBytes < (last + (f + negWord r.1)) % wordEnd then some .gaveUp
      else searchFore size align first last (count + 1) rs

/-- `_pick_block_after`, where `none` is a read behind the last range. -/
def pickBlockAfterRead (t : AvlAllocator σ) (cursor size align : ℕ) : Option (Option ℕ) :=
  let fore := t.rangeTree.takeWhile fun r => r.2 ≤ cursor
  let aft := t.rangeTree.dropWhile fun r => r.2 ≤ cursor
  let first := aft.head?.map Prod.fst
  match searchRanges size align (fun r => r.1 - first.getD 0) 0 0 aft with
  | .found offset => some (some offset)
  | .gaveUp => some none
  | .missed count last =>
    if cursor = 0 then some none
    else
      (searchFore size align first last count fore).map fun
        | .found offset => some offset
        | _ => none

/-- All ranges are before the cursor, and the first of them has no room. -/
def BehindAll (t : AvlAllocator σ) (cursor size align : ℕ) : Prop :=
  cursor ≠ 0 ∧ (∀ r ∈ t.rangeTree, r.2 ≤ cursor) ∧
    ∃ r ∈ t.rangeTree.head?, r.2 < p2roundup r.1 align + size

instance (t : AvlAllocator σ) (cursor size align : ℕ) :
    Decidable (t.BehindAll cursor size align) :=
  inferInstanceAs (Decidable (_ ∧ _ ∧ _))

/-- Where there is a range at the cursor, the loop reads its start, and does what the other one
does. -/
theorem searchFore_some (size align f last count last' : ℕ) (l : List RangeSeg) :
    ∃ r, searchFore size align (some f) last count l = some r ∧
      ∀ o, r = .found o ↔ searchRanges size align
        (fun r => (last + (f + negWord r.1)) % wordEnd) count last' l = .found o := by
  induction l generalizing count last' with
  | nil => exact ⟨_, rfl, fun o => by simp [searchRanges]⟩
  | cons r l ih =>
    rw [searchFore, searchRanges, Option.bind_some]
    split_ifs with hfit hcount hbytes
    · exact ⟨_, rfl, fun o => by simp⟩
    · exact ⟨_, rfl, fun o => by simp⟩
    · exact ⟨_, rfl, fun o => by simp⟩
    · exact ih _ _

/-- Where there is none, the first range must have room, or there must be no range. -/
theorem searchFore_none {size align last : ℕ} {l : List RangeSeg} :
    searchFore size align none last 0 l = none ↔
      ∃ r ∈ l.head?, r.2 < p2roundup r.1 align + size := by
  cases l with
  | nil => simp [searchFore]
  | cons r l =>
    have hcount : ¬maxSearchCount < 0 + 1 := by decide
    rw [searchFore, if_neg hcount, Option.bind_none]
    simp

/-- When `_pick_block_after` reads behind the last range. -/
theorem pickBlockAfterRead_eq_none {t : AvlAllocator σ} {cursor size align : ℕ} :
    t.pickBlockAfterRead cursor size align = none ↔ t.BehindAll cursor size align := by
  unfold pickBlockAfterRead BehindAll
  cases haft : t.rangeTree.dropWhile fun r => r.2 ≤ cursor with
  | nil =>
    have hall : ∀ r ∈ t.rangeTree, r.2 ≤ cursor := by
      simpa using List.dropWhile_eq_nil_iff.mp haft
    have hfore : (t.rangeTree.takeWhile fun r => r.2 ≤ cursor) = t.rangeTree :=
      List.takeWhile_eq_self_iff.mpr (by simpa using hall)
    rw [hfore]
    dsimp only [List.head?_nil, Option.map_none]
    by_cases hc : cursor = 0
    · simp [searchRanges, hc]
    · simp only [searchRanges, if_neg hc, Option.map_eq_none_iff, searchFore_none]
      exact ⟨fun h => ⟨hc, hall, h⟩, fun h => h.2.2⟩
  | cons q aft =>
    have hnot : ¬∀ r ∈ t.rangeTree, r.2 ≤ cursor := by
      intro hall
      have hnil : (t.rangeTree.dropWhile fun r => r.2 ≤ cursor) = [] :=
        List.dropWhile_eq_nil_iff.mpr (by simpa using hall)
      rw [hnil] at haft
      cases haft
    refine iff_of_false ?_ fun h => hnot h.2.1
    dsimp only [List.head?_cons, Option.map_some]
    split
    · simp
    · simp
    · rename_i count last _
      split_ifs
      · simp
      · obtain ⟨r, hr, -⟩ := searchFore_some size align q.1 last count 0
          (t.rangeTree.takeWhile fun r => r.2 ≤ cursor)
        rw [hr]
        simp

/-! ## The halving loop -/

/-- The loop of `_allocate_single` that halves the size, stopped after some rounds: `none` is a loop
that has not ended. -/
def halveRounds (t : AvlAllocator σ) (unit : ℕ) : ℕ → ℕ → Option (Option (ℕ × ℕ))
  | 0, _ => none
  | n + 1, size =>
    match t.pickBlockFits size unit with
    | some offset => some (some (offset, size))
    | none =>
      let size := p2align (size / 2) unit
      if unit ≤ size then halveRounds t unit n size else some none

/-- The loop ends after as many rounds as the size has bits. -/
theorem halveRounds_eq (t : AvlAllocator σ) {unit : ℕ} (hu : 0 < unit) {n size : ℕ}
    (hsize : size < 2 ^ n) (hn : 0 < n) :
    t.halveRounds unit n size = some (t.halveUntilFits unit n size) := by
  induction n generalizing size with
  | zero => omega
  | succ n ih =>
    rw [halveRounds, halveUntilFits]
    have hle := p2align_le (size / 2) unit
    have hhalf : size / 2 < 2 ^ n := by
      rw [Nat.pow_succ] at hsize
      omega
    cases t.pickBlockFits size unit with
    | some offset => rfl
    | none =>
      dsimp only
      split_ifs with hunit
      · have hn : 0 < n := by
          refine Nat.pos_of_ne_zero fun h0 => ?_
          rw [h0, pow_zero] at hhalf
          omega
        exact ih (hle.trans_lt hhalf) hn
      · rfl

/-- A size that was halved is a multiple of the unit. -/
theorem halveUntilFits_dvd {t : AvlAllocator σ} {k n size offset got : ℕ} (hk : k < 64)
    (hsize : size < wordEnd) (h : t.halveUntilFits (2 ^ k) n size = some (offset, got)) :
    (got = size ∧ t.pickBlockFits size (2 ^ k) = some offset) ∨ 2 ^ k ∣ got := by
  induction n generalizing size with
  | zero => simp [halveUntilFits] at h
  | succ n ih =>
    rw [halveUntilFits] at h
    cases hpick : t.pickBlockFits size (2 ^ k) with
    | some o =>
      simp only [hpick, Option.some.injEq, Prod.mk.injEq] at h
      exact .inl ⟨h.2.symm, by rw [h.1]⟩
    | none =>
      rw [hpick] at h
      dsimp only at h
      split_ifs at h with hunit
      have hle := p2align_le (size / 2) (2 ^ k)
      rcases ih (by omega) h with ⟨hgot, -⟩ | hdvd
      · right
        rw [hgot]
        exact dvd_p2align hk (by omega)
      · exact .inr hdvd

/-! ## What `_allocate_single` does -/

/-- `max_size` of `_allocate_single`. -/
def maxSize (t : AvlAllocator σ) : ℕ := (t.rangeSizeTree.getLast?.map RangeSeg.len).getD 0

variable (cfg)

/-- The cases in which `_allocate_single` does not look behind a cursor. -/
def Forced (t : AvlAllocator σ) (size : ℕ) : Prop :=
  t.maxSize < size ∨ t.maxSize < rangeSizeAllocThreshold ∨
    (t.numFree * 100) % wordEnd / cfg.deviceSize < rangeSizeAllocFreePct

instance (t : AvlAllocator σ) (size : ℕ) : Decidable (Forced cfg t size) :=
  inferInstanceAs (Decidable (_ ∨ _ ∨ _))

/-- The cursor of the alignment of a size. -/
def cursorOf (t : AvlAllocator σ) (size : ℕ) : ℕ := t.lbas (cbits (size &&& negWord size) - 1)

/-- A search finds a place for the size as it is. -/
def Finds (t : AvlAllocator σ) (pastEnd size unit : ℕ) : Prop :=
  ((pickBlock cfg t pastEnd t.maxSize size unit false).2.map Prod.snd) = some size

instance (t : AvlAllocator σ) (pastEnd size unit : ℕ) : Decidable (Finds cfg t pastEnd size unit) :=
  inferInstanceAs (Decidable (_ = _))

variable {cfg}

/-- Where the largest range is shorter, its aligned part is taken. -/
theorem allocateSingle_of_lt {t : AvlAllocator σ} {pastEnd size unit : ℕ}
    (h : t.maxSize < size) : allocateSingle cfg t pastEnd size unit =
      if t.maxSize < unit then .noSpace
      else if p2align t.maxSize unit = 0 then .abort
      else
        match t.halveUntilFits unit 64 (p2align t.maxSize unit) with
        | none => .noSpace
        | some (offset, got) =>
          match removeFromTree cfg t offset got with
          | none => .abort
          | some t' => .extent offset got t' := by
  unfold allocateSingle
  rw [show (t.rangeSizeTree.getLast?.map RangeSeg.len).getD 0 = t.maxSize from rfl]
  simp only [h, true_and, decide_true, if_true, true_or, not_true, false_and, or_false, pickBlock]
  split_ifs
  · rfl
  · rfl
  · cases t.halveUntilFits unit 64 (p2align t.maxSize unit) <;> rfl

/-- Where it is not, the size is searched for. -/
theorem allocateSingle_of_le {t : AvlAllocator σ} {pastEnd size unit : ℕ}
    (h : size ≤ t.maxSize) : allocateSingle cfg t pastEnd size unit =
      if ¬Forced cfg t size ∧ size &&& negWord size = 0 then .abort
      else
        match pickBlock cfg t pastEnd t.maxSize size unit false with
        | (_, none) => .noSpace
        | (t', some (offset, got)) =>
          match removeFromTree cfg t' offset got with
          | none => .abort
          | some t' => .extent offset got t' := by
  have hlt : ¬t.maxSize < size := not_lt.mpr h
  unfold allocateSingle
  rw [show (t.rangeSizeTree.getLast?.map RangeSeg.len).getD 0 = t.maxSize from rfl]
  simp only [hlt, false_and, if_false, decide_false]
  exact if_congr (by simp [Forced, hlt]) rfl rfl

/-- For a size of zero bytes only the ranges in the order of their lengths count. -/
theorem pickBlock_zero {t : AvlAllocator σ} {unit : ℕ} (hu : 0 < unit) (hforced : Forced cfg t 0)
    (pastEnd : ℕ) : pickBlock cfg t pastEnd t.maxSize 0 unit false =
      (t, (t.pickBlockFits 0 unit).map fun offset => (offset, 0)) := by
  have hstop : ¬unit ≤ p2align (0 / 2) unit := by
    have := p2align_le (0 / 2) unit
    omega
  unfold pickBlock
  rw [if_pos (.inr (hforced.resolve_left (Nat.not_lt_zero _))), halveUntilFits]
  cases t.pickBlockFits 0 unit with
  | some offset => rfl
  | none =>
    dsimp only
    rw [if_neg hstop]
    rfl

/-- Nothing is taken for a size of zero bytes. -/
theorem allocateSingle_zero {t t' : AvlAllocator σ} {pastEnd unit offset got : ℕ}
    (hu : 0 < unit) : allocateSingle cfg t pastEnd 0 unit ≠ .extent offset got t' := by
  rw [allocateSingle_of_le (Nat.zero_le _)]
  split_ifs with hnot
  · simp
  · have hforced : Forced cfg t 0 := not_not.mp fun h => hnot ⟨h, by simp⟩
    rw [pickBlock_zero hu hforced]
    cases t.pickBlockFits 0 unit with
    | none => simp
    | some o =>
      have hrm : removeFromTree cfg t o 0 = none := if_pos rfl
      simp [hrm]

/-- It is refused when it is not found. -/
theorem allocateSingle_zero_noSpace {t : AvlAllocator σ} {pastEnd unit : ℕ} (hu : 0 < unit)
    (hforced : Forced cfg t 0) (hfinds : ¬Finds cfg t pastEnd 0 unit) :
    allocateSingle cfg t pastEnd 0 unit = .noSpace := by
  unfold Finds at hfinds
  rw [pickBlock_zero hu hforced] at hfinds
  rw [allocateSingle_of_le (Nat.zero_le _), if_neg (fun hc => hc.1 hforced),
    pickBlock_zero hu hforced]
  cases hpick : t.pickBlockFits 0 unit with
  | none => rfl
  | some o =>
    rw [hpick] at hfinds
    exact absurd rfl hfinds

/-- The place is the size itself, or was rounded. -/
theorem pickBlock_dvd {t t' : AvlAllocator σ} {pastEnd maxSize size k offset got : ℕ}
    {force : Bool} (hk : k < 64) (hsize : size < wordEnd)
    (h : pickBlock cfg t pastEnd maxSize size (2 ^ k) force = (t', some (offset, got))) :
    got = size ∨ 2 ^ k ∣ got := by
  unfold pickBlock at h
  dsimp only at h
  split_ifs at h
  · simp only [Prod.mk.injEq] at h
    exact (halveUntilFits_dvd hk hsize h.2).imp And.left id
  · split at h
    · simp only [Prod.mk.injEq, Option.some.injEq] at h
      exact .inl h.2.2.symm
    · simp only [Prod.mk.injEq] at h
      exact (halveUntilFits_dvd hk hsize h.2).imp And.left id

/-- `max_size` is a word. -/
theorem Rep.maxSize_lt {F : Set ℕ} {t : AvlAllocator σ} (h : Rep F t) (hw : Within cfg F) :
    t.maxSize < wordEnd := by
  have hd := hw.device
  have hwe : wordEnd = 0x10000000000000000 := rfl
  unfold maxSize
  cases hl : t.rangeSizeTree.getLast? with
  | none =>
    rw [hwe]
    decide
  | some r =>
    have hr := h.le_device hw (h.sized.perm.mem_iff.mp (List.mem_of_getLast? hl))
    change r.2 - r.1 < wordEnd
    omega

/-- What fits begins at a multiple of the unit. -/
theorem Rep.dvd_of_fitsAt {F : Set ℕ} {t : AvlAllocator σ} (h : Rep F t) (hw : Within cfg F)
    {k offset got : ℕ} (hk : k < 64) (hfit : FitsAt t.rangeTree (2 ^ k) offset got) :
    2 ^ k ∣ offset := by
  obtain ⟨r, hr, rfl, -⟩ := hfit
  have hin := h.le_device hw hr
  have hd := hw.device
  exact dvd_p2roundup hk (by omega)

/-- An extent begins at a multiple of the unit. Its length is one as well, or the size that was
asked for was found. -/
theorem Rep.allocateSingle_dvd {F : Set ℕ} {t : AvlAllocator σ} (h : Rep F t) (hw : Within cfg F)
    {k : ℕ} (hk : k < 64) {pastEnd size offset got : ℕ} (hsize : 0 < size) {t' : AvlAllocator σ}
    (he : AvlAllocator.allocateSingle cfg t pastEnd size (2 ^ k) = .extent offset got t') :
    2 ^ k ∣ offset ∧
      (2 ^ k ∣ got ∨ got = size ∧ size ≤ t.maxSize ∧ Finds cfg t pastEnd size (2 ^ k)) := by
  have hmax := h.maxSize_lt hw
  -- The size is cut down to the largest range, or it is looked for as it is.
  rcases Nat.lt_or_ge t.maxSize size with hlt | hle
  · rw [allocateSingle_of_lt hlt] at he
    split_ifs at he with hunit hzero
    cases hhalve : t.halveUntilFits (2 ^ k) 64 (p2align t.maxSize (2 ^ k)) with
    | none =>
      rw [hhalve] at he
      cases he
    | some p =>
      obtain ⟨o, g⟩ := p
      rw [hhalve] at he
      dsimp only at he
      cases hrm : AvlAllocator.removeFromTree cfg t o g with
      | none =>
        rw [hrm] at he
        cases he
      | some t1 =>
        rw [hrm] at he
        cases he
        have hpa : p2align t.maxSize (2 ^ k) < wordEnd :=
          (p2align_le t.maxSize (2 ^ k)).trans_lt hmax
        obtain ⟨hfit, -⟩ :=
          halveUntilFits_fitsAt (Nat.two_pow_pos k) (Nat.pos_of_ne_zero hzero) hhalve
        refine ⟨h.dvd_of_fitsAt hw hk (hfit.mono fun r hr => h.sized.perm.mem_iff.mp hr), .inl ?_⟩
        rcases halveUntilFits_dvd hk hpa hhalve with ⟨rfl, -⟩ | hdvd
        · exact dvd_p2align hk hmax
        · exact hdvd
  · rw [allocateSingle_of_le hle] at he
    split_ifs at he with habort
    cases hpick : AvlAllocator.pickBlock cfg t pastEnd t.maxSize size (2 ^ k) false with
    | mk t0 p =>
      rw [hpick] at he
      cases p with
      | none => cases he
      | some p =>
        obtain ⟨o, g⟩ := p
        dsimp only at he
        cases hrm : AvlAllocator.removeFromTree cfg t0 o g with
        | none =>
          rw [hrm] at he
          cases he
        | some t1 =>
          rw [hrm] at he
          cases he
          obtain ⟨-, -, hfit, -⟩ := pickBlock_fitsAt h (Nat.two_pow_pos k) hsize hpick
          refine ⟨h.dvd_of_fitsAt hw hk hfit, ?_⟩
          rcases pickBlock_dvd hk (hle.trans_lt hmax) hpick with rfl | hdvd
          · exact .inr ⟨rfl, hle, by unfold Finds; rw [hpick]; rfl⟩
          · exact .inl hdvd

/-- Where a search finds the size, it is not refused. -/
theorem allocateSingle_ne_noSpace {t : AvlAllocator σ} {pastEnd size unit : ℕ}
    (hle : size ≤ t.maxSize) (hfinds : Finds cfg t pastEnd size unit) :
    allocateSingle cfg t pastEnd size unit ≠ .noSpace := by
  unfold Finds at hfinds
  rw [allocateSingle_of_le hle]
  split_ifs
  · simp
  · cases hpick : pickBlock cfg t pastEnd t.maxSize size unit false with
    | mk t0 p =>
      rw [hpick] at hfinds
      cases p with
      | none => cases hfinds
      | some p =>
        dsimp only
        cases removeFromTree cfg t0 p.1 p.2 <;> simp

/-- Where it takes an extent, that is as long. -/
theorem extent_of_finds {t t' : AvlAllocator σ} {pastEnd size unit offset got : ℕ}
    (hle : size ≤ t.maxSize) (hfinds : Finds cfg t pastEnd size unit)
    (h : allocateSingle cfg t pastEnd size unit = .extent offset got t') : got = size := by
  unfold Finds at hfinds
  rw [allocateSingle_of_le hle] at h
  split_ifs at h
  cases hpick : pickBlock cfg t pastEnd t.maxSize size unit false with
  | mk t0 p =>
    rw [hpick] at hfinds h
    cases p with
    | none => cases hfinds
    | some p =>
      dsimp only at h
      cases hrm : removeFromTree cfg t0 p.1 p.2 with
      | none =>
        rw [hrm] at h
        cases h
      | some t1 =>
        rw [hrm] at h
        cases h
        exact Option.some.inj hfinds

/-! ## Whole blocks -/

/-- `max_size` is the length of a range. -/
theorem Rep.exists_largest {F : Set ℕ} {t : AvlAllocator σ} (h : Rep F t)
    (hne : t.rangeTree ≠ []) :
    ∃ q ∈ t.rangeTree, q ∈ t.rangeSizeTree ∧ t.maxSize = q.2 - q.1 := by
  have hsne : t.rangeSizeTree ≠ [] := fun hnil => by
    have hlen := h.sized.perm.length_eq
    rw [hnil] at hlen
    exact hne (List.length_eq_zero_iff.mp hlen.symm)
  obtain ⟨q, hq⟩ : ∃ q, t.rangeSizeTree.getLast? = some q :=
    ⟨_, List.getLast?_eq_some_getLast hsne⟩
  have hmem := List.mem_of_getLast? hq
  refine ⟨q, h.sized.perm.mem_iff.mp hmem, hmem, ?_⟩
  unfold maxSize
  rw [hq]
  rfl

/-- The shortest range that is long enough fits, where ranges are aligned. -/
theorem Rep.pickBlockFits_isSome {F : Set ℕ} {t : AvlAllocator σ} (h : Rep F t)
    (hw : Within cfg F) {k : ℕ} (hk : k < 64) (hF : UnionOfBlocks (2 ^ k) F)
    (hne : t.rangeTree ≠ []) {size : ℕ} (hle : size ≤ t.maxSize) :
    (t.pickBlockFits size (2 ^ k)).isSome := by
  obtain ⟨q, -, hq, hmax⟩ := h.exists_largest hne
  have hlong : ¬q.shorter (0, size) = true := by
    rw [shorter_iff]
    change ¬(q.2 - q.1 < size - 0 ∨ q.2 - q.1 = size - 0 ∧ q.1 < 0)
    omega
  unfold pickBlockFits
  cases hdrop : t.rangeSizeTree.dropWhile fun r => r.shorter (0, size) with
  | nil =>
    exact absurd (List.dropWhile_eq_nil_iff.mp hdrop q hq) hlong
  | cons r rs =>
    have hmem : r ∈ t.rangeTree := by
      have hsub := List.dropWhile_sublist (fun r : RangeSeg => r.shorter (0, size))
        (l := t.rangeSizeTree)
      rw [hdrop] at hsub
      exact h.sized.perm.mem_iff.mp (hsub.subset List.mem_cons_self)
    have hr : ¬r.shorter (0, size) = true := by
      have hhead := List.head?_dropWhile_not (fun r : RangeSeg => r.shorter (0, size))
        t.rangeSizeTree
      rw [hdrop] at hhead
      simpa using hhead
    obtain ⟨hne, hdev⟩ := h.le_device hw hmem
    have hd := hw.device
    have hfit : p2roundup r.1 (2 ^ k) + size ≤ r.2 := by
      rw [p2roundup_of_dvd hk (by omega) (hF.dvd h.runs hmem).1]
      rw [shorter_iff] at hr
      change ¬(r.2 - r.1 < size - 0 ∨ _) at hr
      omega
    rw [searchFits, if_neg (by decide), if_pos hfit]
    rfl

/-- So a size that is not longer than the largest range is found. -/
theorem Rep.finds {F : Set ℕ} {t : AvlAllocator σ} (h : Rep F t) (hw : Within cfg F) {k : ℕ}
    (hk : k < 64) (hF : UnionOfBlocks (2 ^ k) F) (hne : t.rangeTree ≠ []) {size : ℕ}
    (hle : size ≤ t.maxSize) (pastEnd : ℕ) : Finds cfg t pastEnd size (2 ^ k) := by
  obtain ⟨o, ho⟩ := Option.isSome_iff_exists.mp (h.pickBlockFits_isSome hw hk hF hne hle)
  have hhalve : t.halveUntilFits (2 ^ k) 64 size = some (o, size) := by
    rw [halveUntilFits, ho]
  unfold Finds AvlAllocator.pickBlock
  rw [hhalve]
  dsimp only
  split
  · rfl
  · split <;> rfl

/-- Where there is a whole block, there is an extent, whatever is asked for. -/
theorem Rep.allocateSingle_ne_noSpace {F : Set ℕ} {t : AvlAllocator σ} (h : Rep F t)
    (hw : Within cfg F) {k : ℕ} (hk : k < 64) (hF : UnionOfBlocks (2 ^ k) F)
    (hne : t.rangeTree ≠ []) (pastEnd size : ℕ) :
    AvlAllocator.allocateSingle cfg t pastEnd size (2 ^ k) ≠ .noSpace := by
  rcases Nat.lt_or_ge t.maxSize size with hlt | hle
  · obtain ⟨q, hmem, -, hmax⟩ := h.exists_largest hne
    obtain ⟨⟨c, hc⟩, d, hd⟩ := hF.dvd h.runs hmem
    have hqne := h.runs.nonempty q hmem
    have hge : ¬t.maxSize < 2 ^ k := by
      have hcd : c < d := by
        refine lt_of_not_ge fun hge => ?_
        have := Nat.mul_le_mul_left (2 ^ k) hge
        omega
      have hstep := Nat.mul_le_mul_left (2 ^ k) hcd
      rw [Nat.succ_eq_add_one, Nat.mul_add] at hstep
      omega
    have hsome := h.pickBlockFits_isSome hw hk hF hne (p2align_le t.maxSize (2 ^ k))
    obtain ⟨o, ho⟩ := Option.isSome_iff_exists.mp hsome
    have hhalve : t.halveUntilFits (2 ^ k) 64 (p2align t.maxSize (2 ^ k)) =
        some (o, p2align t.maxSize (2 ^ k)) := by
      rw [halveUntilFits, ho]
    rw [allocateSingle_of_lt hlt, if_neg hge, hhalve]
    split_ifs
    · simp
    · dsimp only
      cases AvlAllocator.removeFromTree cfg t o (p2align t.maxSize (2 ^ k)) <;> simp
  · exact AvlAllocator.allocateSingle_ne_noSpace hle (h.finds hw hk hF hne hle pastEnd)

/-! ## The rounds of `_allocate` -/

variable (cfg)

/-- A round of the loop, from an allocator and what is still wanted. -/
def round (pastEnd unit maxAllocSize : ℕ) (s : AvlAllocator σ × ℕ) (_ : Unit) :
    Option (AvlAllocator σ × ℕ) :=
  if s.2 = 0 then none
  else
    match allocateSingle cfg s.1 pastEnd (min maxAllocSize s.2) unit with
    | .extent _ length t => some (t, s.2 - length)
    | _ => none

/-- A round that does not read behind the last range. -/
def RoundReads (unit maxAllocSize : ℕ) (s : AvlAllocator σ × ℕ) (_ : Unit) : Prop :=
  let size := min maxAllocSize s.2
  s.2 = 0 ∨ Forced cfg s.1 size ∨
    (s.1.pickBlockAfterRead (s.1.cursorOf size) size unit).isSome = true

instance (unit maxAllocSize : ℕ) (s : AvlAllocator σ × ℕ) (u : Unit) :
    Decidable (RoundReads cfg unit maxAllocSize s u) := by
  unfold RoundReads
  infer_instance

/-- A round that asks for a multiple of the unit, for more than the largest range has, or for a size
that is not found; and the cursor that it uses, if any, is not behind all ranges with no room in the
first. -/
def RoundOk (pastEnd unit maxAllocSize : ℕ) (s : AvlAllocator σ × ℕ) (_ : Unit) : Prop :=
  let size := min maxAllocSize s.2
  s.2 = 0 ∨
    (0 < size ∧ unit ∣ size ∨ s.1.maxSize < size ∨
      ¬Finds cfg s.1 pastEnd size unit ∧ (size = 0 → Forced cfg s.1 size)) ∧
    (Forced cfg s.1 size ∨ ¬s.1.BehindAll (s.1.cursorOf size) size unit)

instance (pastEnd unit maxAllocSize : ℕ) (s : AvlAllocator σ × ℕ) (u : Unit) :
    Decidable (RoundOk cfg pastEnd unit maxAllocSize s u) := by
  unfold RoundOk
  infer_instance

/-- The rounds of a call. -/
def rounds (want : ℕ) : List Unit := List.replicate want ()

variable {cfg}

/-- What is returned for free bytes `F`: extents that are free, do not meet, begin at multiples of
the unit, are multiples of it and not too long; they and nothing else leave the free bytes. -/
structure Takes (F : Set ℕ) (unit limit : ℕ) (t' : AvlAllocator σ) (es : List (ℕ × ℕ)) : Prop where
  /-- They were free. -/
  free : bytesOf es ⊆ F
  /-- No two of them meet. -/
  disjoint : es.Pairwise fun e e' => ∀ x, ¬(x ∈ bytesOf [e] ∧ x ∈ bytesOf [e'])
  /-- They are aligned. -/
  aligned : ∀ e ∈ es, unit ∣ e.1 ∧ unit ∣ e.2
  /-- They are not empty, and not too long. -/
  bounded : ∀ e ∈ es, 0 < e.2 ∧ e.2 ≤ limit
  /-- What is left is what is free. -/
  left : Rep (F \ bytesOf es) t'

/-- No extents. -/
theorem takes_nil {F : Set ℕ} {t : AvlAllocator σ} (h : Rep F t) (unit limit : ℕ) :
    Takes F unit limit t [] where
  free := by simp [bytesOf]
  disjoint := List.Pairwise.nil
  aligned := by simp
  bounded := by simp
  left := by simpa [bytesOf] using h

/-- An extent, and then others. -/
theorem Takes.cons {F : Set ℕ} {unit limit o n : ℕ} {t' : AvlAllocator σ} {es : List (ℕ × ℕ)}
    (hF : ∀ x, o ≤ x → x < o + n → x ∈ F) (ho : unit ∣ o) (hn : unit ∣ n) (hpos : 0 < n)
    (hle : n ≤ limit) (h : Takes (F \ {x | o ≤ x ∧ x < o + n}) unit limit t' es) :
    Takes F unit limit t' ((o, n) :: es) where
  free := by
    rintro x ⟨e, he, hx⟩
    rcases List.mem_cons.mp he with rfl | he
    · exact hF x hx.1 hx.2
    · exact (h.free ⟨e, he, hx⟩).1
  disjoint := by
    refine List.pairwise_cons.mpr ⟨fun e he x hx => ?_, h.disjoint⟩
    rw [bytesOf_singleton] at hx
    obtain ⟨q, hq, hxq⟩ := hx.2
    rw [List.mem_singleton.mp hq] at hxq
    exact (h.free ⟨e, he, hxq⟩).2 hx.1
  aligned e he := by
    rcases List.mem_cons.mp he with rfl | he
    · exact ⟨ho, hn⟩
    · exact h.aligned e he
  bounded e he := by
    rcases List.mem_cons.mp he with rfl | he
    · exact ⟨hpos, hle⟩
    · exact h.bounded e he
  left := by
    rw [← diff_bytesOf_cons]
    exact h.left

/-- `allocated`: the lengths of the extents. -/
def total (es : List (ℕ × ℕ)) : ℕ := (es.map Prod.snd).sum

/-- The bytes that are left. -/
theorem ncard_diff {F : Set ℕ} (hfin : F.Finite) {o n : ℕ}
    (hF : ∀ x, o ≤ x → x < o + n → x ∈ F) :
    (F \ {x | o ≤ x ∧ x < o + n}).ncard + n = F.ncard := by
  have heq : {x | o ≤ x ∧ x < o + n} = (Finset.Ico o (o + n) : Set ℕ) := by
    ext x
    simp
  have hcard : ({x | o ≤ x ∧ x < o + n} : Set ℕ).ncard = n := by
    rw [heq, Set.ncard_coe_finset, Nat.card_Ico, Nat.add_sub_cancel_left]
  have hsub : {x | o ≤ x ∧ x < o + n} ⊆ F := fun x hx => hF x hx.1 hx.2
  calc (F \ {x | o ≤ x ∧ x < o + n}).ncard + n
      = (F \ {x | o ≤ x ∧ x < o + n}).ncard + ({x | o ≤ x ∧ x < o + n} : Set ℕ).ncard := by
        rw [hcard]
    _ = F.ncard := Set.ncard_sdiff_add_ncard_of_subset hsub hfin

/-- In rounds that meet the condition no assertion fails, and the extents are as they should be.
Where the free bytes are blocks of one unit, they are as many bytes as were wanted, or all. -/
theorem Rep.takes {F : Set ℕ} {t : AvlAllocator σ} (h : Rep F t) (hw : Within cfg F)
    (hcap : cfg.rangeCountCap = 0) {unit : ℕ} (hu : isp2 unit = true) (huw : unit < wordEnd)
    {pastEnd maxAllocSize n rest : ℕ} (hn : rest ≤ n)
    (hm : Runs.Meets (round cfg pastEnd unit maxAllocSize) (RoundOk cfg pastEnd unit maxAllocSize)
      (t, rest) (rounds n)) :
    ∃ t' es, AvlAllocator.allocateLoop cfg pastEnd unit maxAllocSize n rest t = some (t', es) ∧
      Takes F unit maxAllocSize t' es ∧ total es ≤ rest ∧ total es ≤ F.ncard ∧
      (UnionOfBlocks unit F → total es = min rest F.ncard) := by
  obtain ⟨-, -, k, rfl⟩ := unit_le hu huw
  have hk : k < 64 := by
    rw [wordEnd_eq] at huw
    exact (Nat.pow_lt_pow_iff_right (by norm_num)).mp huw
  induction n generalizing F t rest with
  | zero =>
    obtain rfl : rest = 0 := by omega
    exact ⟨t, [], rfl, takes_nil h _ _, le_rfl, Nat.zero_le _,
      fun _ => (Nat.zero_min _).symm⟩
  | succ n ih =>
    rw [AvlAllocator.allocateLoop]
    by_cases hrest : rest = 0
    · rw [if_pos hrest, hrest]
      exact ⟨t, [], rfl, takes_nil h _ _, le_rfl, Nat.zero_le _,
      fun _ => (Nat.zero_min _).symm⟩
    rw [if_neg hrest]
    obtain ⟨hok, hnext⟩ := hm
    obtain ⟨hsize, -⟩ := hok.resolve_left hrest
    dsimp only at hsize
    obtain ⟨size, hsz⟩ : ∃ size, size = min maxAllocSize rest := ⟨_, rfl⟩
    rw [← hsz] at hsize ⊢
    have hfin : F.Finite := (Set.finite_Iio cfg.deviceSize).subset fun x hx => hw.mem x hx
    -- Where there are blocks, none of them is left when nothing is found.
    have hnone : AvlAllocator.allocateSingle cfg t pastEnd size (2 ^ k) = .noSpace →
        UnionOfBlocks (2 ^ k) F → total [] = min rest F.ncard := by
      intro hno hF
      have hnil : t.rangeTree = [] := by
        by_contra hne
        exact h.allocateSingle_ne_noSpace hw hk hF hne pastEnd size hno
      have hempty : F = ∅ := by
        ext x
        rw [h.runs.mem, hnil]
        simp
      rw [hempty, Set.ncard_empty, Nat.min_zero]
      rfl
    rcases Nat.eq_zero_or_pos size with h0 | hpos
    · -- A size of zero bytes that is not found.
      have hno : AvlAllocator.allocateSingle cfg t pastEnd size (2 ^ k) = .noSpace := by
        obtain ⟨hfinds, hforced⟩ : ¬Finds cfg t pastEnd size (2 ^ k) ∧
            (size = 0 → Forced cfg t size) := by
          rcases hsize with hsize | hsize | hsize
          · omega
          · omega
          · exact hsize
        have hf := hforced h0
        rw [h0] at hfinds hf ⊢
        exact allocateSingle_zero_noSpace (Nat.two_pow_pos k) hf hfinds
      rw [hno]
      exact ⟨t, [], rfl, takes_nil h _ _, Nat.zero_le _, Nat.zero_le _, hnone hno⟩
    · rcases h.allocateSingle hw hcap hu huw pastEnd hpos with
        hno | ⟨o, len, t1, hs, hlen, hle, hF, h1⟩
      · rw [hno]
        exact ⟨t, [], rfl, takes_nil h _ _, Nat.zero_le _, Nat.zero_le _, hnone hno⟩
      -- A range is taken, and the rest is asked for in the next round.
      · obtain ⟨hdo, hdl⟩ := h.allocateSingle_dvd hw hk hpos hs
        have hdlen : 2 ^ k ∣ len := by
          -- Its length is a multiple of the block: the condition rules the other case out.
          rcases hdl with hdl | ⟨rfl, hmax, hfinds⟩
          · exact hdl
          · rcases hsize with hsize | hsize | hsize
            · exact hsize.2
            · omega
            · exact absurd hfinds hsize.1
        have hw1 : Within cfg (F \ {x | o ≤ x ∧ x < o + len}) :=
          ⟨hw.device, fun x hx => hw.mem x hx.1⟩
        have hstep : round cfg pastEnd (2 ^ k) maxAllocSize (t, rest) () =
            some (t1, rest - len) := by
          unfold round
          dsimp only
          rw [if_neg hrest, ← hsz, hs]
        obtain ⟨t2, es, hloop, htakes, htot, hle', hblocks⟩ := ih h1 hw1 (by omega) (hnext _ hstep)
        rw [hs]
        dsimp only
        have htotal : total ((o, len) :: es) = len + total es := List.sum_cons
        have hcard := ncard_diff hfin hF
        refine ⟨t2, (o, len) :: es, by rw [hloop]; rfl,
          htakes.cons hF hdo hdlen hlen (by omega), by omega, by omega, fun hU => ?_⟩
        rw [htotal, hblocks (hU.diff hdo hdlen)]
        omega

/-- Rounds that meet the condition do not read behind the last range. -/
theorem roundReads_of_ok {pastEnd unit maxAllocSize : ℕ} {s : AvlAllocator σ × ℕ} {u : Unit}
    (h : RoundOk cfg pastEnd unit maxAllocSize s u) : RoundReads cfg unit maxAllocSize s u := by
  rcases h with h0 | ⟨-, hf | hb⟩
  · exact .inl h0
  · exact .inr (.inl hf)
  · refine .inr (.inr ?_)
    rw [← pickBlockAfterRead_eq_none] at hb
    exact Option.ne_none_iff_isSome.mp hb

/-- Where no assertion fails, nothing behind the last range is read and lengths are multiples of
the unit, all rounds meet the condition. -/
theorem rounds_ok {t : AvlAllocator σ} {unit : ℕ} (hu : 0 < unit)
    {pastEnd maxAllocSize n rest : ℕ} {out : AvlAllocator σ × List (ℕ × ℕ)}
    (ho : allocateLoop cfg pastEnd unit maxAllocSize n rest t = some out)
    (hdvd : ∀ e ∈ out.2, unit ∣ e.2)
    (hr : Runs.Meets (round cfg pastEnd unit maxAllocSize) (RoundReads cfg unit maxAllocSize)
      (t, rest) (rounds n)) :
    Runs.Meets (round cfg pastEnd unit maxAllocSize) (RoundOk cfg pastEnd unit maxAllocSize)
      (t, rest) (rounds n) := by
  induction n generalizing t rest out with
  | zero => trivial
  | succ n ih =>
    by_cases hrest : rest = 0
    · refine ⟨.inl hrest, fun s' hs' => ?_⟩
      unfold round at hs'
      rw [if_pos hrest] at hs'
      cases hs'
    rw [allocateLoop, if_neg hrest] at ho
    obtain ⟨hread, hnext⟩ := hr
    obtain ⟨size, hsz⟩ : ∃ size, size = min maxAllocSize rest := ⟨_, rfl⟩
    -- A round that does not read behind the last range has a cursor that finds, or is forced.
    have hcursor : Forced cfg t size ∨ ¬t.BehindAll (t.cursorOf size) size unit := by
      rw [hsz]
      rcases hread.resolve_left hrest with hf | hsome
      · exact .inl hf
      · refine .inr ?_
        rw [← pickBlockAfterRead_eq_none]
        exact Option.ne_none_iff_isSome.mpr hsome
    rw [← hsz] at ho
    -- What a size of zero bytes can come to.
    have hzero : allocateSingle cfg t pastEnd size unit ≠ .abort → size = 0 →
        Forced cfg t size := by
      intro hne h0
      by_contra hf
      refine hne ?_
      rw [h0] at hf ⊢
      rw [allocateSingle_of_le (Nat.zero_le _), if_pos ⟨hf, by simp⟩]
    -- The three ways in which a round meets the condition.
    have hok : (0 < size ∧ unit ∣ size ∨ t.maxSize < size ∨
        ¬Finds cfg t pastEnd size unit ∧ (size = 0 → Forced cfg t size)) →
        RoundOk cfg pastEnd unit maxAllocSize (t, rest) () := by
      intro h
      refine .inr ?_
      dsimp only
      rw [← hsz]
      exact ⟨h, hcursor⟩
    cases hs : allocateSingle cfg t pastEnd size unit with
    | abort =>
      rw [hs] at ho
      cases ho
    | noSpace =>
      constructor
      -- Nothing was found: the size is too long for every range, or the search came to nothing.
      · refine hok ?_
        rcases Nat.lt_or_ge t.maxSize size with hlt | hle
        · exact .inr (.inl hlt)
        · refine .inr (.inr ⟨fun hf => ?_, hzero (by rw [hs]; simp)⟩)
          exact allocateSingle_ne_noSpace hle hf hs
      -- And no round follows.
      · intro s' hs'
        unfold round at hs'
        rw [if_neg hrest, ← hsz, hs] at hs'
        cases hs'
    | extent o len t1 =>
      rw [hs] at ho
      obtain ⟨p, hp, rfl⟩ := Option.map_eq_some_iff.mp ho
      have hlen : unit ∣ len := hdvd (o, len) List.mem_cons_self
      constructor
      · refine hok ?_
        rcases Nat.lt_or_ge t.maxSize size with hlt | hle
        · exact .inr (.inl hlt)
        · by_cases hf : Finds cfg t pastEnd size unit
          · -- The size was found, so it is the length.
            have hgot := extent_of_finds hle hf hs
            have hpos : 0 < size := by
              refine Nat.pos_of_ne_zero fun h0 => ?_
              rw [h0] at hs
              exact allocateSingle_zero hu hs
            exact .inl ⟨hpos, hgot ▸ hlen⟩
          · exact .inr (.inr ⟨hf, hzero (by rw [hs]; simp)⟩)
      · intro s' hs'
        have hstep : round cfg pastEnd unit maxAllocSize (t, rest) () = some (t1, rest - len) := by
          unfold round
          dsimp only
          rw [if_neg hrest, ← hsz, hs]
        rw [hstep, Option.some.injEq] at hs'
        subst hs'
        exact ih hp (fun e he => hdvd e (List.mem_cons_of_mem _ he)) (hnext _ hstep)

/-! ## Calls -/

/-- What `allocate` returns for its extents. -/
def allocateReturn (es : List (ℕ × ℕ)) : ℤ :=
  let allocated := total es % wordEnd
  if allocated = 0 then -28 else Int.bmod allocated wordEnd

/-- Of no bytes at a time, nothing is taken. -/
theorem allocateLoop_zero {t : AvlAllocator σ} {pastEnd unit n rest : ℕ} (hu : 0 < unit)
    {out : AvlAllocator σ × List (ℕ × ℕ)}
    (h : allocateLoop cfg pastEnd unit 0 n rest t = some out) : out = (t, []) := by
  cases n with
  | zero => exact (Option.some.inj h).symm
  | succ n =>
    rw [allocateLoop, Nat.zero_min] at h
    split_ifs at h with hrest
    · exact (Option.some.inj h).symm
    · cases hs : allocateSingle cfg t pastEnd 0 unit with
      | abort =>
        rw [hs] at h
        cases h
      | noSpace =>
        rw [hs] at h
        exact (Option.some.inj h).symm
      | extent o len t1 => exact absurd hs (allocateSingle_zero hu)

/-- A call that goes through keeps what the allocator represents. -/
theorem Stands.call {deviceSize blockSize : ℕ} (hb : blockSize < wordEnd) {s s' : Modelled}
    (h : Stands (.plain deviceSize blockSize) s) {c : Call}
    (hc : c.Allowed (.plain deviceSize blockSize) s.free)
    (hs : AvlAllocator.call (.plain deviceSize blockSize) s c = some s') :
    Stands (.plain deviceSize blockSize) s' := by
  have hleft : c.ExtentLeft (.plain deviceSize blockSize) →
      Stands (.plain deviceSize blockSize) s' := by
    intro hx
    obtain ⟨s'', hs'', hstands⟩ := stands_call hb h hc hx
    rw [hs, Option.some.injEq] at hs''
    exact hs'' ▸ hstands
  cases c with
  | initAddFree offset length => exact hleft trivial
  | initRmFree offset length => exact hleft trivial
  | release rs => exact hleft trivial
  | allocate pastEnd want unit maxAllocSize =>
    obtain ⟨-, huw, -, hu, hmul⟩ := hc
    obtain ⟨hu0, -⟩ := unit_le hu huw
    simp only [AvlAllocator.call, allocate, if_pos (And.intro hu hmul)] at hs
    obtain ⟨out, hout, rfl⟩ := Option.map_eq_some_iff.mp hs
    rcases Nat.eq_zero_or_pos (maxExtent (.plain deviceSize blockSize) want maxAllocSize) with
      h0 | hpos
    · rw [h0] at hout
      rw [allocateLoop_zero hu0 hout]
      simpa [bytesOf] using h
    · obtain ⟨t', es, ht', -, hrep⟩ :=
        h.rep.allocateLoop h.within rfl hu huw pastEnd hpos want want
      rw [hout, Option.some.injEq] at ht'
      rw [ht']
      exact ⟨hrep, h.within.device, fun x hx => h.within.mem x hx.1⟩

/-- What a call of `allocate` should come to. -/
structure Exact (cfg : AvlConfig σ) (F : Set ℕ) (want unit maxAllocSize : ℕ)
    (t' : AvlAllocator σ) (es : List (ℕ × ℕ)) : Prop where
  /-- The extents, and what is left. -/
  takes : Takes F unit (if maxAllocSize = 0 then want else maxAllocSize) t' es
  /-- The value returned is their total, or tells that there are none. -/
  value : allocateReturn es = if es = [] then -28 else (total es : ℤ)
  /-- With blocks for units, they are what was wanted, or all that is free. -/
  all : unit = cfg.blockSize → total es = min want F.ncard

/-- The largest extent is not larger than was asked for. -/
theorem maxExtent_le (want maxAllocSize : ℕ) :
    maxExtent cfg want maxAllocSize ≤ if maxAllocSize = 0 then want else maxAllocSize := by
  obtain ⟨m, hm⟩ : ∃ m, m = if maxAllocSize = 0 then want else maxAllocSize := ⟨_, rfl⟩
  unfold maxExtent
  rw [← hm]
  dsimp only
  split_ifs with hcap
  · exact (p2align_le _ _).trans hcap
  · exact le_rfl

/-- The value returned for extents that are not empty. -/
theorem allocateReturn_eq {es : List (ℕ × ℕ)} (hpos : ∀ e ∈ es, 0 < e.2)
    (hlt : total es < 0x8000000000000000) :
    allocateReturn es = if es = [] then -28 else (total es : ℤ) := by
  have hmod : total es % wordEnd = total es := Nat.mod_eq_of_lt (hlt.trans (by decide))
  unfold allocateReturn
  rw [hmod]
  cases es with
  | nil => rfl
  | cons e es =>
    have htotal : total (e :: es) = e.2 + total es := List.sum_cons
    have he := hpos e List.mem_cons_self
    rw [if_neg (List.cons_ne_nil e es)]
    dsimp only
    rw [if_neg (by omega), Int.bmod_def]
    unfold wordEnd
    omega

/-- In every state that calls reach, and for every call of `allocate`: the loop that halves the size
ends; and no assertion fails, nothing behind the last range is read and the extents are as they
should be, exactly when all rounds of the call meet the condition. -/
theorem allocate_exact_iff {deviceSize blockSize : ℕ} (hd : deviceSize < 0x8000000000000000)
    (hb : blockSize < wordEnd) (calls : List Call) (s : Modelled)
    (hcalls : Runs.Meets (call (.plain deviceSize blockSize))
      (fun s c => c.Allowed (.plain deviceSize blockSize) s.free) .init calls)
    (hs : Runs.exec (call (.plain deviceSize blockSize)) .init calls = some s)
    (hblocks : ∀ r ∈ s.trees.rangeTree, blockSize ∣ r.1 ∧ blockSize ∣ r.2)
    (pastEnd want unit maxAllocSize : ℕ)
    (hc : (Call.allocate pastEnd want unit maxAllocSize).Allowed (.plain deviceSize blockSize)
      s.free) :
    let cfg := AvlConfig.plain deviceSize blockSize
    let m := maxExtent cfg want maxAllocSize
    (∀ (t : AvlAllocator Unit) (size : ℕ), size < wordEnd →
      t.halveRounds unit 64 size = some (t.halveUntilFits unit 64 size)) ∧
    ((∃ t' es, allocate cfg s.trees pastEnd want unit maxAllocSize = some (t', es) ∧
        Exact cfg s.free want unit maxAllocSize t' es ∧
        Runs.Meets (round cfg pastEnd unit m) (RoundReads cfg unit m) (s.trees, want)
          (rounds want)) ↔
      Runs.Meets (round cfg pastEnd unit m) (RoundOk cfg pastEnd unit m) (s.trees, want)
        (rounds want)) := by
  intro cfg m
  -- The call is the rounds of the loop, from a state that stands.
  have hstands : Stands cfg s := by
    refine Runs.exec_invariant (fun s c s' h hok hs => Stands.call hb h hok hs) calls .init s
      ⟨rep_init (), hd, fun x hx => absurd hx (Set.notMem_empty x)⟩ hcalls hs
  obtain ⟨hwant, huw, -, hu, hmul⟩ := hc
  obtain ⟨hu0, -⟩ := unit_le hu huw
  refine ⟨fun t size hsize => halveRounds_eq t hu0 (by rwa [← wordEnd_eq]) (by decide), ?_⟩
  have hcall : allocate cfg s.trees pastEnd want unit maxAllocSize =
      allocateLoop cfg pastEnd unit m want want s.trees := if_pos ⟨hu, hmul⟩
  -- The rounds meet the condition exactly when no assertion fails and nothing is read behind.
  constructor
  · rintro ⟨t', es, hes, hexact, hreads⟩
    rw [hcall] at hes
    exact rounds_ok hu0 hes (fun e he => (hexact.takes.aligned e he).2) hreads
  · intro hm
    obtain ⟨t', es, hloop, htakes, -, hle, hall⟩ :=
      hstands.rep.takes hstands.within rfl hu huw le_rfl hm
    have hcard : s.free.ncard ≤ deviceSize := by
      calc s.free.ncard ≤ (Set.Iio deviceSize).ncard :=
            Set.ncard_le_ncard (fun x hx => hstands.within.mem x hx) (Set.finite_Iio _)
        _ = deviceSize := by rw [Set.ncard_eq_toFinset_card']; simp
    refine ⟨t', es, hcall.trans hloop, ⟨?_, ?_, ?_⟩, ?_⟩
    · have hlim : maxExtent cfg want maxAllocSize ≤ _ := maxExtent_le want maxAllocSize
      exact ⟨htakes.free, htakes.disjoint, htakes.aligned,
        fun e he => ⟨(htakes.bounded e he).1, (htakes.bounded e he).2.trans hlim⟩, htakes.left⟩
    · exact allocateReturn_eq (fun e he => (htakes.bounded e he).1) (by omega)
    · rintro rfl
      exact hall (hstands.rep.runs.unionOfBlocks hblocks)
    · exact hm.mono fun _ _ => roundReads_of_ok

/-- Four free blocks. -/
def fourBlocks : List Call := [.initAddFree 0x4000 0x4000]

/-- The ranges that are added to a new allocator may be. -/
theorem allowed_fourBlocks : Runs.Meets (call (.plain 0x100000 0x1000))
    (fun s c => c.Allowed (.plain 0x100000 0x1000) s.free) .init fourBlocks :=
  ⟨⟨by decide, fun _ _ hx => hx⟩, fun _ _ => trivial⟩

/-- Three of four blocks are taken one by one. -/
theorem allocate_exact_fourBlocks :
    ∃ s t' es, Runs.exec (call (.plain 0x100000 0x1000)) .init fourBlocks = some s ∧
      allocate (.plain 0x100000 0x1000) s.trees 0 0x3000 0x1000 0x1000 = some (t', es) ∧
      Exact (.plain 0x100000 0x1000) s.free 0x3000 0x1000 0x1000 t' es := by
  have hrun : (Runs.exec (call (.plain 0x100000 0x1000)) .init fourBlocks).map (fun s =>
      decide ((∀ r ∈ s.trees.rangeTree, 0x1000 ∣ r.1 ∧ 0x1000 ∣ r.2) ∧
        Runs.Meets (round (.plain 0x100000 0x1000) 0 0x1000 0x1000)
          (RoundOk (.plain 0x100000 0x1000) 0 0x1000 0x1000) (s.trees, 0x3000)
          (rounds 0x3000))) = some true := by
    decide +kernel
  obtain ⟨s, hs, hok⟩ := Option.map_eq_some_iff.mp hrun
  obtain ⟨hblocks, hrounds⟩ := of_decide_eq_true hok
  obtain ⟨-, hiff⟩ := allocate_exact_iff (by decide) (by decide) fourBlocks s allowed_fourBlocks hs
    hblocks 0 0x3000 0x1000 0x1000 ⟨by decide, by decide, by decide, by decide, by decide⟩
  obtain ⟨t', es, hcall, hexact, -⟩ := hiff.mpr hrounds
  exact ⟨s, t', es, hs, hcall, hexact⟩

/-- Two ranges of the same length, of which the first is not aligned to two blocks. -/
def twoRanges : List Call := [.initAddFree 0x1000 0x20000, .initAddFree 0x30000 0x20000]

/-- Extents of one and a half blocks, when that is the largest that is asked for. And a search that
reads behind the last range: the cursor is behind it, and the first range has no room for two
aligned blocks. -/
theorem oneAndAHalf_taken :
    (∃ s, Runs.exec (call (.plain 0x100000 0x1000)) .init fourBlocks = some s ∧
      (allocate (.plain 0x100000 0x1000) s.trees 0 0x4000 0x1000 0x1800).map Prod.snd =
        some [(0x4000, 0x1800), (0x6000, 0x1800)]) ∧
    ∃ s, Runs.Meets (call (.plain 0x100000 0x1000))
        (fun s c => c.Allowed (.plain 0x100000 0x1000) s.free) .init twoRanges ∧
      Runs.exec (call (.plain 0x100000 0x1000)) .init twoRanges = some s ∧
      ¬Runs.Meets (round (.plain 0x100000 0x1000) 0 0x2000 0x20000)
        (RoundReads (.plain 0x100000 0x1000) 0x2000 0x20000) (s.trees, 0x40000)
        (rounds 0x40000) := by
  have hfirst : (Runs.exec (call (.plain 0x100000 0x1000)) .init fourBlocks).map (fun s =>
      (allocate (.plain 0x100000 0x1000) s.trees 0 0x4000 0x1000 0x1800).map Prod.snd) =
        some (some [(0x4000, 0x1800), (0x6000, 0x1800)]) := by
    decide +kernel
  have hsecond : (Runs.exec (call (.plain 0x100000 0x1000)) .init twoRanges).map (fun s =>
      decide (Runs.Meets (round (.plain 0x100000 0x1000) 0 0x2000 0x20000)
        (RoundReads (.plain 0x100000 0x1000) 0x2000 0x20000) (s.trees, 0x40000)
        (rounds 0x40000))) = some false := by
    decide +kernel
  obtain ⟨s, hs, heq⟩ := Option.map_eq_some_iff.mp hfirst
  obtain ⟨s', hs', hreads⟩ := Option.map_eq_some_iff.mp hsecond
  refine ⟨⟨s, hs, heq⟩, s', ⟨⟨by decide, fun x _ hx => hx⟩, fun s1 h1 => ?_⟩, hs',
    of_decide_eq_false hreads⟩
  have hfree := free_of_initAddFree h1
  refine ⟨⟨by decide, fun x hx => ?_⟩, fun _ _ => trivial⟩
  simp [hfree, Modelled.init, bytesOf] at hx ⊢
  omega

end CxxLab.Blk.AvlAllocator
