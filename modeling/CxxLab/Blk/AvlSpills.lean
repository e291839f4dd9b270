import CxxLab.Blk.AvlExtents

/-!
# Ranges that spill over

The AVL allocator with a cap on the number of its ranges. A range that finds no room is handed to
`_spillover_range`, or the shortest of the others is in its place. `Spread` says that the free bytes
are spread over the trees and what the subclass keeps, and that no byte is in both; every function
on the trees keeps it, whatever the cap, when the subclass takes over what it is handed. What does
not depend on the cap is taken from the allocator without one.
-/

namespace CxxLab

namespace MaximalRuns

variable {A : Set ℕ} {a b : List (ℕ × ℕ)} {r : ℕ × ℕ}

/-- A run is none of those before it. -/
theorem notMem_before (h : MaximalRuns A (a ++ r :: b)) : r ∉ a := by
  intro hr
  have hlt := (List.pairwise_append.mp h.apart).2.2 r hr r List.mem_cons_self
  have hne := h.nonempty r (by simp)
  omega

/-- A run is taken out. -/
theorem erase_middle (h : MaximalRuns A (a ++ r :: b)) : (a ++ r :: b).erase r = a ++ b := by
  rw [List.erase_append_right _ h.notMem_before, List.erase_cons_head]

/-- What is left of a run without a part of it. -/
def pieces (r : ℕ × ℕ) (s e : ℕ) : List (ℕ × ℕ) :=
  (if r.1 ≠ s then [(r.1, s)] else []) ++ if r.2 ≠ e then [(e, r.2)] else []

/-- A part of a run is taken out. -/
theorem cut {s e : ℕ} (h : MaximalRuns A (a ++ r :: b)) (hs : r.1 ≤ s) (hse : s < e)
    (he : e ≤ r.2) : MaximalRuns (A \ Set.Ico s e) (a ++ pieces r s e ++ b) := by
  obtain ⟨-, hapb, hapab⟩ := List.pairwise_append.mp h.apart
  have har : ∀ q ∈ a, q.2 < r.1 := fun q hq => hapab q hq r List.mem_cons_self
  have hrb : ∀ q ∈ b, r.2 < q.1 := (List.pairwise_cons.mp hapb).1
  have hpiece : ∀ p ∈ pieces r s e, p.1 < p.2 ∧ r.1 ≤ p.1 ∧ p.2 ≤ r.2 := by
    intro p hp
    rcases List.mem_append.mp hp with hp | hp
    · split_ifs at hp with hleft
      · rw [List.mem_singleton.mp hp]
        exact ⟨by simp only; omega, le_rfl, by simp only; omega⟩
      · cases hp
    · split_ifs at hp with hright
      · rw [List.mem_singleton.mp hp]
        exact ⟨by simp only; omega, by simp only; omega, le_rfl⟩
      · cases hp
  have hrun : ∀ x, r.1 ≤ x → x < r.2 → x ∈ A := fun x h1 h2 =>
    (h.mem x).mpr ⟨r, by simp, h1, h2⟩
  have h' : MaximalRuns A (a ++ [r] ++ b) := by simpa using h
  refine h'.replace (fun p hp => (hpiece p hp).1) ?_ (fun q hq p hp => ?_) (fun p hp q hq => ?_)
    fun x => ?_
  · unfold pieces
    split_ifs <;> simp [hse]
  · exact (har q hq).trans_le (hpiece p hp).2.1
  · exact (hpiece p hp).2.2.trans_lt (hrb q hq)
  · have hmem : (∃ p ∈ pieces r s e, p.1 ≤ x ∧ x < p.2) ↔
        r.1 ≤ x ∧ x < s ∨ e ≤ x ∧ x < r.2 := by
      unfold pieces
      split_ifs <;> simp <;> omega
    rw [hmem]
    simp only [Set.mem_sdiff, Set.mem_Ico, List.mem_singleton, exists_eq_left]
    grind

end MaximalRuns

namespace UnionOfBlocks

variable {g : ℕ} {S T : Set ℕ}

/-- Two unions of blocks make one. -/
theorem union (hS : UnionOfBlocks g S) (hT : UnionOfBlocks g T) : UnionOfBlocks g (S ∪ T) :=
  fun x y hxy hx => hx.imp (hS x y hxy) (hT x y hxy)

/-- So does a range of whole blocks. -/
theorem ico {s e : ℕ} (hs : g ∣ s) (he : g ∣ e) : UnionOfBlocks g (Set.Ico s e) := by
  obtain ⟨m, rfl⟩ := hs
  obtain ⟨n, rfl⟩ := he
  rintro x y hxy ⟨h1, h2⟩
  have hg : 0 < g := Nat.pos_of_ne_zero fun h0 => by simp [h0] at h2
  rw [Nat.mul_comm, ← Nat.le_div_iff_mul_le hg, hxy, Nat.le_div_iff_mul_le hg, Nat.mul_comm] at h1
  rw [Nat.mul_comm, ← Nat.div_lt_iff_lt_mul hg, hxy, Nat.div_lt_iff_lt_mul hg, Nat.mul_comm] at h2
  exact ⟨h1, h2⟩

/-- The blocks outside of a range of whole blocks. -/
theorem sdiff_ico {s e : ℕ} (hS : UnionOfBlocks g S) (hs : g ∣ s) (he : g ∣ e) :
    UnionOfBlocks g (S \ Set.Ico s e) := fun x y hxy hx =>
  ⟨hS x y hxy hx.1, fun hy => hx.2 (ico hs he y x hxy.symm hy)⟩

end UnionOfBlocks

namespace Blk.AvlAllocator

variable {σ : Type} (cfg : AvlConfig σ) (Holds : σ → Set ℕ → Prop)

/-! ## What a cap allows -/

/-- There is room for one more range. -/
def Room (t : AvlAllocator σ) : Prop :=
  cfg.rangeCountCap = 0 ∨ t.rangeSizeTree.length < cfg.rangeCountCap

/-- The ranges are no more than the cap. -/
def Capped (t : AvlAllocator σ) : Prop :=
  cfg.rangeCountCap = 0 ∨ t.rangeSizeTree.length ≤ cfg.rangeCountCap

/-- The same allocator without a cap. -/
def uncapped : AvlConfig σ := { cfg with rangeCountCap := 0 }

/-- A subclass that holds a set of bytes takes over a range of whole blocks of the device that it
does not hold. -/
def TakesOver : Prop :=
  ∀ c C s e, Holds c C → cfg.blockSize ∣ s → cfg.blockSize ∣ e → s < e → e ≤ cfg.deviceSize →
    Disjoint C (Set.Ico s e) →
    ∃ c', cfg.spilloverRange c s e = some c' ∧ Holds c' (C ∪ Set.Ico s e)

/-- The ranges of a list and what the subclass holds make up the free bytes, and no byte is in
both. -/
structure Shared (A C F : Set ℕ) (l : List RangeSeg) (c : σ) : Prop where
  /-- The ranges of the list are the maximal runs of a set. -/
  runs : MaximalRuns A l
  /-- They are whole blocks. -/
  blocks : UnionOfBlocks cfg.blockSize A
  /-- What the subclass holds. -/
  holds : Holds c C
  /-- No byte is in both. -/
  apart : Disjoint A C
  /-- Each free byte is in one. -/
  total : A ∪ C = F
  /-- The free bytes are on the device. -/
  within : Within cfg F

/-- The free bytes are spread over `range_tree_` and the subclass, and `range_size_tree_` has the
ranges of `range_tree_` but some, which are not counted. -/
structure Spread (extra : List RangeSeg) (F : Set ℕ) (t : AvlAllocator σ) : Prop where
  /-- The ranges of `range_tree_`, and what the subclass holds. -/
  shared : ∃ A C, Shared cfg Holds A C F t.rangeTree t.child
  /-- The ranges that are counted. -/
  perm : t.rangeTree.Perm (extra ++ t.rangeSizeTree)
  /-- `range_size_tree_` is in order, and `num_free_` is its sum. -/
  sized : Sized t t.rangeSizeTree

variable {cfg Holds}

/-- An insertion only adds. -/
theorem sublist_sizeInsert (r : RangeSeg) (l : List RangeSeg) : l.Sublist (sizeInsert r l) := by
  induction l with
  | nil => exact List.nil_sublist _
  | cons q l ih =>
    rw [sizeInsert]
    split_ifs
    · exact List.sublist_cons_self r _
    · exact ih.cons_cons q

/-! ## A range changes sides -/

section

variable {A C F : Set ℕ} {l : List RangeSeg} {c : σ}

/-- A range of the list is on the device. -/
theorem Shared.on_device (h : Shared cfg Holds A C F l c) {r : RangeSeg} (hr : r ∈ l) :
    r.1 < r.2 ∧ r.2 ≤ cfg.deviceSize := by
  have hne := h.runs.nonempty r hr
  have hlast := h.within.mem (r.2 - 1) (h.total ▸ .inl (h.runs.last_mem hr))
  exact ⟨hne, by omega⟩

/-- The bytes of a range of the list are in the set. -/
theorem Shared.ico_subset (h : Shared cfg Holds A C F l c) {r : RangeSeg} (hr : r ∈ l) :
    Set.Ico r.1 r.2 ⊆ A := fun x hx => (h.runs.mem x).mpr ⟨r, hr, hx.1, hx.2⟩

/-- A range of the list spills over: it is the subclass's, and all else stays. -/
theorem Shared.spill (hover : TakesOver cfg Holds) (h : Shared cfg Holds A C F l c)
    {r : RangeSeg} (hr : r ∈ l) : ∃ c', cfg.spilloverRange c r.1 r.2 = some c' ∧
      Shared cfg Holds (A \ Set.Ico r.1 r.2) (C ∪ Set.Ico r.1 r.2) F (l.erase r) c' := by
  obtain ⟨hne, hdev⟩ := h.on_device hr
  have hsub := h.ico_subset hr
  obtain ⟨hs, he⟩ := h.blocks.dvd h.runs hr
  obtain ⟨c', hc', hholds⟩ := hover c C r.1 r.2 h.holds hs he hne hdev
    (h.apart.symm.mono_right hsub)
  obtain ⟨a, b, rfl⟩ := List.append_of_mem hr
  refine ⟨c', hc', ⟨?_, h.blocks.sdiff_ico hs he, hholds, ?_, ?_, h.within⟩⟩
  · have hcut := h.runs.cut le_rfl hne le_rfl
    rw [h.runs.erase_middle]
    simpa [MaximalRuns.pieces] using hcut
  · exact (h.apart.mono_left Set.sdiff_subset).union_right Set.disjoint_sdiff_left
  · rw [← h.total, Set.union_comm C, ← Set.union_assoc, Set.sdiff_union_of_subset hsub]

end

variable {extra : List RangeSeg} {F : Set ℕ} {t : AvlAllocator σ} {r : RangeSeg}

/-- The ranges that are not counted, in another order. -/
theorem Spread.of_perm {extra' : List RangeSeg} (h : Spread cfg Holds extra F t)
    (hp : extra.Perm extra') : Spread cfg Holds extra' F t :=
  ⟨h.shared, h.perm.trans (hp.append_right _), h.sized⟩

/-- A range that is not counted is counted. -/
theorem Spread.countIn (h : Spread cfg Holds (r :: extra) F t) :
    Spread cfg Holds extra F (t.countIn r) where
  shared := h.shared
  perm := by
    have hmid : (r :: extra ++ t.rangeSizeTree).Perm (extra ++ r :: t.rangeSizeTree) :=
      List.perm_middle.symm
    exact (h.perm.trans hmid).trans ((sizeInsert_perm r _).symm.append_left extra)
  sized := (h.sized.countIn r).of_perm (sizeInsert_perm r _).symm

/-- A range that is not counted spills over. -/
theorem Spread.refuse (hover : TakesOver cfg Holds) (h : Spread cfg Holds (r :: extra) F t) :
    ∃ c', cfg.spilloverRange t.child r.1 r.2 = some c' ∧
      Spread cfg Holds extra F { t with child := c', rangeTree := t.rangeTree.erase r } := by
  obtain ⟨A, C, hshared⟩ := h.shared
  obtain ⟨c', hc', hspilt⟩ := hshared.spill hover (h.perm.mem_iff.mpr List.mem_cons_self)
  refine ⟨c', hc', ⟨_, _, hspilt⟩, ?_, h.sized.perm, h.sized.sorted, h.sized.numFree⟩
  have hperm := h.perm.erase r
  rwa [List.cons_append, List.erase_cons_head] at hperm

/-- A range that is counted is not any more. -/
theorem Spread.rm (h : Spread cfg Holds extra F t) (hr : r ∈ t.rangeSizeTree) :
    ∃ t', t.rangeSizeTreeRm r = some t' ∧ Spread cfg Holds (r :: extra) F t' ∧
      t'.rangeTree = t.rangeTree ∧ t'.child = t.child ∧
      t'.rangeSizeTree.length + 1 = t.rangeSizeTree.length := by
  have hcons := List.perm_cons_erase hr
  obtain ⟨t', ht', hsized, htree, -, hchild⟩ := (h.sized.of_perm hcons).rm
  have hall : (r :: t'.rangeSizeTree).Perm t.rangeSizeTree := (hsized.perm.cons r).trans hcons.symm
  refine ⟨t', ht', ⟨?_, ?_, hsized.of_perm hsized.perm.symm⟩, htree, hchild, hall.length_eq⟩
  · rw [htree, hchild]
    exact h.shared
  · rw [htree]
    exact (h.perm.trans (hall.symm.append_left extra)).trans List.perm_middle

/-! ## Insertion -/

/-- An insertion makes the list longer by one. -/
theorem length_sizeInsert (r : RangeSeg) (l : List RangeSeg) :
    (sizeInsert r l).length = l.length + 1 := (sizeInsert_perm r l).length_eq

/-- Where there is room a range can be counted. -/
theorem Room.countIn (h : Room cfg t) (r : RangeSeg) : Capped cfg (t.countIn r) :=
  h.imp_right (length_sizeInsert r t.rangeSizeTree).trans_le

/-- Where there is room a range is inserted where it was to be. -/
theorem tryInsertRange_of_room (hroom : Room cfg t) (s e : ℕ) (before after : List RangeSeg) :
    tryInsertRange cfg t s e (some (before, after)) =
      some (({ t with rangeTree := before ++ (s, e) :: after }).countIn (s, e), true) := by
  unfold Room at hroom
  simp [tryInsertRange, hroom]

/-- Where there is room a range of `range_tree_` is counted. -/
theorem rangeSizeTreeTryInsert_of_room (hroom : Room cfg t) (r : RangeSeg) :
    rangeSizeTreeTryInsert cfg t r = some (t.countIn r) := by
  unfold Room at hroom
  simp [rangeSizeTreeTryInsert, tryInsertRange, hroom]

/-- Where there is no room there is a shortest range. -/
theorem exists_shortest (hroom : ¬Room cfg t) : ∃ q l, t.rangeSizeTree = q :: l := by
  unfold Room at hroom
  cases hl : t.rangeSizeTree with
  | nil =>
    rw [hl] at hroom
    exact absurd (Nat.eq_zero_or_pos _) hroom
  | cons q l => exact ⟨q, l, rfl⟩

/-- `_range_size_tree_try_insert` of a range of `range_tree_`: no assertion fails, and the range is
counted or has spilt over. -/
theorem Spread.rangeSizeTreeTryInsert (hover : TakesOver cfg Holds)
    (h : Spread cfg Holds (r :: extra) F t) :
    ∃ t', AvlAllocator.rangeSizeTreeTryInsert cfg t r = some t' ∧ Spread cfg Holds extra F t' ∧
      (Capped cfg t → Capped cfg t') := by
  by_cases hroom : Room cfg t
  · exact ⟨_, rangeSizeTreeTryInsert_of_room hroom r, h.countIn, fun _ => hroom.countIn r⟩
  · obtain ⟨q, l, hl⟩ := exists_shortest hroom
    have hroom' := hroom
    unfold Room at hroom'
    by_cases hlow : t.lowestSizeAvailable < r.2 - r.1
    · -- The shortest range spills over in its place.
      obtain ⟨t1, h1, hs1, htree, hchild, hlen⟩ := h.rm (r := q) (by simp [hl])
      obtain ⟨c', hc', hs2⟩ := hs1.refuse hover
      rw [hl, List.length_cons] at hroom'
      refine ⟨_, ?_, hs2.countIn, fun hcap => hcap.imp_right fun hle => ?_⟩
      · simp [AvlAllocator.rangeSizeTreeTryInsert, tryInsertRange, hroom', hlow, hl, h1, hc']
      · exact ((length_sizeInsert r _).trans hlen).trans_le hle
    · obtain ⟨c', hc', hs⟩ := h.refuse hover
      refine ⟨_, ?_, hs, id⟩
      simp [AvlAllocator.rangeSizeTreeTryInsert, tryInsertRange, hroom', hlow, hc']

/-- `_try_insert_range` of a range that is not in `range_tree_`: no assertion fails, and the range
is inserted or has spilt over. -/
theorem Spread.tryInsertRange (hover : TakesOver cfg Holds) {s e : ℕ} {before after : List RangeSeg}
    (ht : t.rangeTree = before ++ after)
    (h : Spread cfg Holds ((s, e) :: extra) F { t with rangeTree := before ++ (s, e) :: after }) :
    ∃ t' b, AvlAllocator.tryInsertRange cfg t s e (some (before, after)) = some (t', b) ∧
      Spread cfg Holds extra F t' ∧ (Capped cfg t → Capped cfg t') := by
  by_cases hroom : Room cfg t
  · exact ⟨_, _, tryInsertRange_of_room hroom s e before after, h.countIn,
      fun _ => hroom.countIn (s, e)⟩
  · have hroom' := hroom
    unfold Room at hroom'
    by_cases hlow : t.lowestSizeAvailable < e - s
    · -- The new range is counted first, and then the shortest, which may be it, spills over.
      have hcount := h.countIn
      obtain ⟨q, l, hl⟩ : ∃ q l, sizeInsert (s, e) t.rangeSizeTree = q :: l := by
        cases hs : sizeInsert (s, e) t.rangeSizeTree with
        | nil => simpa [hs] using length_sizeInsert (s, e) t.rangeSizeTree
        | cons q l => exact ⟨q, l, rfl⟩
      obtain ⟨t1, h1, hs1, htree, hchild, hlen⟩ := hcount.rm (r := q) (by
        simp [AvlAllocator.countIn, hl])
      obtain ⟨c', hc', hs2⟩ := hs1.refuse hover
      refine ⟨_, true, ?_, hs2, fun hcap => hcap.imp_right fun hle => ?_⟩
      · have hl' : (({ t with rangeTree := before ++ (s, e) :: after } :
            AvlAllocator σ).countIn (s, e)).rangeSizeTree = q :: l := hl
        simp [AvlAllocator.tryInsertRange, hroom', hlow, hl', h1, hc']
      · have hlen' : t1.rangeSizeTree.length + 1 = t.rangeSizeTree.length + 1 :=
          hlen.trans (length_sizeInsert (s, e) _)
        exact (Nat.succ_injective hlen').trans_le hle
    · obtain ⟨c', hc', hs⟩ := h.refuse hover
      obtain ⟨A, C, hshared⟩ := h.shared
      refine ⟨{ t with child := c' }, false, ?_, ?_, id⟩
      · have hc'' : cfg.spilloverRange t.child s e = some c' := hc'
        simp [AvlAllocator.tryInsertRange, hroom', hlow, hc'']
      · have herase : (before ++ (s, e) :: after).erase (s, e) = t.rangeTree :=
          hshared.runs.erase_middle.trans ht.symm
        simpa only [herase] using hs

/-! ## Adding a range -/

/-- What the trees are but for a range that is counted last. -/
theorem Rep.uncount {A : Set ℕ} (h : Rep A (t.countIn r)) :
    MaximalRuns A t.rangeTree ∧ t.rangeTree.Perm (r :: t.rangeSizeTree) ∧
      Sized t t.rangeSizeTree := by
  have hins := sizeInsert_perm r t.rangeSizeTree
  have hperm : (sizeInsert r t.rangeSizeTree).Perm t.rangeTree := h.sized.perm
  have hsorted : (sizeInsert r t.rangeSizeTree).Pairwise fun r q => q.shorter r = false :=
    h.sized.sorted
  have hnum : t.numFree + r.len = sumLen t.rangeTree := h.sized.numFree
  have hsum : sumLen t.rangeTree = r.len + sumLen t.rangeSizeTree :=
    sumLen_perm (hperm.symm.trans hins)
  refine ⟨h.runs, hperm.symm.trans hins, List.Perm.refl _, ?_, by omega⟩
  exact hsorted.sublist (sublist_sizeInsert r _)

/-- A removal from `range_size_tree_` changes nothing else, and takes at most one range. -/
theorem rangeSizeTreeRm_kept {t' : AvlAllocator σ} (h : t.rangeSizeTreeRm r = some t') :
    t'.child = t.child ∧ t'.rangeSizeTree.length ≤ t.rangeSizeTree.length := by
  unfold rangeSizeTreeRm at h
  split_ifs at h
  rw [← Option.some.inj h]
  exact ⟨rfl, List.length_erase_le⟩

/-- With and without a cap `_add_to_tree` does the same up to its last step. -/
theorem addToTree_uncapped {s size : ℕ} {t0 : AvlAllocator σ}
    (h : addToTree (uncapped cfg) t s size = some t0) :
    t0.child = t.child ∧
      ((∃ t1 r, t0 = t1.countIn r ∧ addToTree cfg t s size = rangeSizeTreeTryInsert cfg t1 r ∧
          t1.rangeSizeTree.length ≤ t.rangeSizeTree.length) ∨
        ∃ before after, t.rangeTree = before ++ after ∧
          t0 = ({ t with rangeTree := before ++ (s, s + size) :: after }).countIn (s, s + size) ∧
          addToTree cfg t s size =
            (tryInsertRange cfg t s (s + size) (some (before, after))).map Prod.fst) := by
  have hcap : (uncapped cfg).rangeCountCap = 0 := rfl
  unfold addToTree at h ⊢
  split_ifs at h ⊢ with hsize
  simp only at h ⊢
  split at h
  · obtain ⟨t1, h1, h⟩ := Option.bind_eq_some_iff.mp h
    obtain ⟨t2, h2, h⟩ := Option.bind_eq_some_iff.mp h
    rw [rangeSizeTreeTryInsert_eq hcap] at h
    obtain ⟨hc1, hl1⟩ := rangeSizeTreeRm_kept h1
    obtain ⟨hc2, hl2⟩ := rangeSizeTreeRm_kept h2
    refine ⟨?_, .inl ⟨_, _, (Option.some.inj h).symm, by simp [h1, h2], hl2.trans hl1⟩⟩
    rw [← Option.some.inj h]
    exact hc2.trans hc1
  · obtain ⟨t1, h1, h⟩ := Option.bind_eq_some_iff.mp h
    rw [rangeSizeTreeTryInsert_eq hcap] at h
    obtain ⟨hc1, hl1⟩ := rangeSizeTreeRm_kept h1
    refine ⟨?_, .inl ⟨_, _, (Option.some.inj h).symm, by simp [h1], hl1⟩⟩
    rw [← Option.some.inj h]
    exact hc1
  · obtain ⟨t1, h1, h⟩ := Option.bind_eq_some_iff.mp h
    rw [rangeSizeTreeTryInsert_eq hcap] at h
    obtain ⟨hc1, hl1⟩ := rangeSizeTreeRm_kept h1
    refine ⟨?_, .inl ⟨_, _, (Option.some.inj h).symm, by simp [h1], hl1⟩⟩
    rw [← Option.some.inj h]
    exact hc1
  · rw [tryInsertRange_pos hcap] at h
    have h := Option.some.inj h
    refine ⟨h ▸ rfl, .inr ⟨_, _, (List.takeWhile_append_dropWhile).symm, h.symm, rfl⟩⟩

/-- `_add_to_tree` of a range of whole blocks that is not free: no assertion fails, whatever the
cap, and the range is free. -/
theorem Spread.addToTree (hover : TakesOver cfg Holds) (h : Spread cfg Holds [] F t)
    (hcap : Capped cfg t) {s size : ℕ} (hs : cfg.blockSize ∣ s) (hl : cfg.blockSize ∣ size)
    (hsize : 0 < size) (hdev : s + size ≤ cfg.deviceSize) (hF : Disjoint F (Set.Ico s (s + size))) :
    ∃ t', AvlAllocator.addToTree cfg t s size = some t' ∧
      Spread cfg Holds [] (F ∪ Set.Ico s (s + size)) t' ∧ Capped cfg t' := by
  obtain ⟨A, C, hshared⟩ := h.shared
  have hrep : Rep A t := ⟨hshared.runs, h.sized.of_perm h.perm.symm⟩
  have hA : ∀ x, s ≤ x → x < s + size → x ∉ A := fun x h1 h2 hx =>
    hF.notMem_of_mem_right ⟨h1, h2⟩ (hshared.total ▸ .inl hx)
  have hcap0 : (uncapped cfg).rangeCountCap = 0 := rfl
  -- Without a cap the lists are right, and the cap is felt in the last step only.
  obtain ⟨t0, ht0, hrep0⟩ := hrep.addToTree hcap0 hsize hA
  obtain ⟨hchild, hlast⟩ := addToTree_uncapped ht0
  have hafter : ∀ {l c}, MaximalRuns (A ∪ Set.Ico s (s + size)) l → c = t.child →
      ∃ A C, Shared cfg Holds A C (F ∪ Set.Ico s (s + size)) l c := by
    rintro l c hruns rfl
    refine ⟨_, C, hruns, hshared.blocks.union (.ico hs (dvd_add hs hl)), hshared.holds, ?_, ?_,
      hshared.within.device, ?_⟩
    · refine hshared.apart.union_left (hF.symm.mono_right ?_)
      exact hshared.total ▸ Set.subset_union_right
    · rw [← hshared.total, Set.union_right_comm]
    · rintro x (hx | hx)
      · exact hshared.within.mem x hx
      · exact hx.2.trans_le hdev
  rcases hlast with ⟨t1, r, rfl, heq, hlen⟩ | ⟨before, after, htree, rfl, heq⟩
  · obtain ⟨hruns, hperm, hsized⟩ := hrep0.uncount
    have hin : Spread cfg Holds [r] (F ∪ Set.Ico s (s + size)) t1 :=
      ⟨hafter hruns hchild, hperm, hsized⟩
    obtain ⟨t', ht', hspread, hcap'⟩ := hin.rangeSizeTreeTryInsert hover
    exact ⟨t', heq.trans ht', hspread, hcap' (hcap.imp_right hlen.trans)⟩
  · obtain ⟨hruns, hperm, hsized⟩ := hrep0.uncount
    have hin : Spread cfg Holds [(s, s + size)] (F ∪ Set.Ico s (s + size))
        { t with rangeTree := before ++ (s, s + size) :: after } :=
      ⟨hafter hruns hchild, hperm, hsized⟩
    obtain ⟨t', b, ht', hspread, hcap'⟩ := hin.tryInsertRange hover htree
    exact ⟨t', by rw [heq, ht']; rfl, hspread, hcap' hcap⟩

/-! ## Removing a range -/

/-- A part of a range that is not counted is taken out of the tree. -/
theorem Spread.cut {before after : List RangeSeg} {s e : ℕ}
    (h : Spread cfg Holds (r :: extra) F t) (ht : t.rangeTree = before ++ r :: after)
    (hs : r.1 ≤ s) (hse : s < e) (he : e ≤ r.2) (hds : cfg.blockSize ∣ s)
    (hde : cfg.blockSize ∣ e) :
    Spread cfg Holds (MaximalRuns.pieces r s e ++ extra) (F \ Set.Ico s e)
      { t with rangeTree := before ++ MaximalRuns.pieces r s e ++ after } where
  shared := by
    obtain ⟨A, C, hshared⟩ := h.shared
    have hruns := hshared.runs
    rw [ht] at hruns
    have hsub : Set.Ico s e ⊆ A := fun x hx => (hruns.mem x).mpr
      ⟨r, by simp, hs.trans hx.1, hx.2.trans_le he⟩
    refine ⟨A \ Set.Ico s e, C, hruns.cut hs hse he, hshared.blocks.sdiff_ico hds hde,
      hshared.holds, hshared.apart.mono_left Set.sdiff_subset, ?_, hshared.within.device,
      fun x hx => hshared.within.mem x hx.1⟩
    rw [← hshared.total, Set.union_sdiff_distrib,
      (hshared.apart.symm.mono_right hsub).sdiff_eq_left]
  perm := by
    have hperm : (r :: (before ++ after)).Perm (r :: (extra ++ t.rangeSizeTree)) :=
      (List.perm_middle.symm.trans (ht ▸ List.Perm.refl _)).trans h.perm
    have hfront : (before ++ MaximalRuns.pieces r s e ++ after).Perm
        (MaximalRuns.pieces r s e ++ (before ++ after)) := perm_front
    exact (hfront.trans (hperm.cons_inv.append_left _)).trans
      (by rw [List.append_assoc])
  sized := h.sized.setTree _

/-- `_process_range_removal` of whole blocks from a range of the tree: no assertion fails, and they
are not free. Up to the end of the range nothing spills over. -/
theorem Spread.processRangeRemoval (hover : TakesOver cfg Holds) (h : Spread cfg Holds [] F t)
    (hcap : Capped cfg t) {before after : List RangeSeg} {s e : ℕ}
    (ht : t.rangeTree = before ++ r :: after) (hs : r.1 ≤ s) (hse : s < e) (he : e ≤ r.2)
    (hds : cfg.blockSize ∣ s) (hde : cfg.blockSize ∣ e) :
    ∃ t', AvlAllocator.processRangeRemoval cfg t s e before r after = some t' ∧
      Spread cfg Holds [] (F \ Set.Ico s e) t' ∧ Capped cfg t' ∧
      (r.2 = e → t'.rangeTree = before ++ MaximalRuns.pieces r s e ++ after) := by
  have hr : r ∈ t.rangeSizeTree := h.perm.mem_iff.mp (by simp [ht])
  obtain ⟨t1, h1, hs1, htree, hchild, hlen⟩ := h.rm hr
  have hroom : Room cfg t1 := hcap.imp_right fun hle => by omega
  have hcap1 : Capped cfg t1 := hroom.imp_right Nat.le_of_lt
  have hcut := hs1.cut (htree.trans ht) hs hse he hds hde
  unfold AvlAllocator.processRangeRemoval
  rw [h1, Option.bind_eq_bind, Option.bind_some]
  -- What is left of the range, if anything, is counted again.
  have hone : ∀ p : RangeSeg, MaximalRuns.pieces r s e = [p] →
      ∃ t', AvlAllocator.rangeSizeTreeTryInsert cfg
          { t1 with rangeTree := before ++ p :: after } p = some t' ∧
        Spread cfg Holds [] (F \ Set.Ico s e) t' ∧ Capped cfg t' ∧
        (r.2 = e → t'.rangeTree = before ++ MaximalRuns.pieces r s e ++ after) := by
    intro p hp
    rw [hp] at hcut ⊢
    have hroom' : Room cfg { t1 with rangeTree := before ++ p :: after } := hroom
    have hlist : before ++ [p] ++ after = before ++ p :: after := by simp
    rw [hlist] at hcut ⊢
    exact ⟨_, rangeSizeTreeTryInsert_of_room hroom' p, hcut.countIn, hroom'.countIn p,
      fun _ => rfl⟩
  by_cases hleft : r.1 = s
  · by_cases hright : r.2 = e
    · have hp : MaximalRuns.pieces r s e = [] := by simp [MaximalRuns.pieces, hleft, hright]
      rw [hp] at hcut ⊢
      simp only [List.append_nil] at hcut ⊢
      rw [if_neg (by tauto), if_neg (by tauto), if_neg (by tauto)]
      exact ⟨_, rfl, hcut, hcap1, fun _ => rfl⟩
    · rw [if_neg (by tauto), if_neg (by tauto), if_pos hright]
      exact hone _ (by simp [MaximalRuns.pieces, hleft, hright])
  · by_cases hright : r.2 = e
    · rw [if_neg (by tauto), if_pos hleft]
      exact hone _ (by simp [MaximalRuns.pieces, hleft, hright])
    · rw [if_pos ⟨hleft, hright⟩]
      have hp : MaximalRuns.pieces r s e = [(r.1, s), (e, r.2)] := by
        simp [MaximalRuns.pieces, hleft, hright]
      rw [hp] at hcut
      have hlist : before ++ [(r.1, s), (e, r.2)] ++ after =
          (before ++ [(r.1, s)]) ++ (e, r.2) :: after := by simp
      rw [hlist] at hcut
      have hswap : ([(r.1, s), (e, r.2)] ++ [] : List RangeSeg).Perm [(e, r.2), (r.1, s)] :=
        List.Perm.swap _ _ _
      have hin := hcut.of_perm hswap
      obtain ⟨t2, b, h2, hs2, hcap2⟩ := Spread.tryInsertRange
        (t := { t1 with rangeTree := before ++ (r.1, s) :: after }) hover (by simp) hin
      obtain ⟨t3, h3, hs3, hcap3⟩ := hs2.rangeSizeTreeTryInsert hover
      refine ⟨t3, ?_, hs3, hcap3 (hcap2 hcap1), fun he => absurd he hright⟩
      rw [h2]
      exact h3

/-- The range that `find` gives. -/
theorem find_range {a b : List RangeSeg} {s : ℕ} (hs : ∀ q ∈ a, q.2 ≤ s) (hr : s < r.2) :
    (a ++ r :: b).takeWhile (fun q => q.2 ≤ s) = a ∧
      (a ++ r :: b).dropWhile (fun q => q.2 ≤ s) = r :: b := by
  have ha : ∀ q ∈ a, decide (q.2 ≤ s) = true := fun q hq => by simpa using hs q hq
  have hrlt : decide (r.2 ≤ s) = false := by simpa using hr
  rw [List.takeWhile_append_of_pos ha, List.dropWhile_append_of_pos ha]
  simp [hrlt]

/-- `_remove_from_tree` of whole blocks of a range of the tree: no assertion fails, and they are not
free. -/
theorem Spread.removeFromTree (hover : TakesOver cfg Holds) (h : Spread cfg Holds [] F t)
    (hcap : Capped cfg t) {s size : ℕ} (hr : r ∈ t.rangeTree) (hs : r.1 ≤ s) (hsize : 0 < size)
    (he : s + size ≤ r.2) (hds : cfg.blockSize ∣ s) (hdl : cfg.blockSize ∣ size) :
    ∃ t', AvlAllocator.removeFromTree cfg t s size = some t' ∧
      Spread cfg Holds [] (F \ Set.Ico s (s + size)) t' ∧ Capped cfg t' := by
  obtain ⟨A, C, hshared⟩ := h.shared
  obtain ⟨a, b, htree⟩ := List.append_of_mem hr
  have hruns := hshared.runs
  rw [htree] at hruns
  have har : ∀ q ∈ a, q.2 ≤ s := fun q hq => by
    have := (List.pairwise_append.mp hruns.apart).2.2 q hq r List.mem_cons_self
    omega
  obtain ⟨htake, hdrop⟩ := find_range (b := b) har (show s < r.2 by omega)
  have hnum : size ≤ t.numFree := by
    have hsum : t.numFree = sumLen t.rangeTree :=
      h.sized.numFree.trans (sumLen_perm h.perm.symm)
    rw [hsum, htree, sumLen_append, sumLen_cons, RangeSeg.len]
    omega
  obtain ⟨t', ht', hs', hcap', -⟩ := h.processRangeRemoval hover hcap htree hs (by omega) he hds
    (dvd_add hds hdl)
  refine ⟨t', ?_, hs', hcap'⟩
  unfold AvlAllocator.removeFromTree
  rw [if_neg hsize.ne', htree]
  simp only [hdrop, htake]
  rw [if_pos ⟨by omega, hs, he, hnum⟩]
  exact ht'

/-! ## Allocation -/

/-- What is picked does not depend on the cap, and only a cursor moves. -/
theorem pickBlock_cursor (cfg : AvlConfig σ) (t : AvlAllocator σ)
    (pastEnd maxSize size unit : ℕ) (force : Bool) :
    ∃ lbas, (pickBlock cfg t pastEnd maxSize size unit force).1 = { t with lbas := lbas } := by
  unfold pickBlock
  dsimp only
  split_ifs
  · exact ⟨t.lbas, rfl⟩
  · split
    · exact ⟨_, rfl⟩
    · exact ⟨t.lbas, rfl⟩

/-- With and without a cap `_allocate_single` does the same up to the removal of the extent. -/
theorem allocateSingle_uncapped (cfg : AvlConfig σ) (t : AvlAllocator σ)
    (pastEnd size unit : ℕ) :
    (allocateSingle (uncapped cfg) t pastEnd size unit = .noSpace →
      allocateSingle cfg t pastEnd size unit = .noSpace) ∧
    ∀ o n t1, allocateSingle (uncapped cfg) t pastEnd size unit = .extent o n t1 →
      ∃ lbas, ∀ t', removeFromTree cfg { t with lbas := lbas } o n = some t' →
        allocateSingle cfg t pastEnd size unit = .extent o n t' := by
  have hpick : ∀ maxSize size force, pickBlock (uncapped cfg) t pastEnd maxSize size unit force =
      pickBlock cfg t pastEnd maxSize size unit force := fun _ _ _ => rfl
  have hdev : (uncapped cfg).deviceSize = cfg.deviceSize := rfl
  unfold allocateSingle
  simp only [hpick, hdev]
  generalize (t.rangeSizeTree.getLast?.map RangeSeg.len).getD 0 = maxSize
  generalize (if maxSize < size then p2align maxSize unit else size) = size'
  by_cases hno : maxSize < size ∧ maxSize < unit
  · simp only [if_pos hno, reduceCtorEq, false_imp_iff, implies_true, and_self]
  simp only [if_neg hno]
  split
  · simp only [reduceCtorEq, false_imp_iff, implies_true, and_self]
  obtain ⟨lbas, hlbas⟩ := pickBlock_cursor cfg t pastEnd maxSize size' unit
    (decide (maxSize < size))
  generalize pickBlock cfg t pastEnd maxSize size' unit (decide (maxSize < size)) = p at hlbas ⊢
  obtain ⟨t0, o0⟩ := p
  cases o0 with
  | none => simp only [reduceCtorEq, false_imp_iff, implies_true, and_self]
  | some q =>
    dsimp only at hlbas ⊢
    cases removeFromTree (uncapped cfg) t0 q.1 q.2 with
    | none => simp only [reduceCtorEq, false_imp_iff, implies_true, and_self]
    | some t2 =>
      simp only [reduceCtorEq, false_imp_iff, true_and]
      intro o n t1 h
      simp only [Single.extent.injEq] at h
      obtain ⟨rfl, rfl, -⟩ := h
      refine ⟨lbas, fun t' ht' => ?_⟩
      rw [hlbas, ht']

/-- `_allocate_single` of at least a unit: no assertion fails, and an extent was free and is not any
more. -/
theorem Spread.allocateSingle (hover : TakesOver cfg Holds) (h : Spread cfg Holds [] F t)
    (hcap : Capped cfg t) {k : ℕ} (hk : k < 64) (hblock : cfg.blockSize ∣ 2 ^ k) (pastEnd : ℕ)
    {size : ℕ} (hsize : 0 < size) (hdvd : 2 ^ k ∣ size) :
    AvlAllocator.allocateSingle cfg t pastEnd size (2 ^ k) = .noSpace ∨
      ∃ o n t', AvlAllocator.allocateSingle cfg t pastEnd size (2 ^ k) = .extent o n t' ∧
        2 ^ k ∣ o ∧ 2 ^ k ∣ n ∧ 0 < n ∧ n ≤ size ∧ Set.Ico o (o + n) ⊆ F ∧
        Spread cfg Holds [] (F \ Set.Ico o (o + n)) t' ∧ Capped cfg t' := by
  obtain ⟨A, C, hshared⟩ := h.shared
  have hrep : Rep A t := ⟨hshared.runs, h.sized.of_perm h.perm.symm⟩
  have hsub : A ⊆ F := hshared.total ▸ Set.subset_union_left
  have hwithin : Within (uncapped cfg) A :=
    ⟨hshared.within.device, fun x hx => hshared.within.mem x (hsub hx)⟩
  have hu : isp2 (2 ^ k) = true := by
    simp only [isp2, decide_eq_true_eq]
    exact ⟨Nat.two_pow_pos k, Nat.and_two_pow_sub_one_eq_mod .. ▸ by simp⟩
  have huw : 2 ^ k < wordEnd := by
    rw [wordEnd_eq]
    exact Nat.pow_lt_pow_right (by norm_num) hk
  -- The extent is picked as it is without a cap.
  obtain ⟨hnone, hsome⟩ := allocateSingle_uncapped cfg t pastEnd size (2 ^ k)
  rcases hrep.allocateSingle hwithin rfl hu huw pastEnd hsize with
    hs | ⟨o, n, t1, hs, hn, hle, hA, -⟩
  · exact .inl (hnone hs)
  · obtain ⟨lbas, hext⟩ := hsome o n t1 hs
    obtain ⟨ho, hlen⟩ := hrep.allocateSingle_dvd hwithin hk hsize hs
    have hdn : 2 ^ k ∣ n := hlen.elim id fun hgot => hgot.1 ▸ hdvd
    obtain ⟨r, hr, hro, hre⟩ := hrep.runs.exists_run (show o < o + n by omega) hA
    have h' : Spread cfg Holds [] F { t with lbas := lbas } :=
      ⟨h.shared, h.perm, h.sized.perm, h.sized.sorted, h.sized.numFree⟩
    obtain ⟨t', ht', hspread, hcap'⟩ :=
      h'.removeFromTree hover hcap hr hro hn hre (hblock.trans ho) (hblock.trans hdn)
    exact .inr ⟨o, n, t', hext t' ht', ho, hdn, hn, hle, fun x hx => hsub (hA x hx.1 hx.2),
      hspread, hcap'⟩

/-- Extents of free bytes that do not meet: aligned, not empty and not too long. -/
structure Extents (F : Set ℕ) (unit limit : ℕ) (es : List (ℕ × ℕ)) : Prop where
  /-- They are free. -/
  free : bytesOf es ⊆ F
  /-- No two of them meet. -/
  disjoint : es.Pairwise fun e e' => Disjoint (bytesOf [e]) (bytesOf [e'])
  /-- They are aligned. -/
  aligned : ∀ e ∈ es, unit ∣ e.1 ∧ unit ∣ e.2
  /-- They are not empty, and not too long. -/
  bounded : ∀ e ∈ es, 0 < e.2 ∧ e.2 ≤ limit

/-- The bytes of extents and others. -/
theorem bytesOf_append (es es' : List (ℕ × ℕ)) :
    bytesOf (es ++ es') = bytesOf es ∪ bytesOf es' := by
  ext x
  simp [bytesOf, or_and_right, exists_or]

/-- The bytes of one extent. -/
theorem bytesOf_one (o n : ℕ) : bytesOf [(o, n)] = Set.Ico o (o + n) := bytesOf_singleton o n

/-- An extent has no byte that is not of the list. -/
theorem bytesOf_subset {e : ℕ × ℕ} {es : List (ℕ × ℕ)} (he : e ∈ es) :
    bytesOf [e] ⊆ bytesOf es := by
  rintro x ⟨q, hq, hx⟩
  exact ⟨q, List.mem_singleton.mp hq ▸ he, hx⟩

namespace Extents

variable {unit limit : ℕ} {es es' : List (ℕ × ℕ)}

/-- No extents. -/
theorem nil (F : Set ℕ) (unit limit : ℕ) : Extents F unit limit [] :=
  ⟨by simp [bytesOf], List.Pairwise.nil, by simp, by simp⟩

/-- One extent. -/
theorem one {o n : ℕ} (hF : Set.Ico o (o + n) ⊆ F) (ho : unit ∣ o) (hn : unit ∣ n) (hpos : 0 < n)
    (hle : n ≤ limit) : Extents F unit limit [(o, n)] :=
  ⟨bytesOf_one o n ▸ hF, List.pairwise_singleton _ _, by simp [ho, hn], by simp [hpos, hle]⟩

/-- Extents, and then others of what is left. -/
theorem append (h : Extents F unit limit es) (h' : Extents (F \ bytesOf es) unit limit es') :
    Extents F unit limit (es ++ es') where
  free := by
    rw [bytesOf_append]
    exact Set.union_subset h.free (h'.free.trans Set.sdiff_subset)
  disjoint := by
    refine List.pairwise_append.mpr ⟨h.disjoint, h'.disjoint, fun e he e' he' => ?_⟩
    refine Set.disjoint_left.mpr fun x hx hx' => ?_
    exact (h'.free (bytesOf_subset he' hx')).2 (bytesOf_subset he hx)
  aligned e he := (List.mem_append.mp he).elim (h.aligned e) (h'.aligned e)
  bounded e he := (List.mem_append.mp he).elim (h.bounded e) (h'.bounded e)

end Extents

/-- `_allocate`: no assertion fails, whatever the cap, and what it returns was free and is not any
more. -/
theorem Spread.allocateLoop (hover : TakesOver cfg Holds) {k : ℕ} (hk : k < 64)
    (hblock : cfg.blockSize ∣ 2 ^ k) (pastEnd : ℕ) {maxAllocSize : ℕ} (hmax : 0 < maxAllocSize)
    (hdmax : 2 ^ k ∣ maxAllocSize) (n : ℕ) :
    ∀ {F : Set ℕ} {t : AvlAllocator σ} {rest : ℕ}, Spread cfg Holds [] F t → Capped cfg t →
      2 ^ k ∣ rest → ∃ t' es,
        AvlAllocator.allocateLoop cfg pastEnd (2 ^ k) maxAllocSize n rest t = some (t', es) ∧
        Extents F (2 ^ k) maxAllocSize es ∧ total es ≤ rest ∧
        Spread cfg Holds [] (F \ bytesOf es) t' ∧ Capped cfg t' := by
  have hdone : ∀ {F : Set ℕ} {t : AvlAllocator σ} (rest : ℕ), Spread cfg Holds [] F t →
      Capped cfg t → Extents F (2 ^ k) maxAllocSize [] ∧ total [] ≤ rest ∧
        Spread cfg Holds [] (F \ bytesOf []) t ∧ Capped cfg t := by
    intro F t rest h hcap
    refine ⟨.nil _ _ _, Nat.zero_le _, ?_, hcap⟩
    simpa [bytesOf] using h
  induction n with
  | zero => exact fun h hcap _ => ⟨_, [], rfl, hdone _ h hcap⟩
  | succ n ih =>
    intro F t rest h hcap hrest
    rw [AvlAllocator.allocateLoop]
    split_ifs with h0
    · exact ⟨t, [], rfl, hdone rest h hcap⟩
    · have hdmin : 2 ^ k ∣ min maxAllocSize rest := by
        rcases min_choice maxAllocSize rest with hm | hm <;> rw [hm] <;> assumption
      rcases h.allocateSingle hover hcap hk hblock pastEnd (by omega) hdmin with
        hs | ⟨o, len, t1, hs, ho, hl, hpos, hle, hsub, h1, hcap1⟩
      · rw [hs]
        exact ⟨t, [], rfl, hdone rest h hcap⟩
      · obtain ⟨t2, es, hloop, hes, htot, h2, hcap2⟩ := ih h1 hcap1 (Nat.dvd_sub hrest hl)
        have hone : Extents F (2 ^ k) maxAllocSize [(o, len)] :=
          .one hsub ho hl hpos (by omega)
        have htotal : total ((o, len) :: es) = len + total es := List.sum_cons
        have hbytes : F \ bytesOf ((o, len) :: es) = (F \ Set.Ico o (o + len)) \ bytesOf es :=
          (diff_bytesOf_cons F o len es).symm
        rw [hs]
        refine ⟨t2, (o, len) :: es, by simp [hloop], ?_, by omega, hbytes ▸ h2, hcap2⟩
        exact hone.append (bytesOf_one o len ▸ hes)

/-! ## Removing what may have spilt over -/

section

variable (cfg)

/-- The loop of `_try_remove_from_tree`, of at most `n` ranges, with the iterator at `rs`. It says
how far it came. `cb` is the callback. The range behind `rs` may have spilt over when the loop looks
at it; what its node holds then is `stale`. -/
def tryRemoveLoop (cb : σ → ℕ → ℕ → Bool → Option σ) (stale stop : ℕ) :
    ℕ → ℕ → RangeSeg → AvlAllocator σ → Option (ℕ × AvlAllocator σ)
  | 0, start, _, t => some (start, t)
  | n + 1, start, rs, t =>
    match t.rangeTree.dropWhile fun r => r ≠ rs with
    | [] => none
    | rs :: after => do
      let child ← (if start < rs.1 then cb t.child start (rs.1 - start) false else some t.child)
      let start := max start rs.1
      let rangeEnd := min rs.2 stop
      let t ← processRangeRemoval cfg { t with child := child } start rangeEnd
        (t.rangeTree.takeWhile fun r => r ≠ rs) rs after
      let child ← cb t.child start (rangeEnd - start) true
      let t := { t with child := child }
      match after.head? with
      | none => some (rangeEnd, t)
      | some next =>
        if (if next ∈ t.rangeTree then next.1 else stale) < stop ∧ rangeEnd < stop then
          tryRemoveLoop cb stale stop n rangeEnd next t
        else some (rangeEnd, t)

/-- `_try_remove_from_tree`. -/
def tryRemoveFromTree (cb : σ → ℕ → ℕ → Bool → Option σ) (stale : ℕ) (t : AvlAllocator σ)
    (start size : ℕ) : Option (AvlAllocator σ) :=
  let notFound (t : AvlAllocator σ) (start size : ℕ) : Option (AvlAllocator σ) :=
    (cb t.child start size false).map fun child => { t with child := child }
  if size = 0 then none
  else
    let stop := start + size
    match t.rangeTree.dropWhile fun r => r.2 ≤ start with
    | [] => notFound t start size
    | rs :: _ =>
      if stop ≤ rs.1 then notFound t start size
      else do
        let (start, t) ← tryRemoveLoop cfg cb stale stop t.rangeTree.length start rs t
        if start < stop then notFound t start (stop - start) else some t

variable (Holds)

/-- The callback takes a range that was not found from what the subclass holds, and does nothing
for one that was. -/
structure Yields (cb : σ → ℕ → ℕ → Bool → Option σ) : Prop where
  /-- A range that was found. -/
  found : ∀ c s n, cb c s n true = some c
  /-- A range that was not. -/
  missing : ∀ c C s e, Holds c C → cfg.blockSize ∣ s → cfg.blockSize ∣ e → s < e →
    e ≤ cfg.deviceSize → Set.Ico s e ⊆ C →
    ∃ c', cb c s (e - s) false = some c' ∧ Holds c' (C \ Set.Ico s e)

end

variable {cb : σ → ℕ → ℕ → Bool → Option σ}

/-- Free bytes that are in no range of the tree are taken from the subclass. -/
theorem Spread.yield (hcb : Yields cfg Holds cb) (h : Spread cfg Holds extra F t) {s e : ℕ}
    (hds : cfg.blockSize ∣ s) (hde : cfg.blockSize ∣ e) (hse : s < e) (hF : Set.Ico s e ⊆ F)
    (hout : ∀ q ∈ t.rangeTree, q.2 ≤ s ∨ e ≤ q.1) :
    ∃ c', cb t.child s (e - s) false = some c' ∧
      Spread cfg Holds extra (F \ Set.Ico s e) { t with child := c' } := by
  obtain ⟨A, C, hshared⟩ := h.shared
  have hA : Disjoint A (Set.Ico s e) := by
    refine Set.disjoint_left.mpr fun x hx hin => ?_
    obtain ⟨q, hq, h1, h2⟩ := (hshared.runs.mem x).mp hx
    have hside := hout q hq
    have hin' : s ≤ x ∧ x < e := hin
    omega
  have hC : Set.Ico s e ⊆ C := fun x hx =>
    (hshared.total ▸ hF hx).resolve_left (hA.notMem_of_mem_right hx)
  have hdev := hshared.within.mem (e - 1) (hF ⟨by omega, by omega⟩)
  obtain ⟨c', hc', hholds⟩ := hcb.missing _ C s e hshared.holds hds hde hse (by omega) hC
  refine ⟨c', hc', ⟨A, _, hshared.runs, hshared.blocks, hholds,
    hshared.apart.mono_right Set.sdiff_subset, ?_, hshared.within.device,
    fun x hx => hshared.within.mem x hx.1⟩, h.perm, h.sized.perm, h.sized.sorted, h.sized.numFree⟩
  rw [← hshared.total, Set.union_sdiff_distrib, hA.sdiff_eq_left]

/-- A range is taken out in two steps. -/
theorem sdiff_ico_ico {a b c : ℕ} (hab : a ≤ b) (hbc : b ≤ c) :
    (F \ Set.Ico a b) \ Set.Ico b c = F \ Set.Ico a c := by
  rw [Set.sdiff_sdiff, Set.Ico_union_Ico_eq_Ico hab hbc]

/-- What the loop leaves when it has come to `p`: no range of the tree is before the end. -/
structure CameTo (cfg : AvlConfig σ) (Holds : σ → Set ℕ → Prop) (F : Set ℕ) (start stop : ℕ)
    (out : ℕ × AvlAllocator σ) : Prop where
  /-- It does not come too far. -/
  le : start ≤ out.1 ∧ out.1 ≤ stop
  /-- It comes to the end of a block. -/
  dvd : cfg.blockSize ∣ out.1
  /-- What it has passed is not free. -/
  spread : Spread cfg Holds [] (F \ Set.Ico start out.1) out.2
  /-- The ranges are no more than the cap. -/
  capped : Capped cfg out.2
  /-- No range is in what is left. -/
  clear : out.1 < stop → ∀ q ∈ out.2.rangeTree, q.2 ≤ out.1 ∨ stop ≤ q.1

/-- What is left of a range that was taken out up to its end. -/
theorem pieces_le {m : ℕ} (hm : m ≤ r.2) : ∀ p ∈ MaximalRuns.pieces r m r.2, p.2 ≤ r.2 := by
  intro p hp
  unfold MaximalRuns.pieces at hp
  split_ifs at hp <;> simp_all

/-- The loop of `_try_remove_from_tree`: no assertion fails, and the iterator is not used when its
range has spilt over. -/
theorem Spread.tryRemoveLoop (hover : TakesOver cfg Holds) (hcb : Yields cfg Holds cb)
    (stale : ℕ) {stop : ℕ} (hdstop : cfg.blockSize ∣ stop) (n : ℕ) :
    ∀ {F : Set ℕ} {t : AvlAllocator σ} {rs : RangeSeg} {before after : List RangeSeg} {start : ℕ},
      Spread cfg Holds [] F t → Capped cfg t → t.rangeTree = before ++ rs :: after →
      (∀ q ∈ before, q.2 ≤ start) → start < rs.2 → rs.1 < stop → start < stop →
      Set.Ico start stop ⊆ F → cfg.blockSize ∣ start → after.length < n →
      ∃ out, AvlAllocator.tryRemoveLoop cfg cb stale stop n start rs t = some out ∧
        CameTo cfg Holds F start stop out := by
  induction n with
  | zero => exact fun _ _ _ _ _ _ _ _ _ hn => absurd hn (Nat.not_lt_zero _)
  | succ n ih =>
    intro F t rs before after start h hcap htree hbefore hrs hstop hlt hF hds hn
    -- The ranges before the iterator, the one that it is at, and those behind it.
    obtain ⟨A, C, hshared⟩ := h.shared
    have hruns := hshared.runs
    obtain ⟨hd1, hd2⟩ := hshared.blocks.dvd hruns (r := rs) (by simp [htree])
    rw [htree] at hruns
    have hne := hruns.nonempty rs (by simp)
    have hafter : ∀ q ∈ after, rs.2 < q.1 :=
      (List.pairwise_cons.mp (List.pairwise_append.mp hruns.apart).2.1).1
    have hnot : ∀ q ∈ before, decide (q ≠ rs) = true := fun q hq => by
      have hq' : q ≠ rs := fun heq => hruns.notMem_before (heq ▸ hq)
      simpa using hq'
    have htake : t.rangeTree.takeWhile (fun r => decide (r ≠ rs)) = before := by
      rw [htree, List.takeWhile_append_of_pos hnot]
      simp
    have hdrop : t.rangeTree.dropWhile (fun r => decide (r ≠ rs)) = rs :: after := by
      rw [htree, List.dropWhile_append_of_pos hnot]
      simp
    obtain ⟨m, hm⟩ : ∃ m, m = max start rs.1 := ⟨_, rfl⟩
    obtain ⟨e, he⟩ : ∃ e, e = min rs.2 stop := ⟨_, rfl⟩
    have hdm : cfg.blockSize ∣ m := by
      rcases max_choice start rs.1 with hc | hc <;> rw [hm, hc] <;> assumption
    have hde : cfg.blockSize ∣ e := by
      rcases min_choice rs.2 stop with hc | hc <;> rw [he, hc] <;> assumption
    -- What is before the range is taken from the subclass.
    obtain ⟨c', hc', hgap⟩ : ∃ c', (if start < rs.1 then cb t.child start (rs.1 - start) false
        else some t.child) = some c' ∧
        Spread cfg Holds [] (F \ Set.Ico start m) { t with child := c' } := by
      split_ifs with hfirst
      · have hm1 : m = rs.1 := by omega
        rw [hm1]
        refine h.yield hcb hds hd1 hfirst (fun x hx => hF ⟨hx.1, hx.2.trans hstop⟩) ?_
        intro q hq
        rw [htree] at hq
        rcases List.mem_append.mp hq with hq | hq
        · exact .inl (hbefore q hq)
        · rcases List.mem_cons.mp hq with rfl | hq
          · exact .inr le_rfl
          · exact .inr ((hafter q hq).le.trans' hne.le)
      · have hm1 : m = start := by omega
        refine ⟨t.child, rfl, ?_⟩
        rw [hm1, Set.Ico_self, Set.sdiff_empty]
        exact h
    -- Then what the range has of it is taken out of the tree.
    obtain ⟨t2, h2, hs2, hcap2, hend⟩ := hgap.processRangeRemoval hover hcap htree
      (show rs.1 ≤ m by omega) (show m < e by omega) (show e ≤ rs.2 by omega) hdm hde
    rw [sdiff_ico_ico (by omega) (by omega)] at hs2
    -- Short of the end the whole of the range goes, so the ranges behind it are where they were.
    have hprefix : e < stop → t2.rangeTree = before ++ MaximalRuns.pieces rs m e ++ after ∧
        ∀ q ∈ before ++ MaximalRuns.pieces rs m e, q.2 ≤ e := by
      intro hes
      have her : e = rs.2 := by omega
      refine ⟨hend her.symm, fun q hq => ?_⟩
      rcases List.mem_append.mp hq with hq | hq
      · have := hbefore q hq
        omega
      · rw [her] at hq ⊢
        exact pieces_le (by omega) q hq
    -- So the loop may end here when the ranges behind are past the end.
    have hdone : (e < stop → ∀ q ∈ after, stop ≤ q.1) →
        CameTo cfg Holds F start stop (e, t2) := by
      intro hclear
      refine ⟨⟨by simp only; omega, by simp only; omega⟩, hde, hs2, hcap2, fun hes q hq => ?_⟩
      obtain ⟨htree2, hle⟩ := hprefix hes
      rw [htree2] at hq
      exact (List.mem_append.mp hq).imp (hle q) (hclear hes q)
    unfold AvlAllocator.tryRemoveLoop
    simp only [hdrop, htake, hc', ← hm, ← he, Option.bind_eq_bind, Option.bind_some, h2, hcb.found]
    cases after with
    | nil => exact ⟨_, rfl, hdone fun _ q hq => by cases hq⟩
    | cons next after =>
      obtain ⟨read, hread⟩ : ∃ read, read = if next ∈ t2.rangeTree then next.1 else stale :=
        ⟨_, rfl⟩
      simp only [List.head?_cons, ← hread]
      split_ifs with hgo
      · -- Nothing has spilt over, and the loop goes on behind the range.
        obtain ⟨htree2, hle⟩ := hprefix hgo.2
        have hnext : next.1 < stop := by
          have hin : next ∈ t2.rangeTree := by simp [htree2]
          rw [if_pos hin] at hread
          exact hread ▸ hgo.1
        have her : e = rs.2 := by omega
        have hn1 := hafter next (by simp)
        have hn2 := hruns.nonempty next (by simp)
        obtain ⟨out, hout, hcame⟩ := ih hs2 hcap2 htree2 hle (by omega) hnext hgo.2
          (fun x hx => ⟨hF ⟨by have := hx.1; omega, hx.2⟩, fun hx' => by
            have := hx.1
            have := hx'.2
            omega⟩) hde (by simpa using hn)
        have hbytes : (F \ Set.Ico start e) \ Set.Ico e out.1 = F \ Set.Ico start out.1 :=
          sdiff_ico_ico (by omega) hcame.le.1
        exact ⟨out, hout, ⟨by have := hcame.le.1; omega, hcame.le.2⟩, hcame.dvd,
          hbytes ▸ hcame.spread, hcame.capped, hcame.clear⟩
      -- The iterator is not used any more: what it would say of the next range still holds.
      · refine ⟨_, rfl, hdone fun hes q hq => ?_⟩
        obtain ⟨htree2, -⟩ := hprefix hes
        have hin : next ∈ t2.rangeTree := by simp [htree2]
        rw [if_pos hin] at hread
        have hnext : stop ≤ next.1 := hread ▸ not_lt.mp fun hlt => hgo ⟨hlt, hes⟩
        rcases List.mem_cons.mp hq with rfl | hq
        · exact hnext
        · have hap := (List.pairwise_append.mp hruns.apart).2.1
          have hq1 := (List.pairwise_cons.mp (List.pairwise_cons.mp hap).2).1 q hq
          have hn2 := hruns.nonempty next (by simp)
          omega

/-- `_try_remove_from_tree` of free whole blocks: no assertion fails, whatever the cap, and they are
not free. -/
theorem Spread.tryRemoveFromTree (hover : TakesOver cfg Holds) (hcb : Yields cfg Holds cb)
    (stale : ℕ) (h : Spread cfg Holds [] F t) (hcap : Capped cfg t) {start size : ℕ}
    (hds : cfg.blockSize ∣ start) (hdl : cfg.blockSize ∣ size) (hsize : 0 < size)
    (hF : Set.Ico start (start + size) ⊆ F) :
    ∃ t', AvlAllocator.tryRemoveFromTree cfg cb stale t start size = some t' ∧
      Spread cfg Holds [] (F \ Set.Ico start (start + size)) t' ∧ Capped cfg t' := by
  obtain ⟨stop, hstop⟩ : ∃ stop, stop = start + size := ⟨_, rfl⟩
  have hdstop : cfg.blockSize ∣ stop := hstop ▸ dvd_add hds hdl
  have hlen : stop - start = size := by omega
  obtain ⟨A, C, hshared⟩ := h.shared
  -- The search skips the ranges that end before the start.
  have hfore : ∀ q ∈ t.rangeTree.takeWhile (fun r => decide (r.2 ≤ start)), q.2 ≤ start :=
    fun q hq => by simpa using List.mem_takeWhile_imp hq
  have htree := (List.takeWhile_append_dropWhile (p := fun r : RangeSeg => decide (r.2 ≤ start))
    (l := t.rangeTree)).symm
  rw [← hstop] at hF ⊢
  -- Where no range of the tree meets them, they are all taken from the subclass.
  have hmiss : (∀ q ∈ t.rangeTree.dropWhile (fun r => decide (r.2 ≤ start)), stop ≤ q.1) →
      ∃ t', (cb t.child start size false).map (fun child => { t with child := child }) = some t' ∧
        Spread cfg Holds [] (F \ Set.Ico start stop) t' ∧ Capped cfg t' := by
    intro haft
    obtain ⟨c', hc', hs⟩ := h.yield hcb hds hdstop (by omega) hF fun q hq => by
      rw [htree] at hq
      exact (List.mem_append.mp hq).imp (hfore q) (haft q)
    exact ⟨_, by rw [← hlen, hc']; rfl, hs, hcap⟩
  unfold AvlAllocator.tryRemoveFromTree
  simp only [if_neg hsize.ne', ← hstop]
  cases hdrop : t.rangeTree.dropWhile (fun r => decide (r.2 ≤ start)) with
  | nil => exact hmiss fun q hq => by rw [hdrop] at hq; cases hq
  | cons rs after =>
    have hruns := hshared.runs
    rw [htree, hdrop] at hruns
    simp only
    split_ifs with hbeyond
    -- The first range that is left begins behind the end.
    · refine hmiss fun q hq => ?_
      rw [hdrop] at hq
      rcases List.mem_cons.mp hq with rfl | hq
      · exact hbeyond
      · have hap := (List.pairwise_append.mp hruns.apart).2.1
        have hq1 := (List.pairwise_cons.mp hap).1 q hq
        have hne := hruns.nonempty rs (by simp)
        omega
    -- The loop takes what the ranges have, and what is behind the last one is the subclass's.
    · have hrs : start < rs.2 := by
        have hhead :=
          List.head?_dropWhile_not (fun r : RangeSeg => decide (r.2 ≤ start)) t.rangeTree
        rw [hdrop] at hhead
        simpa using hhead
      obtain ⟨⟨p, t1⟩, hloop, hcame⟩ := h.tryRemoveLoop hover hcb stale hdstop
        t.rangeTree.length hcap (htree.trans (by rw [hdrop])) hfore hrs (by omega) (by omega) hF
        hds (by
          rw [htree, hdrop, List.length_append, List.length_cons]
          omega)
      have hle : start ≤ p ∧ p ≤ stop := hcame.le
      rw [hloop, Option.bind_eq_bind, Option.bind_some]
      simp only
      split_ifs with hrest
      · obtain ⟨c', hc', hs⟩ := hcame.spread.yield hcb hcame.dvd hdstop hrest
          (fun x hx => ⟨hF ⟨hle.1.trans hx.1, hx.2⟩, fun hx' => by
            have h1 : p ≤ x := hx.1
            have h2 : x < p := hx'.2
            omega⟩) (hcame.clear hrest)
        rw [sdiff_ico_ico hle.1 hle.2] at hs
        exact ⟨_, by rw [hc']; rfl, hs, hcame.capped⟩
      · have hp : p = stop := by omega
        exact ⟨t1, rfl, hp ▸ hcame.spread, hcame.capped⟩

end Blk.AvlAllocator

end CxxLab
