import CxxLab.Blk.AvlAllocator

/-!
# The trees of the AVL allocator

What the allocator represents: a set of free bytes. `Rep` says that `range_tree_` is the list of
its maximal runs, that `range_size_tree_` holds the same ranges in the order of their lengths, and
that `num_free_` is the sum of their lengths. Every call that adds what is not free or removes
what is free keeps this, and none of the assertions on the way fails, with one exception:
`allocate` rounds the largest extent down to a multiple of the block size, and a block size that
is a multiple of `2 ^ 32` leaves zero bytes, which an assertion then refuses.
-/

namespace CxxLab.Blk.AvlAllocator

variable {σ : Type} {cfg : AvlConfig σ}

/-! ## The tree of lengths -/

/-- The sum of the lengths of ranges. -/
def sumLen (l : List RangeSeg) : ℕ := (l.map RangeSeg.len).sum

/-- No ranges have no bytes. -/
@[simp] theorem sumLen_nil : sumLen [] = 0 := rfl

/-- The first range counts with its length. -/
@[simp] theorem sumLen_cons (r : RangeSeg) (l : List RangeSeg) :
    sumLen (r :: l) = r.len + sumLen l := by
  simp [sumLen]

/-- The lengths of two lists of ranges add up. -/
@[simp] theorem sumLen_append (l l' : List RangeSeg) :
    sumLen (l ++ l') = sumLen l + sumLen l' := by
  simp [sumLen]

/-- The sum does not depend on the order. -/
theorem sumLen_perm {l l' : List RangeSeg} (h : l.Perm l') : sumLen l = sumLen l' :=
  (h.map _).sum_eq

/-- `range_size_tree_` holds the ranges of `l` in the order of their lengths, and `num_free_` is
their sum. -/
structure Sized (t : AvlAllocator σ) (l : List RangeSeg) : Prop where
  /-- The tree holds the ranges. -/
  perm : t.rangeSizeTree.Perm l
  /-- It is in order. -/
  sorted : t.rangeSizeTree.Pairwise fun r q => q.shorter r = false
  /-- `num_free_` is their sum. -/
  numFree : t.numFree = sumLen l

/-- The order of lengths. -/
theorem shorter_iff {r q : RangeSeg} :
    r.shorter q = true ↔ r.len < q.len ∨ r.len = q.len ∧ r.1 < q.1 := by
  simp [RangeSeg.shorter]

/-- An insertion adds the range. -/
theorem sizeInsert_perm (r : RangeSeg) (l : List RangeSeg) : (sizeInsert r l).Perm (r :: l) := by
  induction l with
  | nil => exact List.Perm.refl _
  | cons q l ih =>
    rw [sizeInsert]
    split_ifs
    · exact List.Perm.refl _
    · exact (ih.cons q).trans (List.Perm.swap r q l)

/-- An insertion keeps the order. -/
theorem sizeInsert_sorted (r : RangeSeg) {l : List RangeSeg}
    (h : l.Pairwise fun r q => q.shorter r = false) :
    (sizeInsert r l).Pairwise fun r q => q.shorter r = false := by
  induction l with
  | nil => exact List.pairwise_singleton _ _
  | cons q l ih =>
    obtain ⟨hq, hl⟩ := List.pairwise_cons.mp h
    rw [sizeInsert]
    split_ifs with hr
    · refine List.pairwise_cons.mpr ⟨fun x hx => ?_, h⟩
      have hqx : q = x ∨ x.shorter q = false := by
        rcases List.mem_cons.mp hx with rfl | hx
        · exact .inl rfl
        · exact .inr (hq x hx)
      rw [← Bool.not_eq_true, shorter_iff] at hqx ⊢
      rw [shorter_iff] at hr
      rcases hqx with rfl | hqx
      · omega
      · omega
    · refine List.pairwise_cons.mpr ⟨fun x hx => ?_, ih hl⟩
      rcases List.mem_cons.mp ((sizeInsert_perm r l).mem_iff.mp hx) with rfl | hx
      · exact Bool.not_eq_true _ ▸ hr
      · exact hq x hx

namespace Sized

variable {t : AvlAllocator σ} {l l' : List RangeSeg} {r : RangeSeg}

/-- The ranges in another order. -/
theorem of_perm (h : Sized t l) (hp : l.Perm l') : Sized t l' :=
  ⟨h.perm.trans hp, h.sorted, h.numFree.trans (sumLen_perm hp)⟩

/-- `range_tree_` plays no part. -/
theorem setTree (h : Sized t l) (rangeTree : List RangeSeg) :
    Sized { t with rangeTree := rangeTree } l := ⟨h.perm, h.sorted, h.numFree⟩

/-- A range is inserted and counted. -/
theorem countIn (h : Sized t l) (r : RangeSeg) : Sized (t.countIn r) (r :: l) where
  perm := (sizeInsert_perm r _).trans (h.perm.cons r)
  sorted := sizeInsert_sorted r h.sorted
  numFree := by
    change t.numFree + r.len = _
    rw [h.numFree, sumLen_cons, Nat.add_comm]

/-- `_range_size_tree_rm` of a range that the tree holds: its assertion does not fail. -/
theorem rm (h : Sized t (r :: l)) : ∃ t', t.rangeSizeTreeRm r = some t' ∧ Sized t' l ∧
    t'.rangeTree = t.rangeTree ∧ t'.lbas = t.lbas ∧ t'.child = t.child := by
  have hle : r.len ≤ t.numFree := by
    rw [h.numFree, sumLen_cons]
    exact Nat.le_add_right _ _
  refine ⟨_, if_pos hle, ⟨?_, h.sorted.sublist List.erase_sublist, ?_⟩, rfl, rfl, rfl⟩
  · have := h.perm.erase r
    rwa [List.erase_cons_head] at this
  · change t.numFree - r.len = _
    rw [h.numFree, sumLen_cons, Nat.add_sub_cancel_left]

end Sized

/-! ## Insertion without a cap -/

/-- Without a cap a range is inserted where it was to be. -/
theorem tryInsertRange_pos (hcap : cfg.rangeCountCap = 0) (t : AvlAllocator σ) (s e : ℕ)
    (before after : List RangeSeg) : tryInsertRange cfg t s e (some (before, after)) =
      some (({ t with rangeTree := before ++ (s, e) :: after }).countIn (s, e), true) := by
  simp [tryInsertRange, hcap]

/-- Without a cap a range that is in `range_tree_` is inserted and counted. -/
theorem rangeSizeTreeTryInsert_eq (hcap : cfg.rangeCountCap = 0) (t : AvlAllocator σ)
    (r : RangeSeg) : rangeSizeTreeTryInsert cfg t r = some (t.countIn r) := by
  simp [rangeSizeTreeTryInsert, tryInsertRange, hcap]

/-! ## What the allocator represents -/

/-- The trees represent the free bytes `F`. -/
structure Rep (F : Set ℕ) (t : AvlAllocator σ) : Prop where
  /-- `range_tree_` has the maximal runs. -/
  runs : MaximalRuns F t.rangeTree
  /-- `range_size_tree_` has the same ranges, and `num_free_` is their sum. -/
  sized : Sized t t.rangeTree

/-- A new allocator has no free byte. -/
theorem rep_init (child : σ) : Rep ∅ (init child) :=
  ⟨.nil rfl, ⟨List.Perm.refl _, List.Pairwise.nil, rfl⟩⟩

/-- Two ranges in the middle of a list come to its front. -/
theorem perm_front {a m b : List RangeSeg} : (a ++ m ++ b).Perm (m ++ (a ++ b)) := by
  rw [List.append_assoc]
  exact (List.perm_append_comm.trans (by rw [List.append_assoc])).trans
    (List.Perm.append_left m List.perm_append_comm)

/-! ## Adding a range -/

/-- The ranges before the end of a range that is not free end before its start. -/
theorem before_le {F : Set ℕ} {l : List RangeSeg} (h : MaximalRuns F l) {s e : ℕ} (hse : s < e)
    (hF : ∀ x, s ≤ x → x < e → x ∉ F) {r : RangeSeg} (hr : r ∈ l.takeWhile fun r => r.1 < e) :
    r.2 ≤ s := by
  have hre : r.1 < e := by simpa using List.mem_takeWhile_imp hr
  have hrl : r ∈ l := (List.takeWhile_sublist _).subset hr
  have hne := h.nonempty r hrl
  by_contra hlt
  -- The later of the two starts is in both ranges.
  refine hF (max r.1 s) (le_max_right _ _) (max_lt hre hse) ?_
  exact (h.mem _).mpr ⟨r, hrl, le_max_left _ _, max_lt hne (not_le.mp hlt)⟩

/-- The other ranges start behind its end. -/
theorem le_after {F : Set ℕ} {l : List RangeSeg} (h : MaximalRuns F l) {e : ℕ} {r : RangeSeg}
    (hr : r ∈ l.dropWhile fun r => r.1 < e) : e ≤ r.1 := by
  have hsub : (l.dropWhile fun r => r.1 < e).Sublist l := List.dropWhile_sublist _
  have hap := h.apart.sublist hsub
  have hhead := List.head?_dropWhile_not (fun r : RangeSeg => decide (r.1 < e)) l
  cases ha : l.dropWhile fun r => r.1 < e with
  | nil => simp [ha] at hr
  | cons q b =>
    rw [ha] at hr hap hhead
    have hq : e ≤ q.1 := by simpa using hhead
    rcases List.mem_cons.mp hr with rfl | hr
    · exact hq
    · have hqr := (List.pairwise_cons.mp hap).1 r hr
      have hne := h.nonempty q (hsub.subset (by simp [ha]))
      omega

/-- The range before, when it touches. -/
theorem getLast_filter_some {l : List RangeSeg} {p : RangeSeg → Bool} {r : RangeSeg}
    (h : l.getLast?.filter p = some r) : ∃ a, l = a ++ [r] ∧ p r = true := by
  obtain ⟨hl, hp⟩ := Option.filter_eq_some_iff.mp h
  obtain ⟨a, ha⟩ := List.getLast?_eq_some_iff.mp hl
  exact ⟨a, ha, hp⟩

/-- The range after, when it touches. -/
theorem head_filter_some {l : List RangeSeg} {p : RangeSeg → Bool} {r : RangeSeg}
    (h : l.head?.filter p = some r) : ∃ b, l = r :: b ∧ p r = true := by
  obtain ⟨hl, hp⟩ := Option.filter_eq_some_iff.mp h
  obtain ⟨b, hb⟩ := List.head?_eq_some_iff.mp hl
  exact ⟨b, hb, hp⟩

/-- When the last of the ranges before does not touch, none does. -/
theorem before_lt {l : List RangeSeg} {s : ℕ} (hne : ∀ r ∈ l, r.1 < r.2)
    (hap : l.Pairwise fun r q => r.2 < q.1) (hle : ∀ r ∈ l, r.2 ≤ s)
    (h : l.getLast?.filter (fun r => r.2 = s) = none) {r : RangeSeg} (hr : r ∈ l) : r.2 < s := by
  rcases List.eq_nil_or_concat l with rfl | ⟨a, q, rfl⟩
  · simp at hr
  · rw [List.concat_eq_append] at *
    have hq : q.2 ≠ s := by simpa using h
    have hqs := hle q (by simp)
    rcases List.mem_append.mp hr with hr | hr
    · have hrq := (List.pairwise_append.mp hap).2.2 r hr q (by simp)
      have := hne q (by simp)
      omega
    · rw [List.mem_singleton.mp hr]
      omega

/-- When the first of the ranges after does not touch, none does. -/
theorem lt_after {l : List RangeSeg} {e : ℕ} (hne : ∀ r ∈ l, r.1 < r.2)
    (hap : l.Pairwise fun r q => r.2 < q.1) (hle : ∀ r ∈ l, e ≤ r.1)
    (h : l.head?.filter (fun r => r.1 = e) = none) {r : RangeSeg} (hr : r ∈ l) : e < r.1 := by
  cases l with
  | nil => simp at hr
  | cons q b =>
    have hq : q.1 ≠ e := by simpa using h
    have hqe := hle q (by simp)
    rcases List.mem_cons.mp hr with rfl | hr
    · omega
    · have hqr := (List.pairwise_cons.mp hap).1 r hr
      have := hne q (by simp)
      omega

/-- The trees after some ranges in the middle have been replaced. -/
theorem rep_replace {F F' : Set ℕ} {a m n b : List RangeSeg} {t' : AvlAllocator σ}
    (h : MaximalRuns F (a ++ m ++ b)) (ht : t'.rangeTree = a ++ n ++ b)
    (hs : Sized t' (n ++ (a ++ b)))
    (hne : ∀ r ∈ n, r.1 < r.2) (hm : n.Pairwise fun r q => r.2 < q.1)
    (ha : ∀ r ∈ a, ∀ q ∈ n, r.2 < q.1) (hb : ∀ q ∈ n, ∀ r ∈ b, q.2 < r.1)
    (hF : ∀ x, x ∈ F' ↔ (∃ r ∈ n, r.1 ≤ x ∧ x < r.2) ∨
      x ∈ F ∧ ¬ ∃ r ∈ m, r.1 ≤ x ∧ x < r.2) : Rep F' t' where
  runs := ht ▸ h.replace hne hm ha hb hF
  sized := ht ▸ hs.of_perm perm_front.symm

/-- `_add_to_tree` of a range that is not free: no assertion fails, and the range is free. -/
theorem Rep.addToTree {F : Set ℕ} {t : AvlAllocator σ} (h : Rep F t)
    (hcap : cfg.rangeCountCap = 0) {s size : ℕ} (hsize : 0 < size)
    (hF : ∀ x, s ≤ x → x < s + size → x ∉ F) :
    ∃ t', AvlAllocator.addToTree cfg t s size = some t' ∧
      Rep (F ∪ {x | s ≤ x ∧ x < s + size}) t' := by
  obtain ⟨e, he⟩ : ∃ e, e = s + size := ⟨_, rfl⟩
  -- The ranges before the new one and those behind it.
  obtain ⟨before, hbef⟩ : ∃ l, l = t.rangeTree.takeWhile fun r => r.1 < e := ⟨_, rfl⟩
  obtain ⟨after, haft⟩ : ∃ l, l = t.rangeTree.dropWhile fun r => r.1 < e := ⟨_, rfl⟩
  have hse : s < e := by omega
  have htree : t.rangeTree = before ++ after := by
    rw [hbef, haft, List.takeWhile_append_dropWhile]
  have hble : ∀ r ∈ before, r.2 ≤ s := fun r hr => before_le h.runs hse (he ▸ hF) (hbef ▸ hr)
  have hale : ∀ r ∈ after, e ≤ r.1 := fun r hr => le_after h.runs (haft ▸ hr)
  have hruns := h.runs
  have hsized := h.sized
  rw [htree] at hruns hsized
  obtain ⟨hapb, hapa, hapba⟩ := List.pairwise_append.mp hruns.apart
  have hneb : ∀ r ∈ before, r.1 < r.2 := fun r hr => hruns.nonempty r (by simp [hr])
  have hnea : ∀ r ∈ after, r.1 < r.2 := fun r hr => hruns.nonempty r (by simp [hr])
  simp only [AvlAllocator.addToTree, if_neg hsize.ne', ← he, ← hbef, ← haft]
  cases hb : before.getLast?.filter (fun r => r.2 = s) with
  -- A range ends where the new one begins, and is joined to it.
  | some rb =>
    obtain ⟨a, rfl, hrb⟩ := getLast_filter_some hb
    have hrb' : rb.2 = s := by simpa using hrb
    have hnb := hneb rb (by simp)
    have hab : ∀ r ∈ a, r.2 < rb.1 := fun r hr =>
      (List.pairwise_append.mp hapb).2.2 r hr rb (by simp)
    cases ha : after.head?.filter (fun r => r.1 = e) with
    | some ra =>
      obtain ⟨b, rfl, hra⟩ := head_filter_some ha
      have hra' : ra.1 = e := by simpa using hra
      have hna := hnea ra (by simp)
      have hperm : (a ++ [rb] ++ ra :: b).Perm (rb :: ra :: (a ++ b)) := by
        have := perm_front (a := a) (m := [rb, ra]) (b := b)
        simpa using this
      obtain ⟨t1, h1, hs1, -, -, -⟩ := (hsized.of_perm hperm).rm
      obtain ⟨t2, h2, hs2, -, -, -⟩ := hs1.rm
      refine ⟨_, by
        simp only [h1, h2, Option.bind_eq_bind, Option.bind_some, List.dropLast_concat,
          List.tail_cons]
        exact rangeSizeTreeTryInsert_eq hcap _ _, ?_⟩
      refine rep_replace (a := a) (m := [rb, ra]) (n := [(rb.1, ra.2)]) (b := b)
        (by simpa using hruns) (by simp [AvlAllocator.countIn]) ((hs2.setTree _).countIn _)
        (by simp; omega) (by simp) (by simpa using hab) ?_ ?_
      · intro q hq r hr
        rw [List.mem_singleton.mp hq]
        exact (List.pairwise_cons.mp hapa).1 r hr
      · intro x
        simp only [Set.mem_union, Set.mem_ofPred_eq, List.mem_cons, List.not_mem_nil, or_false,
          exists_eq_or_imp, exists_eq_left]
        have hrbF : rb.1 ≤ x → x < rb.2 → x ∈ F := fun h1 h2 =>
          (hruns.mem x).mpr ⟨rb, by simp, h1, h2⟩
        have hraF : ra.1 ≤ x → x < ra.2 → x ∈ F := fun h1 h2 =>
          (hruns.mem x).mpr ⟨ra, by simp, h1, h2⟩
        grind
    | none =>
      have hperm : (a ++ [rb] ++ after).Perm (rb :: (a ++ after)) := perm_front
      obtain ⟨t1, h1, hs1, -, -, -⟩ := (hsized.of_perm hperm).rm
      refine ⟨_, by
        simp only [h1, Option.bind_eq_bind, Option.bind_some, List.dropLast_concat]
        exact rangeSizeTreeTryInsert_eq hcap _ _, ?_⟩
      refine rep_replace (a := a) (m := [rb]) (n := [(rb.1, e)]) (b := after)
        hruns (by simp [AvlAllocator.countIn]) ((hs1.setTree _).countIn _)
        (by simp; omega) (by simp) (by simpa using hab) ?_ ?_
      · intro q hq r hr
        rw [List.mem_singleton.mp hq]
        exact lt_after hnea hapa hale ha hr
      · intro x
        simp only [Set.mem_union, Set.mem_ofPred_eq, List.mem_cons, List.not_mem_nil, or_false,
          exists_eq_left]
        have hrbF : rb.1 ≤ x → x < rb.2 → x ∈ F := fun h1 h2 =>
          (hruns.mem x).mpr ⟨rb, by simp, h1, h2⟩
        grind
  -- No range ends where the new one begins.
  | none =>
    cases ha : after.head?.filter (fun r => r.1 = e) with
    | some ra =>
      obtain ⟨b, rfl, hra⟩ := head_filter_some ha
      have hra' : ra.1 = e := by simpa using hra
      have hna := hnea ra (by simp)
      have hperm : (before ++ ra :: b).Perm (ra :: (before ++ b)) := List.perm_middle
      obtain ⟨t1, h1, hs1, -, -, -⟩ := (hsized.of_perm hperm).rm
      refine ⟨_, by
        simp only [h1, Option.bind_eq_bind, Option.bind_some, List.tail_cons]
        exact rangeSizeTreeTryInsert_eq hcap _ _, ?_⟩
      refine rep_replace (a := before) (m := [ra]) (n := [(s, ra.2)]) (b := b)
        (by simpa using hruns) (by simp [AvlAllocator.countIn]) ((hs1.setTree _).countIn _)
        (by simp; omega) (by simp) ?_ ?_ ?_
      · intro r hr q hq
        rw [List.mem_singleton.mp hq]
        exact before_lt hneb hapb hble hb hr
      · intro q hq r hr
        rw [List.mem_singleton.mp hq]
        exact (List.pairwise_cons.mp hapa).1 r hr
      · intro x
        simp only [Set.mem_union, Set.mem_ofPred_eq, List.mem_cons, List.not_mem_nil, or_false,
          exists_eq_left]
        have hraF : ra.1 ≤ x → x < ra.2 → x ∈ F := fun h1 h2 =>
          (hruns.mem x).mpr ⟨ra, by simp, h1, h2⟩
        grind
    | none =>
      refine ⟨_, by
        rw [tryInsertRange_pos hcap]
        rfl, ?_⟩
      refine rep_replace (a := before) (m := []) (n := [(s, e)]) (b := after)
        (by simpa using hruns) (by simp [AvlAllocator.countIn]) ((hsized.setTree _).countIn _)
        (by simp; omega) (by simp) ?_ ?_ ?_
      · intro r hr q hq
        rw [List.mem_singleton.mp hq]
        exact before_lt hneb hapb hble hb hr
      · intro q hq r hr
        rw [List.mem_singleton.mp hq]
        exact lt_after hnea hapa hale ha hr
      · intro x
        simp only [Set.mem_union, Set.mem_ofPred_eq, List.mem_cons, List.not_mem_nil, or_false,
          exists_eq_left]
        grind

/-! ## Removing a range -/

/-- `_remove_from_tree` of a range that is free: no assertion fails, and the range is not free. -/
theorem Rep.removeFromTree {F : Set ℕ} {t : AvlAllocator σ} (h : Rep F t)
    (hcap : cfg.rangeCountCap = 0) {s size : ℕ} (hsize : 0 < size)
    (hF : ∀ x, s ≤ x → x < s + size → x ∈ F) :
    ∃ t', AvlAllocator.removeFromTree cfg t s size = some t' ∧
      Rep (F \ {x | s ≤ x ∧ x < s + size}) t' := by
  obtain ⟨e, he⟩ : ∃ e, e = s + size := ⟨_, rfl⟩
  have hse : s < e := by omega
  -- One range covers what is removed, and the tree is cut around it.
  obtain ⟨r, hr, hrs, hre⟩ := h.runs.exists_run hse (he ▸ hF)
  obtain ⟨a, b, htree⟩ := List.append_of_mem hr
  have hruns := h.runs
  have hsized := h.sized
  rw [htree] at hruns hsized
  obtain ⟨hapa, hapb, hapab⟩ := List.pairwise_append.mp hruns.apart
  have har : ∀ q ∈ a, q.2 < r.1 := fun q hq => hapab q hq r (by simp)
  have hrb : ∀ q ∈ b, r.2 < q.1 := (List.pairwise_cons.mp hapb).1
  have hale : ∀ q ∈ a, decide (q.2 ≤ s) = true := fun q hq => by
    have := har q hq
    simp only [decide_eq_true_eq]
    omega
  have hrlt : decide (r.2 ≤ s) = false := by
    simp only [decide_eq_false_iff_not]
    omega
  have htake : t.rangeTree.takeWhile (fun q => q.2 ≤ s) = a := by
    rw [htree, List.takeWhile_append_of_pos hale]
    simp [hrlt]
  have hdrop : t.rangeTree.dropWhile (fun q => q.2 ≤ s) = r :: b := by
    rw [htree, List.dropWhile_append_of_pos hale]
    simp [hrlt]
  have hperm : (a ++ r :: b).Perm (r :: (a ++ b)) := List.perm_middle
  have hnum : size ≤ t.numFree := by
    rw [(hsized.of_perm hperm).numFree, sumLen_cons, RangeSeg.len]
    omega
  -- The range leaves both trees before what is left of it enters them.
  obtain ⟨t1, h1, hs1, -, -, -⟩ := (hsized.of_perm hperm).rm
  have hmem : ∀ x, r.1 ≤ x → x < r.2 → x ∈ F := fun x h1 h2 =>
    (hruns.mem x).mpr ⟨r, by simp, h1, h2⟩
  have hruns' : MaximalRuns F (a ++ [r] ++ b) := by simpa using hruns
  simp only [AvlAllocator.removeFromTree, if_neg hsize.ne', ← he, htake, hdrop]
  rw [if_pos ⟨by omega, hrs, hre, hnum⟩]
  simp only [processRangeRemoval, h1, Option.bind_eq_bind, Option.bind_some]
  -- What is left: nothing, a piece on one side, or a piece on each.
  by_cases hleft : r.1 = s
  · by_cases hright : r.2 = e
    · refine ⟨{ t1 with rangeTree := a ++ b }, by simp [hleft, hright], ?_⟩
      refine rep_replace (n := []) hruns' (by simp) (hs1.setTree _) (by simp) (by simp) (by simp)
        (by simp) fun x => ?_
      simp only [Set.mem_sdiff, Set.mem_ofPred_eq, List.mem_cons, List.not_mem_nil, or_false,
        exists_eq_left, false_and, exists_false, false_or]
      rw [hleft, hright]
    · refine ⟨_, by
        simp only [hleft, hright, ne_eq, not_true_eq_false, false_and, if_false,
          not_false_eq_true, if_true]
        exact rangeSizeTreeTryInsert_eq hcap _ _, ?_⟩
      refine rep_replace (n := [(e, r.2)]) hruns' (by simp [AvlAllocator.countIn])
        ((hs1.setTree _).countIn _) (by simp; omega) (by simp) ?_ (by simpa using hrb) fun x => ?_
      · intro q hq p hp
        rw [List.mem_singleton.mp hp]
        have := har q hq
        change q.2 < e
        omega
      · simp only [Set.mem_sdiff, Set.mem_ofPred_eq, List.mem_cons, List.not_mem_nil, or_false,
          exists_eq_left]
        grind
  · have hpre : ∀ q ∈ a, ∀ p ∈ [(r.1, s)], q.2 < p.1 := by simpa using har
    by_cases hright : r.2 = e
    · refine ⟨_, by
        simp only [hleft, hright, ne_eq, not_true_eq_false, and_false, if_false,
          not_false_eq_true, if_true]
        exact rangeSizeTreeTryInsert_eq hcap _ _, ?_⟩
      refine rep_replace (n := [(r.1, s)]) hruns' (by simp [AvlAllocator.countIn])
        ((hs1.setTree _).countIn _) (by simp; omega) (by simp) hpre ?_ fun x => ?_
      · intro p hp q hq
        rw [List.mem_singleton.mp hp]
        have := hrb q hq
        change s < q.1
        omega
      · simp only [Set.mem_sdiff, Set.mem_ofPred_eq, List.mem_cons, List.not_mem_nil, or_false,
          exists_eq_left]
        grind
    -- Both pieces are put in, between the ranges before and those behind.
    · refine ⟨_, by
        simp only [hleft, hright, ne_eq, not_false_eq_true, and_self, if_true,
          tryInsertRange_pos hcap, Option.bind_some]
        exact rangeSizeTreeTryInsert_eq hcap _ _, ?_⟩
      refine rep_replace (n := [(r.1, s), (e, r.2)]) hruns' (by simp [AvlAllocator.countIn])
        (((hs1.setTree _).setTree _).countIn (e, r.2) |>.countIn (r.1, s)) ?_ (by simp; omega) ?_ ?_
        fun x => ?_
      · intro p hp
        rcases List.mem_cons.mp hp with rfl | hp
        · change r.1 < s
          omega
        · rw [List.mem_singleton.mp hp]
          change e < r.2
          omega
      · intro q hq p hp
        have := har q hq
        rcases List.mem_cons.mp hp with rfl | hp
        · exact this
        · rw [List.mem_singleton.mp hp]
          change q.2 < e
          omega
      · intro p hp q hq
        have := hrb q hq
        rcases List.mem_cons.mp hp with rfl | hp
        · change s < q.1
          omega
        · rw [List.mem_singleton.mp hp]
          exact this
      · simp only [Set.mem_sdiff, Set.mem_ofPred_eq, List.mem_cons, List.not_mem_nil, or_false,
          exists_eq_or_imp, exists_eq_left]
        grind

/-! ## The search for a range -/

/-- The place lies in a range of the list, with room for the size. -/
def Fits (l : List RangeSeg) (offset size : ℕ) : Prop :=
  ∃ r ∈ l, r.1 ≤ offset ∧ offset + size ≤ r.2

/-- The place is the first aligned one of a range of the list, with room for the size. -/
def FitsAt (l : List RangeSeg) (align offset size : ℕ) : Prop :=
  ∃ r ∈ l, offset = p2roundup r.1 align ∧ offset + size ≤ r.2

/-- Where rounding up does not go below, the place lies in the range. -/
theorem FitsAt.fits {l : List RangeSeg} {align offset size : ℕ} (h : FitsAt l align offset size)
    (hl : ∀ r ∈ l, r.1 ≤ p2roundup r.1 align) : Fits l offset size := by
  obtain ⟨r, hr, rfl, hin⟩ := h
  exact ⟨r, hr, hl r hr, hin⟩

/-- A part of the list. -/
theorem FitsAt.mono {l l' : List RangeSeg} {align offset size : ℕ} (hsub : ∀ r ∈ l, r ∈ l')
    (h : FitsAt l align offset size) : FitsAt l' align offset size := by
  obtain ⟨r, hr, hin⟩ := h
  exact ⟨r, hsub r hr, hin⟩

/-- What a loop of `_pick_block_after` finds fits. -/
theorem searchRanges_fitsAt {size align : ℕ} {bytes : RangeSeg → ℕ} {l : List RangeSeg}
    {count last offset : ℕ} (h : searchRanges size align bytes count last l = .found offset) :
    FitsAt l align offset size := by
  induction l generalizing count last with
  | nil => simp [searchRanges] at h
  | cons r l ih =>
    rw [searchRanges] at h
    split_ifs at h with hfit
    · simp only [Search.found.injEq] at h
      subst h
      exact ⟨r, by simp, rfl, hfit⟩
    · exact (ih h).mono fun q hq => List.mem_cons_of_mem _ hq

/-- What `_pick_block_after` finds fits. -/
theorem pickBlockAfter_fitsAt {t : AvlAllocator σ} {pastEnd cursor size align offset : ℕ}
    (h : t.pickBlockAfter pastEnd cursor size align = some offset) :
    FitsAt t.rangeTree align offset size := by
  have htake : ∀ r ∈ t.rangeTree.takeWhile (fun r => decide (r.2 ≤ cursor)), r ∈ t.rangeTree :=
    fun r hr => (List.takeWhile_sublist _).subset hr
  have hdrop : ∀ r ∈ t.rangeTree.dropWhile (fun r => decide (r.2 ≤ cursor)), r ∈ t.rangeTree :=
    fun r hr => (List.dropWhile_sublist _).subset hr
  simp only [pickBlockAfter] at h
  split at h
  · rename_i o ho
    obtain rfl : o = offset := by simpa using h
    exact (searchRanges_fitsAt ho).mono hdrop
  · simp at h
  · split_ifs at h
    split at h
    · rename_i o ho
      obtain rfl : o = offset := by simpa using h
      exact (searchRanges_fitsAt ho).mono htake
    · simp at h

/-- What the loop of `_pick_block_fits` finds fits. -/
theorem searchFits_fitsAt {size align : ℕ} {l : List RangeSeg} {count offset : ℕ}
    (h : searchFits size align count l = some offset) : FitsAt l align offset size := by
  induction l generalizing count with
  | nil => simp [searchFits] at h
  | cons r l ih =>
    rw [searchFits] at h
    split_ifs at h with hc hfit
    · simp only [Option.some.injEq] at h
      subst h
      exact ⟨r, by simp, rfl, hfit⟩
    · exact (ih h).mono fun q hq => List.mem_cons_of_mem _ hq

/-- What `_pick_block_fits` finds fits. -/
theorem pickBlockFits_fitsAt {t : AvlAllocator σ} {size align offset : ℕ}
    (h : t.pickBlockFits size align = some offset) : FitsAt t.rangeSizeTree align offset size :=
  (searchFits_fitsAt h).mono fun _ hr => (List.dropWhile_sublist _).subset hr

/-- What the halving loop finds fits, and is not more than was asked for. -/
theorem halveUntilFits_fitsAt {t : AvlAllocator σ} {unit n size offset got : ℕ} (hu : 0 < unit)
    (hsize : 0 < size) (h : t.halveUntilFits unit n size = some (offset, got)) :
    FitsAt t.rangeSizeTree unit offset got ∧ 0 < got ∧ got ≤ size := by
  induction n generalizing size with
  | zero => simp [halveUntilFits] at h
  | succ n ih =>
    rw [halveUntilFits] at h
    split at h
    · rename_i o ho
      simp only [Option.some.injEq, Prod.mk.injEq] at h
      obtain ⟨rfl, rfl⟩ := h
      exact ⟨pickBlockFits_fitsAt ho, hsize, le_rfl⟩
    · simp only at h
      split_ifs at h with hunit
      obtain ⟨hfit, hpos, hle⟩ := ih (hu.trans_le hunit) h
      have := p2align_le (size / 2) unit
      exact ⟨hfit, hpos, by omega⟩

/-! ## Allocation -/

/-- The free bytes lie within a device whose size is a signed word. -/
structure Within (cfg : AvlConfig σ) (F : Set ℕ) : Prop where
  /-- `device_size` is an `int64_t`. -/
  device : cfg.deviceSize < 0x8000000000000000
  /-- Every free byte is on the device. -/
  mem : ∀ x ∈ F, x < cfg.deviceSize

/-- A range of the tree ends on the device. -/
theorem Rep.le_device {F : Set ℕ} {t : AvlAllocator σ} (h : Rep F t) (hw : Within cfg F)
    {r : RangeSeg} (hr : r ∈ t.rangeTree) : r.1 < r.2 ∧ r.2 ≤ cfg.deviceSize := by
  have hne := h.runs.nonempty r hr
  have hmem := hw.mem (r.2 - 1) ((h.runs.mem _).mpr ⟨r, hr, by omega, by omega⟩)
  exact ⟨hne, by omega⟩

/-- The cursors play no part. -/
theorem Rep.setLbas {F : Set ℕ} {t : AvlAllocator σ} (h : Rep F t) (lbas : ℕ → ℕ) :
    Rep F { t with lbas := lbas } :=
  ⟨h.runs, ⟨h.sized.perm, h.sized.sorted, h.sized.numFree⟩⟩

/-- What `_allocate_single` picks fits; only a cursor has changed. -/
theorem pickBlock_fitsAt {F : Set ℕ} {t : AvlAllocator σ} (h : Rep F t) {unit : ℕ} (hu : 0 < unit)
    {pastEnd maxSize size : ℕ} (hsize : 0 < size) {force : Bool} {t' : AvlAllocator σ}
    {offset got : ℕ}
    (hp : pickBlock cfg t pastEnd maxSize size unit force = (t', some (offset, got))) :
    Rep F t' ∧ t'.rangeTree = t.rangeTree ∧ FitsAt t.rangeTree unit offset got ∧ 0 < got ∧
      got ≤ size := by
  have hhalve : ∀ {n}, t.halveUntilFits unit n size = some (offset, got) →
      FitsAt t.rangeTree unit offset got ∧ 0 < got ∧ got ≤ size := fun hf => by
    obtain ⟨hfit, hg⟩ := halveUntilFits_fitsAt hu hsize hf
    exact ⟨hfit.mono fun r hr => h.sized.perm.mem_iff.mp hr, hg⟩
  simp only [AvlAllocator.pickBlock] at hp
  split_ifs at hp
  · simp only [Prod.mk.injEq] at hp
    obtain ⟨rfl, hf⟩ := hp
    exact ⟨h, rfl, hhalve hf⟩
  · split at hp
    · rename_i o ho
      simp only [Prod.mk.injEq, Option.some.injEq] at hp
      obtain ⟨rfl, rfl, rfl⟩ := hp
      exact ⟨h.setLbas _, rfl, pickBlockAfter_fitsAt ho, hsize, le_rfl⟩
    · simp only [Prod.mk.injEq] at hp
      obtain ⟨rfl, hf⟩ := hp
      exact ⟨h, rfl, hhalve hf⟩

/-- What `_allocate_single` picks lies in a range. -/
theorem Rep.pickBlock {F : Set ℕ} {t : AvlAllocator σ} (h : Rep F t) {unit : ℕ} (hu : 0 < unit)
    (hround : ∀ r ∈ t.rangeTree, r.1 ≤ p2roundup r.1 unit) {pastEnd maxSize size : ℕ}
    (hsize : 0 < size) {force : Bool} {t' : AvlAllocator σ} {offset got : ℕ}
    (hp : pickBlock cfg t pastEnd maxSize size unit force = (t', some (offset, got))) :
    Rep F t' ∧ Fits t'.rangeTree offset got ∧ 0 < got ∧ got ≤ size := by
  obtain ⟨hrep, htree, hfit, hgot⟩ := pickBlock_fitsAt h hu hsize hp
  exact ⟨hrep, htree ▸ hfit.fits hround, hgot⟩

/-- `_allocate_single` of at least a byte: no assertion fails, and an extent was free and is not
any more. -/
theorem Rep.allocateSingle {F : Set ℕ} {t : AvlAllocator σ} (h : Rep F t) (hw : Within cfg F)
    (hcap : cfg.rangeCountCap = 0) {unit : ℕ} (hu : isp2 unit = true) (huw : unit < wordEnd)
    (pastEnd : ℕ) {size : ℕ} (hsize : 0 < size) :
    AvlAllocator.allocateSingle cfg t pastEnd size unit = .noSpace ∨
      ∃ offset length t', AvlAllocator.allocateSingle cfg t pastEnd size unit =
          .extent offset length t' ∧ 0 < length ∧ length ≤ size ∧
        (∀ x, offset ≤ x → x < offset + length → x ∈ F) ∧
        Rep (F \ {x | offset ≤ x ∧ x < offset + length}) t' := by
  obtain ⟨hu0, hu63, k, hk⟩ := unit_le hu huw
  have hround : ∀ r ∈ t.rangeTree, r.1 ≤ p2roundup r.1 unit := fun r hr => by
    have := h.le_device hw hr
    have := hw.device
    exact le_p2roundup (by omega) hu0 hu63
  obtain ⟨maxSize, hmax⟩ : ∃ n, n = (t.rangeSizeTree.getLast?.map RangeSeg.len).getD 0 := ⟨_, rfl⟩
  have hmaxw : maxSize < wordEnd := by
    have hd := hw.device
    have hwe : wordEnd = 0x10000000000000000 := rfl
    cases hl : t.rangeSizeTree.getLast? with
    | none =>
      rw [hl] at hmax
      rw [hmax, hwe]
      decide
    | some r =>
      have hr := h.le_device hw (h.sized.perm.mem_iff.mp (List.mem_of_getLast? hl))
      rw [hl] at hmax
      have : maxSize = r.2 - r.1 := hmax
      omega
  obtain ⟨size', hsize'⟩ : ∃ n, n = if maxSize < size then p2align maxSize unit else size :=
    ⟨_, rfl⟩
  simp only [AvlAllocator.allocateSingle, ← hmax, ← hsize']
  by_cases hno : maxSize < size ∧ maxSize < unit
  · rw [if_pos hno]
    exact .inl rfl
  · -- The rounded size is at least the unit, so no size is zero.
    have hpos : 0 < size' ∧ size' ≤ size ∧ size' < wordEnd := by
      rw [hsize']
      split_ifs with hlt
      · have hge : 2 ^ k ≤ maxSize := by
          rw [← hk]
          omega
        have hle := p2align_le maxSize unit
        exact ⟨by rw [hk]; exact p2align_pos hge hmaxw, by omega, by omega⟩
      · exact ⟨hsize, le_rfl, by omega⟩
    have hlow := and_negWord_ne_zero hpos.1 hpos.2.2
    rw [if_neg hno, if_neg (by
      rintro (⟨-, hz⟩ | ⟨-, hz⟩)
      · exact hpos.1.ne' hz
      · exact hlow hz)]
    split
    · exact .inl rfl
    · rename_i t1 offset got hpick
      obtain ⟨hrep, ⟨r, hr, hro, hre⟩, hgot, hle⟩ := h.pickBlock hu0 hround hpos.1 hpick
      have hfree : ∀ x, offset ≤ x → x < offset + got → x ∈ F := fun x h1 h2 =>
        (hrep.runs.mem x).mpr ⟨r, hr, by omega, by omega⟩
      obtain ⟨t2, hrm, hrep2⟩ := hrep.removeFromTree hcap hgot hfree
      rw [hrm]
      exact .inr ⟨offset, got, t2, rfl, hgot, hle.trans hpos.2.1, hfree, hrep2⟩

/-- The bytes of a list of extents. -/
def bytesOf (es : List (ℕ × ℕ)) : Set ℕ := {x | ∃ e ∈ es, e.1 ≤ x ∧ x < e.1 + e.2}

/-- The bytes of a range followed by extents. -/
theorem diff_bytesOf_cons (F : Set ℕ) (offset length : ℕ) (es : List (ℕ × ℕ)) :
    (F \ {x | offset ≤ x ∧ x < offset + length}) \ bytesOf es =
      F \ bytesOf ((offset, length) :: es) := by
  ext x
  simp only [bytesOf, Set.mem_sdiff, Set.mem_ofPred_eq, List.mem_cons, exists_eq_or_imp]
  rw [and_assoc, ← not_or]

/-- `_allocate`: no assertion fails, and what it returns was free and is not any more. -/
theorem Rep.allocateLoop {F : Set ℕ} {t : AvlAllocator σ} (h : Rep F t) (hw : Within cfg F)
    (hcap : cfg.rangeCountCap = 0) {unit : ℕ} (hu : isp2 unit = true) (huw : unit < wordEnd)
    (pastEnd : ℕ) {maxAllocSize : ℕ} (hmax : 0 < maxAllocSize) (n rest : ℕ) :
    ∃ t' es, AvlAllocator.allocateLoop cfg pastEnd unit maxAllocSize n rest t = some (t', es) ∧
      bytesOf es ⊆ F ∧ Rep (F \ bytesOf es) t' := by
  have hnone : bytesOf [] = ∅ := by simp [bytesOf]
  induction n generalizing F t rest with
  | zero => exact ⟨t, [], rfl, by simp [hnone], by simpa [hnone] using h⟩
  | succ n ih =>
    rw [AvlAllocator.allocateLoop]
    split_ifs with hrest
    · exact ⟨t, [], rfl, by simp [hnone], by simpa [hnone] using h⟩
    · have hsize : 0 < min maxAllocSize rest := by omega
      rcases h.allocateSingle hw hcap hu huw pastEnd hsize with hs | ⟨o, len, t1, hs, -, -, hF, h1⟩
      · rw [hs]
        exact ⟨t, [], rfl, by simp [hnone], by simpa [hnone] using h⟩
      · have hw1 : Within cfg (F \ {x | o ≤ x ∧ x < o + len}) :=
          ⟨hw.device, fun x hx => hw.mem x hx.1⟩
        obtain ⟨t2, es, hloop, hsub, h2⟩ := ih h1 hw1 (rest - len)
        rw [hs]
        refine ⟨t2, (o, len) :: es, by simp [hloop], ?_, ?_⟩
        · rintro x ⟨e, he, hx⟩
          rcases List.mem_cons.mp he with rfl | he
          · exact hF x hx.1 hx.2
          · exact (hsub ⟨e, he, hx⟩).1
        · rw [← diff_bytesOf_cons]
          exact h2

/-! ## Runs -/

/-- The calls of the allocator. `pastEnd` is what `_pick_block_after` reads behind the last
range. -/
inductive Call where
  /-- `init_add_free`. -/
  | initAddFree (offset length : ℕ)
  /-- `init_rm_free`. -/
  | initRmFree (offset length : ℕ)
  /-- `allocate`. -/
  | allocate (pastEnd want unit maxAllocSize : ℕ)
  /-- `release` of a set of intervals. -/
  | release (rs : List (ℕ × ℕ))

/-- The allocator, and the bytes that should be free. -/
structure Modelled where
  /-- The allocator. -/
  trees : AvlAllocator Unit
  /-- The free bytes. -/
  free : Set ℕ

/-- A new allocator, with no free byte. -/
def Modelled.init : Modelled := ⟨AvlAllocator.init (), ∅⟩

/-- A call, on the allocator and on the free bytes. -/
def call (cfg : AvlConfig Unit) (s : Modelled) : Call → Option Modelled
  | .initAddFree offset length =>
    (initAddFree cfg (addToTree cfg) s.trees offset length).map fun t =>
      ⟨t, s.free ∪ bytesOf [(offset, length)]⟩
  | .initRmFree offset length =>
    (initRmFree cfg s.trees offset length).map fun t => ⟨t, s.free \ bytesOf [(offset, length)]⟩
  | .allocate pastEnd want unit maxAllocSize =>
    (allocate cfg s.trees pastEnd want unit maxAllocSize).map fun p => ⟨p.1, s.free \ bytesOf p.2⟩
  | .release rs =>
    (release cfg (addToTree cfg) rs s.trees).map fun t => ⟨t, s.free ∪ bytesOf rs⟩

/-- What callers promise: ranges on the device, added only when they are not free and removed only
when they are; a set of intervals that are not empty and do not meet; and the arguments that
`allocate` asks for. -/
def Call.Allowed (cfg : AvlConfig Unit) (free : Set ℕ) : Call → Prop
  | .initAddFree offset length =>
    offset + length ≤ cfg.deviceSize ∧ ∀ x ∈ bytesOf [(offset, length)], x ∉ free
  | .initRmFree offset length =>
    offset + length ≤ cfg.deviceSize ∧ bytesOf [(offset, length)] ⊆ free
  | .allocate _ want unit maxAllocSize =>
    want < wordEnd ∧ unit < wordEnd ∧ maxAllocSize < wordEnd ∧ isp2 unit = true ∧ want % unit = 0
  | .release rs =>
    (∀ r ∈ rs, 0 < r.2 ∧ r.1 + r.2 ≤ cfg.deviceSize) ∧ (∀ x ∈ bytesOf rs, x ∉ free) ∧
      rs.Pairwise fun r q => ∀ x, ¬ (x ∈ bytesOf [r] ∧ x ∈ bytesOf [q])

/-- The largest extent that is asked for does not need to be cut, or the block size leaves
something when it is. -/
def Call.ExtentLeft (cfg : AvlConfig Unit) : Call → Prop
  | .allocate _ want _ maxAllocSize =>
    cfg.blockSize % 0x100000000 = 0 →
      (if maxAllocSize = 0 then want else maxAllocSize) < extentCap
  | _ => True

/-- The largest extent is not zero, when something is wanted. -/
theorem maxExtent_pos {want maxAllocSize : ℕ} (hb : cfg.blockSize < wordEnd) (hw : 0 < want)
    (h : cfg.blockSize % 0x100000000 = 0 →
      (if maxAllocSize = 0 then want else maxAllocSize) < extentCap) :
    0 < maxExtent cfg want maxAllocSize := by
  obtain ⟨m, hm⟩ : ∃ m, m = if maxAllocSize = 0 then want else maxAllocSize := ⟨_, rfl⟩
  have hm0 : 0 < m := by
    rw [hm]
    split_ifs <;> omega
  rw [← hm] at h
  simp only [maxExtent, ← hm]
  split_ifs with hcap
  · have hne : cfg.blockSize % 0x100000000 ≠ 0 := fun hz => absurd (h hz) (not_lt.mpr hcap)
    have hmod : p2align extentCap cfg.blockSize = negWord cfg.blockSize % 0x100000000 := by
      rw [p2align, Nat.and_comm]
      exact Nat.and_two_pow_sub_one_eq_mod (negWord cfg.blockSize) 32
    have hwe : wordEnd = 0x10000000000000000 := rfl
    rw [hmod, negWord_of_pos (by omega) hb.le]
    omega
  · exact hm0

/-- The bytes of one range. -/
theorem bytesOf_singleton (offset length : ℕ) :
    bytesOf [(offset, length)] = {x | offset ≤ x ∧ x < offset + length} := by
  simp [bytesOf]

/-- `release` of intervals that are not free and do not meet. -/
theorem Rep.release {F : Set ℕ} {t : AvlAllocator σ} {rs : List (ℕ × ℕ)} (h : Rep F t)
    (hcap : cfg.rangeCountCap = 0) (hin : ∀ r ∈ rs, 0 < r.2 ∧ r.1 + r.2 ≤ cfg.deviceSize)
    (hF : ∀ x ∈ bytesOf rs, x ∉ F)
    (hrs : rs.Pairwise fun r q => ∀ x, ¬ (x ∈ bytesOf [r] ∧ x ∈ bytesOf [q])) :
    ∃ t', AvlAllocator.release cfg (AvlAllocator.addToTree cfg) rs t = some t' ∧
      Rep (F ∪ bytesOf rs) t' := by
  induction rs generalizing F t with
  | nil => exact ⟨t, rfl, by simpa [bytesOf] using h⟩
  | cons r rs ih =>
    obtain ⟨o, len⟩ := r
    obtain ⟨hpos, hdev⟩ := hin _ List.mem_cons_self
    obtain ⟨hr, hrs'⟩ := List.pairwise_cons.mp hrs
    have hcons : bytesOf ((o, len) :: rs) = {x | o ≤ x ∧ x < o + len} ∪ bytesOf rs := by
      ext x
      simp [bytesOf]
    obtain ⟨t1, h1, hrep1⟩ := h.addToTree hcap hpos fun x hx hx' => hF x (by
      rw [hcons]
      exact .inl ⟨hx, hx'⟩)
    obtain ⟨t2, h2, hrep2⟩ := ih hrep1 (fun q hq => hin q (List.mem_cons_of_mem _ hq)) (by
      rintro x hx (hxF | hxr)
      · exact hF x (by rw [hcons]; exact .inr hx) hxF
      · -- The interval of `x` does not meet the first one.
        obtain ⟨q, hq, hxq⟩ := hx
        exact hr q hq x ⟨by rw [bytesOf_singleton]; exact hxr, ⟨q, by simp, hxq⟩⟩) hrs'
    refine ⟨t2, ?_, ?_⟩
    · have hdev' : o + len ≤ cfg.deviceSize := hdev
      simp only [AvlAllocator.release, if_pos hdev', h1, Option.bind_some]
      exact h2
    · rw [hcons, ← Set.union_assoc]
      exact hrep2

/-- The state that the run theorem keeps. -/
structure Stands (cfg : AvlConfig Unit) (s : Modelled) : Prop where
  /-- The trees represent the free bytes. -/
  rep : Rep s.free s.trees
  /-- The free bytes are on the device. -/
  within : Within cfg s.free

/-- Every call that is allowed and leaves an extent goes through. -/
theorem stands_call {deviceSize blockSize : ℕ} (hb : blockSize < wordEnd) {s : Modelled}
    (h : Stands (.plain deviceSize blockSize) s) {c : Call}
    (hc : c.Allowed (.plain deviceSize blockSize) s.free)
    (hx : c.ExtentLeft (.plain deviceSize blockSize)) :
    ∃ s', call (.plain deviceSize blockSize) s c = some s' ∧
      Stands (.plain deviceSize blockSize) s' := by
  have hcap : (AvlConfig.plain deviceSize blockSize).rangeCountCap = 0 := rfl
  have hout : ∀ es, Within (.plain deviceSize blockSize) (s.free \ bytesOf es) := fun es =>
    ⟨h.within.device, fun x hx => h.within.mem x hx.1⟩
  -- One case for each call; an empty one changes nothing.
  cases c with
  | initAddFree offset length =>
    obtain ⟨hdev, hF⟩ := hc
    simp only [call, initAddFree]
    by_cases hlen : length = 0
    · refine ⟨_, by rw [if_pos hlen, Option.map_some], ?_⟩
      have hemp : bytesOf [(offset, length)] = ∅ := by
        ext x
        simp [bytesOf, hlen]
      simpa [hemp] using h
    · obtain ⟨t', ht', hrep⟩ := h.rep.addToTree hcap (Nat.pos_of_ne_zero hlen)
        fun x hx hx' => hF x (by rw [bytesOf_singleton]; exact ⟨hx, hx'⟩)
      refine ⟨_, by rw [if_neg hlen, if_pos hdev, ht', Option.map_some], ?_, h.within.device, ?_⟩
      · rw [bytesOf_singleton]
        exact hrep
      · rintro x (hx | hx)
        · exact h.within.mem x hx
        · rw [bytesOf_singleton] at hx
          exact hx.2.trans_le hdev
  | initRmFree offset length =>
    obtain ⟨hdev, hF⟩ := hc
    simp only [call, initRmFree]
    by_cases hlen : length = 0
    · refine ⟨_, by rw [if_pos hlen, Option.map_some], ?_⟩
      have hemp : bytesOf [(offset, length)] = ∅ := by
        ext x
        simp [bytesOf, hlen]
      simpa [hemp] using h
    · obtain ⟨t', ht', hrep⟩ := h.rep.removeFromTree hcap (Nat.pos_of_ne_zero hlen)
        fun x hx hx' => hF (by rw [bytesOf_singleton]; exact ⟨hx, hx'⟩)
      refine ⟨_, by rw [if_neg hlen, if_pos hdev, ht', Option.map_some], ?_, hout _⟩
      rw [bytesOf_singleton]
      exact hrep
  | allocate pastEnd want unit maxAllocSize =>
    obtain ⟨-, huw, -, hu, hmul⟩ := hc
    simp only [call, allocate, if_pos (And.intro hu hmul)]
    by_cases hw : want = 0
    · refine ⟨⟨s.trees, s.free \ bytesOf []⟩, by rw [hw]; rfl, ?_⟩
      simpa [bytesOf] using h
    · obtain ⟨t', es, ht', -, hrep⟩ := h.rep.allocateLoop h.within hcap hu huw pastEnd
        (maxExtent_pos hb (Nat.pos_of_ne_zero hw) hx) want want
      exact ⟨_, by rw [ht', Option.map_some], hrep, hout _⟩
  | release rs =>
    obtain ⟨hin, hF, hrs⟩ := hc
    obtain ⟨t', ht', hrep⟩ := h.rep.release hcap hin hF hrs
    refine ⟨_, by simp only [call, ht', Option.map_some]; rfl, hrep, h.within.device, ?_⟩
    rintro x (hx | ⟨r, hr, hx⟩)
    · exact h.within.mem x hx
    · exact hx.2.trans_le (hin r hr).2

/-- In every run of calls that keep their promises and leave an extent, no assertion fails, and in
the state reached `range_tree_` has the maximal runs of the free bytes, `range_size_tree_` the same
ranges, and `num_free_` their sum. -/
theorem avl_represents_free (deviceSize blockSize : ℕ) (hd : deviceSize < 0x8000000000000000)
    (hb : blockSize < wordEnd) (calls : List Call)
    (hok : Runs.Meets (call (.plain deviceSize blockSize))
      (fun s c => c.Allowed (.plain deviceSize blockSize) s.free ∧
        c.ExtentLeft (.plain deviceSize blockSize)) .init calls) :
    ∃ s, Runs.exec (call (.plain deviceSize blockSize)) .init calls = some s ∧
      MaximalRuns s.free s.trees.rangeTree ∧ s.trees.rangeSizeTree.Perm s.trees.rangeTree ∧
      s.trees.numFree = sumLen s.trees.rangeTree := by
  have hinit : Stands (.plain deviceSize blockSize) .init :=
    ⟨rep_init (), hd, fun x hx => absurd hx (Set.notMem_empty x)⟩
  obtain ⟨s, hrun, hs⟩ := Runs.exec_total (fun _ _ h hc => stands_call hb h hc.1 hc.2) calls .init
    hinit hok
  exact ⟨s, hrun, hs.rep.runs, hs.rep.sized.perm, hs.rep.sized.numFree⟩

/-- `init_add_free` makes its range free. -/
theorem free_of_initAddFree {cfg : AvlConfig Unit} {s s' : Modelled} {offset length : ℕ}
    (h : call cfg s (.initAddFree offset length) = some s') :
    s'.free = s.free ∪ bytesOf [(offset, length)] := by
  obtain ⟨t, -, rfl⟩ := Option.map_eq_some_iff.mp (by simpa only [call] using h)
  rfl

/-- Two ranges that come to touch, and an allocation that splits the merged one. -/
def mergeThenSplit : List Call :=
  [.initAddFree 0x1000 0x1000, .initAddFree 0x3000 0x1000, .initAddFree 0x2000 0x1000,
    .initRmFree 0x2000 0x800, .allocate 0 0x800 0x800 0]

/-- The promises are kept by a run that merges with both neighbours and splits. -/
theorem avl_represents_free_mergeThenSplit :
    ∃ s, Runs.exec (call (.plain 0x100000 0x1000)) .init mergeThenSplit = some s ∧
      MaximalRuns s.free s.trees.rangeTree ∧ s.trees.rangeSizeTree.Perm s.trees.rangeTree ∧
      s.trees.numFree = sumLen s.trees.rangeTree := by
  refine avl_represents_free 0x100000 0x1000 (by decide) (by decide) mergeThenSplit ?_
  refine ⟨⟨⟨by decide, fun x _ hx => hx⟩, trivial⟩, fun s1 h1 => ?_⟩
  have f1 := free_of_initAddFree h1
  refine ⟨⟨⟨by decide, ?_⟩, trivial⟩, fun s2 h2 => ?_⟩
  · intro x hx
    simp [f1, Modelled.init, bytesOf] at hx ⊢
    omega
  have f2 := free_of_initAddFree h2
  refine ⟨⟨⟨by decide, ?_⟩, trivial⟩, fun s3 h3 => ?_⟩
  · intro x hx
    simp [f2, f1, Modelled.init, bytesOf] at hx ⊢
    omega
  have f3 := free_of_initAddFree h3
  refine ⟨⟨⟨by decide, ?_⟩, trivial⟩, fun s4 h4 => ?_⟩
  · intro x hx
    simp [f3, f2, f1, Modelled.init, bytesOf] at hx ⊢
    omega
  have hlen : Call.ExtentLeft (.plain 0x100000 0x1000) (.allocate 0 0x800 0x800 0) :=
    fun hz => absurd hz (by decide)
  exact ⟨⟨⟨by decide, by decide, by decide, by decide, by decide⟩, hlen⟩, fun _ _ => trivial⟩

/-- Blocks of 4 GiB, and an allocation of one. -/
def hugeBlock : List Call :=
  [.initAddFree 0 0x200000000, .allocate 0 0x100000000 0x100000000 0]

/-- The largest extent is rounded down to zero bytes. Little of the device is free, so the ranges are
asked in the order of their lengths, and the assertion of `_remove_from_tree` that the size is not
zero fails. -/
theorem hugeBlock_aborts :
    Runs.Meets (call (.plain 0x4000000000 0x100000000))
      (fun s c => c.Allowed (.plain 0x4000000000 0x100000000) s.free) .init hugeBlock ∧
    Runs.exec (call (.plain 0x4000000000 0x100000000)) .init hugeBlock = none := by
  constructor
  · refine ⟨⟨by decide, fun x _ hx => hx⟩, fun s1 h1 => ?_⟩
    exact ⟨⟨by decide, by decide, by decide, by decide, by decide⟩, fun _ _ => trivial⟩
  · have hnone : (Runs.exec (call (.plain 0x4000000000 0x100000000)) .init
        hugeBlock).isNone = true := by decide +kernel
    simpa using hnone

end CxxLab.Blk.AvlAllocator
