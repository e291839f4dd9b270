import Mathlib

/-!
# Maximal runs

A set of numbers as the list of its maximal runs, in ascending order. A run is half open. Since the
runs are in order and no two of them touch, each is maximal.
-/

namespace CxxLab

/-- The list has the maximal runs of the set, in ascending order. -/
structure MaximalRuns (S : Set ℕ) (l : List (ℕ × ℕ)) : Prop where
  /-- No run is empty. -/
  nonempty : ∀ r ∈ l, r.1 < r.2
  /-- The runs are in order, and there is something between any two. -/
  apart : l.Pairwise fun a b => a.2 < b.1
  /-- Together they are the set. -/
  mem : ∀ x, x ∈ S ↔ ∃ r ∈ l, r.1 ≤ x ∧ x < r.2

namespace MaximalRuns

variable {S : Set ℕ} {l : List (ℕ × ℕ)}

/-- The empty set has no runs. -/
theorem nil (h : S = ∅) : MaximalRuns S [] where
  nonempty _ hr := absurd hr List.not_mem_nil
  apart := List.Pairwise.nil
  mem x := by simp [h]

/-- A run before all others. -/
theorem cons {s t : ℕ} (hst : s < t) (hbefore : ∀ r ∈ l, t < r.1)
    (hl : MaximalRuns {x | x ∈ S ∧ t ≤ x} l) (hrun : ∀ x, s ≤ x → x < t → x ∈ S)
    (hfirst : ∀ x ∈ S, s ≤ x) : MaximalRuns S ((s, t) :: l) where
  nonempty r hr := by
    rcases List.mem_cons.mp hr with rfl | hr
    · exact hst
    · exact hl.nonempty r hr
  apart := List.pairwise_cons.mpr ⟨hbefore, hl.apart⟩
  mem x := by
    constructor
    · intro hx
      by_cases hlt : x < t
      · exact ⟨_, List.mem_cons_self, hfirst x hx, hlt⟩
      · obtain ⟨r, hr, hin⟩ := (hl.mem x).mp ⟨hx, not_lt.mp hlt⟩
        exact ⟨r, List.mem_cons_of_mem _ hr, hin⟩
    · rintro ⟨r, hr, hin⟩
      rcases List.mem_cons.mp hr with rfl | hr
      · exact hrun x hin.1 hin.2
      · exact ((hl.mem x).mpr ⟨r, hr, hin⟩).1

/-- Two runs are the same, or one is before the other. -/
theorem trichotomy (h : MaximalRuns S l) {r q : ℕ × ℕ} (hr : r ∈ l) (hq : q ∈ l) :
    r = q ∨ r.2 < q.1 ∨ q.2 < r.1 := by
  obtain ⟨a, b, rfl⟩ := List.append_of_mem hr
  obtain ⟨-, hb, hab⟩ := List.pairwise_append.mp h.apart
  rcases List.mem_append.mp hq with hq | hq
  · exact .inr (.inr (hab q hq r List.mem_cons_self))
  · rcases List.mem_cons.mp hq with rfl | hq
    · exact .inl rfl
    · exact .inr (.inl ((List.pairwise_cons.mp hb).1 q hq))

/-- A stretch of the set lies in one run. -/
theorem exists_run (h : MaximalRuns S l) {s t : ℕ} (hst : s < t)
    (hS : ∀ x, s ≤ x → x < t → x ∈ S) : ∃ r ∈ l, r.1 ≤ s ∧ t ≤ r.2 := by
  obtain ⟨r, hr, hrs⟩ := (h.mem s).mp (hS s le_rfl hst)
  refine ⟨r, hr, hrs.1, not_lt.mp fun hlt => ?_⟩
  -- The end of the run would be in the set, and so in a run that touches it.
  obtain ⟨q, hq, hqr⟩ := (h.mem r.2).mp (hS r.2 hrs.2.le hlt)
  have hne := h.nonempty r hr
  rcases h.trichotomy hr hq with rfl | hrq | hqr'
  · omega
  · omega
  · omega

/-- Some runs in the middle are replaced by others, which touch none of the rest. -/
theorem replace {S' : Set ℕ} {a m m' b : List (ℕ × ℕ)} (h : MaximalRuns S (a ++ m ++ b))
    (hne : ∀ r ∈ m', r.1 < r.2) (hm : m'.Pairwise fun r q => r.2 < q.1)
    (ha : ∀ r ∈ a, ∀ q ∈ m', r.2 < q.1) (hb : ∀ q ∈ m', ∀ r ∈ b, q.2 < r.1)
    (hS : ∀ x, x ∈ S' ↔ (∃ r ∈ m', r.1 ≤ x ∧ x < r.2) ∨
      x ∈ S ∧ ¬ ∃ r ∈ m, r.1 ≤ x ∧ x < r.2) : MaximalRuns S' (a ++ m' ++ b) := by
  obtain ⟨hapm, hapb, hab⟩ := List.pairwise_append.mp h.apart
  obtain ⟨hapa, hapm', ham⟩ := List.pairwise_append.mp hapm
  -- What is kept touches none of the runs that are replaced.
  have hout : ∀ r ∈ a ++ b, ∀ q ∈ m, r.2 < q.1 ∨ q.2 < r.1 := by
    intro r hr q hq
    rcases List.mem_append.mp hr with hr | hr
    · exact .inl (ham r hr q hq)
    · exact .inr (hab q (List.mem_append_right _ hq) r hr)
  constructor
  case nonempty =>
    intro r hr
    simp only [List.mem_append] at hr
    rcases hr with (hr | hr) | hr
    · exact h.nonempty r (by simp [hr])
    · exact hne r hr
    · exact h.nonempty r (by simp [hr])
  case apart =>
    refine List.pairwise_append.mpr ⟨List.pairwise_append.mpr ⟨hapa, hm, ha⟩, hapb, ?_⟩
    intro r hr q hq
    rcases List.mem_append.mp hr with hr | hr
    · exact hab r (List.mem_append_left _ hr) q hq
    · exact hb r hr q hq
  case mem =>
    intro x
    rw [hS, h.mem]
    constructor
    · rintro (⟨r, hr, hx⟩ | ⟨⟨r, hr, hx⟩, hn⟩)
      · exact ⟨r, by simp [hr], hx⟩
      · have hrm : r ∉ m := fun hrm => hn ⟨r, hrm, hx⟩
        refine ⟨r, ?_, hx⟩
        simp only [List.mem_append] at hr ⊢
        tauto
    · rintro ⟨r, hr, hx⟩
      by_cases hrm : r ∈ m'
      · exact .inl ⟨r, hrm, hx⟩
      · have hrab : r ∈ a ++ b := by
          simp only [List.mem_append] at hr ⊢
          tauto
        refine .inr ⟨⟨r, by simp only [List.mem_append] at hrab ⊢; tauto, hx⟩, ?_⟩
        rintro ⟨q, hq, hxq⟩
        rcases hout r hrab q hq with hlt | hlt
        · omega
        · omega

/-- A run begins with an element of the set. -/
theorem start_mem (h : MaximalRuns S l) {r : ℕ × ℕ} (hr : r ∈ l) : r.1 ∈ S :=
  (h.mem r.1).mpr ⟨r, hr, le_rfl, h.nonempty r hr⟩

/-- A run ends with an element of the set. -/
theorem last_mem (h : MaximalRuns S l) {r : ℕ × ℕ} (hr : r ∈ l) : r.2 - 1 ∈ S := by
  have hne := h.nonempty r hr
  exact (h.mem _).mpr ⟨r, hr, by omega, by omega⟩

/-- What is before the start of a run is not in the set. -/
theorem pred_start_notMem (h : MaximalRuns S l) {r : ℕ × ℕ} (hr : r ∈ l) (h0 : 0 < r.1) :
    r.1 - 1 ∉ S := by
  intro hmem
  obtain ⟨q, hq, hin⟩ := (h.mem _).mp hmem
  have hne := h.nonempty r hr
  rcases h.trichotomy hr hq with rfl | hrq | hqr
  · omega
  · omega
  · omega

/-- The end of a run is not in the set. -/
theorem end_notMem (h : MaximalRuns S l) {r : ℕ × ℕ} (hr : r ∈ l) : r.2 ∉ S := by
  intro hmem
  obtain ⟨q, hq, hin⟩ := (h.mem _).mp hmem
  have hne := h.nonempty r hr
  rcases h.trichotomy hr hq with rfl | hrq | hqr
  · omega
  · omega
  · omega

end MaximalRuns

/-! ## Unions of blocks -/

/-- The set is a union of blocks of `b` numbers. -/
def UnionOfBlocks (b : ℕ) (S : Set ℕ) : Prop := ∀ x y, x / b = y / b → x ∈ S → y ∈ S

/-- Runs of whole blocks are a union of blocks. -/
theorem MaximalRuns.unionOfBlocks {S : Set ℕ} {l : List (ℕ × ℕ)} {b : ℕ} (h : MaximalRuns S l)
    (hl : ∀ r ∈ l, b ∣ r.1 ∧ b ∣ r.2) : UnionOfBlocks b S := by
  intro x y hxy hx
  obtain ⟨r, hr, h1, h2⟩ := (h.mem x).mp hx
  obtain ⟨⟨c, hc⟩, d, hd⟩ := hl r hr
  have hb : 0 < b := by
    refine Nat.pos_of_ne_zero fun h0 => ?_
    rw [h0, Nat.zero_mul] at hd
    omega
  refine (h.mem y).mpr ⟨r, hr, ?_, ?_⟩
  · rw [hc, Nat.mul_comm] at h1 ⊢
    rw [← Nat.le_div_iff_mul_le hb] at h1 ⊢
    omega
  · rw [hd, Nat.mul_comm] at h2 ⊢
    rw [← Nat.div_lt_iff_lt_mul hb] at h2 ⊢
    omega

namespace UnionOfBlocks

variable {b : ℕ} {S : Set ℕ}

/-- The runs of a union of blocks are whole blocks. -/
theorem dvd (hS : UnionOfBlocks b S) {l : List (ℕ × ℕ)} (h : MaximalRuns S l) {r : ℕ × ℕ}
    (hr : r ∈ l) : b ∣ r.1 ∧ b ∣ r.2 := by
  have hne := h.nonempty r hr
  constructor
  · by_contra hnot
    obtain ⟨n, hn⟩ : ∃ n, r.1 = n + 1 := by
      refine Nat.exists_eq_succ_of_ne_zero fun h0 => hnot ?_
      rw [h0]
      exact dvd_zero b
    -- The number before the start is in the same block.
    have hsame : r.1 / b = (r.1 - 1) / b := by
      rw [hn] at hnot ⊢
      exact Nat.succ_div_of_not_dvd hnot
    exact h.pred_start_notMem hr (by omega) (hS _ _ hsame (h.start_mem hr))
  · by_contra hnot
    obtain ⟨n, hn⟩ : ∃ n, r.2 = n + 1 := ⟨r.2 - 1, by omega⟩
    have hsame : (r.2 - 1) / b = r.2 / b := by
      rw [hn] at hnot ⊢
      exact (Nat.succ_div_of_not_dvd hnot).symm
    exact h.end_notMem hr (hS _ _ hsame (h.last_mem hr))

/-- Without some of its blocks it still is one. -/
theorem diff (hS : UnionOfBlocks b S) {o n : ℕ} (ho : b ∣ o) (hn : b ∣ n) :
    UnionOfBlocks b (S \ {x | o ≤ x ∧ x < o + n}) := by
  rintro x y hxy ⟨hx, hout⟩
  refine ⟨hS x y hxy hx, fun hy => hout ?_⟩
  obtain ⟨c, rfl⟩ := ho
  obtain ⟨d, rfl⟩ := hn
  have hb : 0 < b := by
    refine Nat.pos_of_ne_zero fun h0 => ?_
    obtain ⟨h1, h2⟩ := hy
    rw [h0] at h1 h2
    omega
  obtain ⟨h1, h2⟩ := hy
  rw [← Nat.mul_add, Nat.mul_comm, ← Nat.div_lt_iff_lt_mul hb, ← hxy] at h2
  rw [Nat.mul_comm, ← Nat.le_div_iff_mul_le hb, ← hxy] at h1
  refine ⟨?_, ?_⟩
  · rwa [Nat.mul_comm, ← Nat.le_div_iff_mul_le hb]
  · rwa [← Nat.mul_add, Nat.mul_comm, ← Nat.div_lt_iff_lt_mul hb]

end UnionOfBlocks

end CxxLab
