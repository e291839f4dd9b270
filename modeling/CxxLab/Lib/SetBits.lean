import Mathlib.Data.List.Range
import Mathlib.Data.List.Pairwise
import Mathlib.Data.List.Nodup
import Mathlib.Tactic.Common

/-!
# The set bits of a range

The positions of the set bits of a range in ascending order (`setBits`), as a scan of the range
comes to them: how the list splits at a position, what a run of set bits or of clear bits does to
it, and that it reads only the bits of the range. A list of positions is `BlockClosed` when with a
position it has the whole aligned block of `U` around it. The first run of such a list is whole
blocks, and so is what is left of it without some of its blocks.
-/

namespace CxxLab.SetBits

/-- The positions of the set bits from `p` up to `e`. -/
def setBits (bits : ℕ → Bool) (p e : ℕ) : List ℕ := (List.range' p (e - p)).filter bits

variable {bits bits' : ℕ → Bool} {p q e u k : ℕ}

/-- The listed positions are those of the range whose bit is set. -/
@[simp]
theorem mem_setBits : u ∈ setBits bits p e ↔ (p ≤ u ∧ u < e) ∧ bits u = true := by
  rw [setBits, List.mem_filter, List.mem_range'_1]
  exact and_congr_left fun _ => and_congr_right fun _ => by omega

/-- No position is listed twice. -/
theorem setBits_nodup (bits : ℕ → Bool) (p e : ℕ) : (setBits bits p e).Nodup :=
  List.Nodup.filter _ List.nodup_range'

/-- An empty range has no positions. -/
theorem setBits_of_le (h : e ≤ p) : setBits bits p e = [] := by
  rw [setBits, Nat.sub_eq_zero_of_le h]
  rfl

/-- Nothing is listed exactly when every bit of the range is clear. -/
theorem setBits_eq_nil_iff : setBits bits p e = [] ↔ ∀ u, p ≤ u → u < e → bits u = false := by
  rw [List.eq_nil_iff_forall_not_mem]
  refine forall_congr' fun u => ?_
  rw [mem_setBits, Bool.eq_false_iff]
  tauto

/-- The list reads the bits of the range only. -/
theorem setBits_congr (h : ∀ u, p ≤ u → u < e → bits' u = bits u) :
    setBits bits' p e = setBits bits p e :=
  List.filter_congr fun u hu => by
    rw [List.mem_range'_1] at hu
    exact h u hu.1 (by omega)

/-- A range can be listed in two parts. -/
theorem setBits_append (hpq : p ≤ q) (hqe : q ≤ e) :
    setBits bits p e = setBits bits p q ++ setBits bits q e := by
  rw [setBits, setBits, setBits, ← List.filter_append]
  congr 1
  calc List.range' p (e - p) = List.range' p ((q - p) + (e - q)) := by
        rw [show q - p + (e - q) = e - p by omega]
    _ = List.range' p (q - p) ++ List.range' q (e - q) := by
        rw [← List.range'_append_1, Nat.add_sub_cancel' hpq]

/-- A run of clear bits is skipped. -/
theorem setBits_skip (hpq : p ≤ q) (h : ∀ u, p ≤ u → u < q → bits u = false) :
    setBits bits p e = setBits bits q e := by
  rcases le_total q e with hqe | heq
  · rw [setBits_append hpq hqe, setBits_eq_nil_iff.mpr h, List.nil_append]
  · rw [setBits_of_le heq]
    exact setBits_eq_nil_iff.mpr fun u hu hlt => h u hu (hlt.trans_le heq)

/-- A run of set bits. -/
theorem setBits_run (hk : p + k ≤ e) (h : ∀ u, p ≤ u → u < p + k → bits u = true) :
    setBits bits p e = List.range' p k ++ setBits bits (p + k) e := by
  rw [setBits_append (Nat.le_add_right p k) hk]
  congr 1
  rw [setBits, Nat.add_sub_cancel_left]
  exact List.filter_eq_self.mpr fun u hu => by
    rw [List.mem_range'_1] at hu
    exact h u hu.1 hu.2

/-- Ranges of one length, side by side. -/
theorem flatMap_setBits (bits : ℕ → Bool) (w : ℕ) : ∀ n a,
    (List.range' a n).flatMap (fun i => setBits bits (w * i) (w * i + w)) =
      setBits bits (w * a) (w * a + w * n)
  | 0, a => (setBits_of_le (by simp)).symm
  | n + 1, a => by
    rw [List.range'_succ, List.flatMap_cons, flatMap_setBits bits w n (a + 1)]
    rw [setBits_append (q := w * a + w) (e := w * a + w * (n + 1)) (Nat.le_add_right _ _)
      (Nat.add_le_add_left (Nat.le_mul_of_pos_right w n.succ_pos) _)]
    rw [Nat.mul_add w a 1, Nat.mul_add w n 1, Nat.mul_one, Nat.add_assoc, Nat.add_comm w (w * n)]

/-- The set bits are those that are left when some are cleared, and the cleared ones. -/
theorem length_setBits_without {t : List ℕ} (ht : t.Nodup)
    (hset : ∀ u ∈ t, (p ≤ u ∧ u < e) ∧ bits u = true)
    (hbits : ∀ u, bits' u = (bits u && decide (u ∉ t))) :
    (setBits bits p e).length = (setBits bits' p e).length + t.length := by
  have hmem : ∀ u, u ∈ setBits bits' p e ↔ u ∈ setBits bits p e ∧ u ∉ t := fun u => by
    rw [mem_setBits, mem_setBits, hbits, Bool.and_eq_true, decide_eq_true_eq]
    exact and_assoc.symm
  have hd : (setBits bits' p e ++ t).Nodup :=
    List.nodup_append.mpr ⟨setBits_nodup bits' p e, ht, fun a ha b hb hab =>
      ((hmem a).mp ha).2 (hab ▸ hb)⟩
  rw [← List.length_append]
  refine List.Perm.length_eq ((List.perm_ext_iff_of_nodup (setBits_nodup bits p e) hd).mpr ?_)
  intro u
  rw [List.mem_append, hmem]
  constructor
  · intro hu
    by_cases hin : u ∈ t
    · exact .inr hin
    · exact .inl ⟨hu, hin⟩
  · rintro (hu | hu)
    · exact hu.1
    · exact mem_setBits.mpr (hset u hu)

/-! ## Blocks -/

/-- With a position, the list has the whole block of it. -/
def BlockClosed (U : ℕ) (t : List ℕ) : Prop := ∀ u ∈ t, ∀ v, v / U = u / U → v ∈ t

/-- Every list is whole in blocks of one position. -/
theorem blockClosed_one (t : List ℕ) : BlockClosed 1 t := fun u hu v hv => by
  rw [Nat.div_one, Nat.div_one] at hv
  exact hv ▸ hu

variable {U : ℕ} {t t₁ t₂ : List ℕ}

/-- What is left when whole blocks are taken away. -/
theorem BlockClosed.right (h : BlockClosed U (t₁ ++ t₂)) (h₁ : BlockClosed U t₁)
    (hd : (t₁ ++ t₂).Nodup) : BlockClosed U t₂ := by
  intro u hu v hv
  rcases List.mem_append.mp (h u (List.mem_append_right _ hu) v hv) with hv₁ | hv₂
  · exact absurd rfl ((List.nodup_append.mp hd).2.2 u (h₁ v hv₁ u hv.symm) u hu)
  · exact hv₂

/-- The part of the list in a range of whole blocks. -/
theorem BlockClosed.left {w i : ℕ} (h : BlockClosed U (t₁ ++ t₂)) (hw : U ∣ w)
    (h₁ : ∀ u ∈ t₁, u / w = i) (h₂ : ∀ u ∈ t₂, u / w ≠ i) : BlockClosed U t₁ := by
  obtain ⟨m, rfl⟩ := hw
  intro u hu v hv
  rcases List.mem_append.mp (h u (List.mem_append_left _ hu) v hv) with hv₁ | hv₂
  · exact hv₁
  · refine absurd ?_ (h₂ v hv₂)
    rw [← h₁ u hu, ← Nat.div_div_eq_div_mul, ← Nat.div_div_eq_div_mul, hv]

/-- A run at the beginning of the list, which does not go on, is whole blocks. -/
theorem BlockClosed.run (hU : 0 < U) (h : BlockClosed U (List.range' p k ++ t)) (hk : 0 < k)
    (hfirst : ∀ u ∈ t, p < u) (hlast : p + k ∉ t) : U ∣ p ∧ U ∣ k := by
  have hrun : ∀ v ∈ List.range' p k ++ t, p ≤ v := by
    intro v hv
    rcases List.mem_append.mp hv with hv | hv
    · exact (List.mem_range'_1.mp hv).1
    · exact (hfirst v hv).le
  have hmem : ∀ u, p ≤ u → u < p + k → u ∈ List.range' p k ++ t := fun u h1 h2 =>
    List.mem_append_left _ (List.mem_range'_1.mpr ⟨h1, h2⟩)
  -- The block of the first position begins there.
  have hp : U ∣ p := by
    have hstart := hrun _ (h p (hmem p (le_refl p) (by omega)) (U * (p / U))
      (Nat.mul_div_cancel_left _ hU))
    have hle := Nat.mul_div_le p U
    exact ⟨p / U, by omega⟩
  refine ⟨hp, (Nat.dvd_add_right hp).mp ?_⟩
  -- The block of the last one does not go on.
  by_contra hnot
  have hsame : (p + k) / U = (p + k - 1) / U := by
    rw [show p + k = (p + k - 1) + 1 by omega, Nat.succ_div_of_not_dvd]
    · rfl
    · rwa [show p + k - 1 + 1 = p + k by omega]
  rcases List.mem_append.mp (h _ (hmem (p + k - 1) (by omega) (by omega)) _ hsame) with hin | hin
  · exact absurd (List.mem_range'_1.mp hin).2 (lt_irrefl _)
  · exact hlast hin

/-- A run that begins and ends with blocks is whole. -/
theorem blockClosed_run (hp : U ∣ p) (hk : U ∣ k) : BlockClosed U (List.range' p k) := by
  obtain ⟨a, rfl⟩ := hp
  obtain ⟨b, rfl⟩ := hk
  intro u hu v hv
  rw [List.mem_range'_1, ← Nat.mul_add] at hu ⊢
  rcases Nat.eq_zero_or_pos U with rfl | hU
  · omega
  · rw [Nat.mul_comm U a, Nat.mul_comm U, ← Nat.le_div_iff_mul_le hU, ← Nat.div_lt_iff_lt_mul hU]
      at hu ⊢
    rwa [hv]

end CxxLab.SetBits
