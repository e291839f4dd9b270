import Mathlib

/-!
# Segments

A segment is an address with the values at it and at the addresses behind it. A list of segments
holds the values at the addresses of all of them; cutting a range out of it leaves the values
outside of the range.
-/

namespace CxxLab.Segments

variable {β : Type*} {lo hi x : ℕ} {v : β} {a : ℕ × List β} {l : List (ℕ × List β)}

/-- The address behind the last one of a segment. -/
def stop (a : ℕ × List β) : ℕ := a.1 + a.2.length

/-- The values with their addresses, segment by segment. -/
def cells (l : List (ℕ × List β)) : List (β × ℕ) := l.flatMap fun a => a.2.zipIdx a.1

/-- What is left of a segment outside of a range. -/
def cut (lo hi : ℕ) (a : ℕ × List β) : List (ℕ × List β) :=
  (if a.1 < lo then [(a.1, a.2.take (lo - a.1))] else []) ++
    if hi < stop a then [(max a.1 hi, a.2.drop (hi - a.1))] else []

/-- The bytes of the segments. -/
def total (l : List (ℕ × List β)) : ℕ := (l.map fun a => a.2.length).sum

/-- The segments lie one behind the other, and none is empty. -/
def Ordered (l : List (ℕ × List β)) : Prop :=
  l.Pairwise (fun a b => stop a ≤ b.1) ∧ ∀ a ∈ l, a.2 ≠ []

/-- No segments have no cells. -/
@[simp] theorem cells_nil : cells ([] : List (ℕ × List β)) = [] := rfl

/-- The cells of the first segment come first. -/
@[simp] theorem cells_cons : cells (a :: l) = a.2.zipIdx a.1 ++ cells l := List.flatMap_cons

/-- The cells of two lists of segments. -/
@[simp] theorem cells_append (l l' : List (ℕ × List β)) : cells (l ++ l') = cells l ++ cells l' :=
  List.flatMap_append

/-- No segments have no elements. -/
@[simp] theorem total_nil : total ([] : List (ℕ × List β)) = 0 := rfl

/-- The first segment counts with its length. -/
@[simp] theorem total_cons : total (a :: l) = a.2.length + total l := by
  rw [total, List.map_cons, List.sum_cons, total]

/-- The lengths of two lists of segments add up. -/
@[simp] theorem total_append (l l' : List (ℕ × List β)) : total (l ++ l') = total l + total l' := by
  rw [total, List.map_append, List.sum_append, total, total]

/-- The value of a segment at an address. -/
theorem mem_segment : (v, x) ∈ a.2.zipIdx a.1 ↔ a.1 ≤ x ∧ a.2[x - a.1]? = some v :=
  List.mk_mem_zipIdx_iff_le_and_getElem?_sub

/-- A cell belongs to one of the segments. -/
theorem mem_cells : (v, x) ∈ cells l ↔ ∃ a ∈ l, (v, x) ∈ a.2.zipIdx a.1 := List.mem_flatMap

/-- A segment holds a value at its addresses and nowhere else. -/
theorem exists_mem_segment : (∃ v, (v, x) ∈ a.2.zipIdx a.1) ↔ a.1 ≤ x ∧ x < stop a := by
  unfold stop
  constructor
  · rintro ⟨v, hv⟩
    obtain ⟨hle, hget⟩ := mem_segment.mp hv
    have := (List.getElem?_eq_some_iff.mp hget).1
    omega
  · rintro ⟨hle, hlt⟩
    exact ⟨a.2.get ⟨x - a.1, by omega⟩, mem_segment.mpr ⟨hle, List.getElem?_eq_getElem _⟩⟩

/-- Ordered segments hold each address once, in order. -/
theorem Ordered.addresses (h : Ordered l) : ((cells l).map Prod.snd).Pairwise (· < ·) := by
  obtain ⟨h, -⟩ := h
  induction l with
  | nil => exact List.Pairwise.nil
  | cons a l ih =>
    obtain ⟨ha, hl⟩ := List.pairwise_cons.mp h
    rw [cells_cons, List.map_append, List.zipIdx_map_snd]
    refine List.pairwise_append.mpr ⟨List.pairwise_lt_range', ih hl, fun x hx y hy => ?_⟩
    obtain ⟨⟨v, y'⟩, hv, rfl⟩ := List.mem_map.mp hy
    obtain ⟨c, hc, hvc⟩ := mem_cells.mp hv
    have hstart := (mem_segment.mp hvc).1
    have hbehind := ha c hc
    have hin := (List.mem_range'_1.mp hx).2
    unfold stop at hbehind
    omega

/-! ## Cutting -/

/-- What is left of a segment are its values outside of the range. -/
theorem mem_cells_cut :
    (v, x) ∈ cells (cut lo hi a) ↔ (v, x) ∈ a.2.zipIdx a.1 ∧ (x < lo ∨ hi ≤ x) := by
  have hhead : (v, x) ∈ cells (if a.1 < lo then [(a.1, a.2.take (lo - a.1))] else []) ↔
      (v, x) ∈ a.2.zipIdx a.1 ∧ x < lo := by
    split_ifs with hlo
    · rw [cells_cons, cells_nil, List.append_nil, mem_segment, mem_segment]
      dsimp only
      rw [List.getElem?_take]
      constructor
      · rintro ⟨hle, hget⟩
        split_ifs at hget with hx
        exact ⟨⟨hle, hget⟩, by omega⟩
      · rintro ⟨⟨hle, hget⟩, hx⟩
        exact ⟨hle, (if_pos (by omega)).trans hget⟩
    · rw [cells_nil, mem_segment]
      constructor
      · exact fun hmem => absurd hmem List.not_mem_nil
      · rintro ⟨⟨hle, -⟩, hx⟩
        omega
  have htail : (v, x) ∈ cells (if hi < stop a then [(max a.1 hi, a.2.drop (hi - a.1))] else []) ↔
      (v, x) ∈ a.2.zipIdx a.1 ∧ hi ≤ x := by
    split_ifs with hhi
    · rw [cells_cons, cells_nil, List.append_nil, mem_segment, mem_segment]
      dsimp only
      rw [List.getElem?_drop]
      constructor
      · rintro ⟨hle, hget⟩
        have hidx : hi - a.1 + (x - max a.1 hi) = x - a.1 := by omega
        exact ⟨⟨by omega, hidx ▸ hget⟩, by omega⟩
      · rintro ⟨⟨hle, hget⟩, hx⟩
        have hidx : hi - a.1 + (x - max a.1 hi) = x - a.1 := by omega
        exact ⟨by omega, hidx ▸ hget⟩
    · rw [cells_nil]
      constructor
      · exact fun hmem => absurd hmem List.not_mem_nil
      · rintro ⟨hmem, hx⟩
        have := (exists_mem_segment.mp ⟨v, hmem⟩).2
        omega
  rw [cut, cells_append, List.mem_append, hhead, htail, ← and_or_left]

/-- What is left of a list of segments are the values outside of the range. -/
theorem mem_cells_flatMap_cut :
    (v, x) ∈ cells (l.flatMap (cut lo hi)) ↔ (v, x) ∈ cells l ∧ (x < lo ∨ hi ≤ x) := by
  induction l with
  | nil => simp
  | cons a l ih =>
    rw [List.flatMap_cons, cells_append, List.mem_append, mem_cells_cut, ih, cells_cons,
      List.mem_append, or_and_right]

/-- A segment before the range stays. -/
theorem cut_of_stop_le (h : stop a ≤ lo) (hne : a.2 ≠ []) (hle : lo ≤ hi) :
    cut lo hi a = [a] := by
  have hpos := List.length_pos_iff.mpr hne
  unfold stop at h
  unfold cut stop
  rw [if_pos (by omega), if_neg (by omega), List.take_of_length_le (by omega)]
  rfl

/-- So does one behind it. -/
theorem cut_of_le_start (h : hi ≤ a.1) (hne : a.2 ≠ []) (hle : lo ≤ hi) :
    cut lo hi a = [a] := by
  have hpos := List.length_pos_iff.mpr hne
  unfold cut stop
  rw [if_neg (by omega), if_pos (by omega), max_eq_left h, Nat.sub_eq_zero_of_le h, List.drop_zero]
  rfl

/-- A segment that begins in the range keeps what is behind the range. -/
theorem cut_of_le_of_lt_stop (hlo : lo ≤ a.1) (hhi : hi < stop a) :
    cut lo hi a = [(max a.1 hi, a.2.drop (hi - a.1))] := by
  unfold cut
  rw [if_neg (not_lt.mpr hlo), if_pos hhi, List.nil_append]

/-- A segment in the range goes. -/
theorem cut_of_inside (hlo : lo ≤ a.1) (hhi : stop a ≤ hi) : cut lo hi a = [] := by
  unfold cut
  rw [if_neg (not_lt.mpr hlo), if_neg (not_lt.mpr hhi), List.nil_append]

/-- A segment that begins before the range and ends in it keeps what is before the range. -/
theorem cut_of_lt_of_stop_le (hlo : a.1 < lo) (hhi : stop a ≤ hi) :
    cut lo hi a = [(a.1, a.2.take (lo - a.1))] := by
  unfold cut
  rw [if_pos hlo, if_neg (not_lt.mpr hhi), List.append_nil]

/-- A segment around the range is cut in two. -/
theorem cut_of_around (hlo : a.1 < lo) (hhi : hi < stop a) :
    cut lo hi a = [(a.1, a.2.take (lo - a.1)), (max a.1 hi, a.2.drop (hi - a.1))] := by
  unfold cut
  rw [if_pos hlo, if_pos hhi]
  rfl

/-- So do all segments that have nothing in the range. -/
theorem flatMap_cut_of_outside (h : ∀ a ∈ l, a.2 ≠ [] ∧ (stop a ≤ lo ∨ hi ≤ a.1)) (hle : lo ≤ hi) :
    l.flatMap (cut lo hi) = l := by
  induction l with
  | nil => rfl
  | cons a l ih =>
    have hcut : cut lo hi a = [a] := by
      obtain ⟨hne, hstop | hstart⟩ := h a List.mem_cons_self
      · exact cut_of_stop_le hstop hne hle
      · exact cut_of_le_start hstart hne hle
    rw [List.flatMap_cons, hcut, ih fun c hc => h c (List.mem_cons_of_mem _ hc),
      List.singleton_append]

/-- The pieces of a segment lie inside of it and outside of the range. -/
theorem mem_cut {b : ℕ × List β} (h : b ∈ cut lo hi a) (hne : a.2 ≠ []) :
    a.1 ≤ b.1 ∧ stop b ≤ stop a ∧ b.2 ≠ [] ∧ (stop b ≤ lo ∨ hi ≤ b.1) := by
  have hpos := List.length_pos_iff.mpr hne
  rcases List.mem_append.mp h with h | h
  · split_ifs at h with hlo
    · obtain rfl := List.mem_singleton.mp h
      have hlen : (a.2.take (lo - a.1)).length = min (lo - a.1) a.2.length := List.length_take
      have hpiece : 0 < (a.2.take (lo - a.1)).length := by omega
      refine ⟨le_refl _, ?_, List.length_pos_iff.mp hpiece, .inl ?_⟩ <;>
        simp only [stop] <;> omega
    · exact absurd h List.not_mem_nil
  · split_ifs at h with hhi
    · obtain rfl := List.mem_singleton.mp h
      have hlen : (a.2.drop (hi - a.1)).length = a.2.length - (hi - a.1) := List.length_drop
      unfold stop at hhi
      have hpiece : 0 < (a.2.drop (hi - a.1)).length := by omega
      refine ⟨le_max_left _ _, ?_, List.length_pos_iff.mp hpiece, .inr (le_max_right _ _)⟩
      simp only [stop]
      omega
    · exact absurd h List.not_mem_nil

/-- No value is added. -/
theorem total_flatMap_cut_le (h : lo ≤ hi) : total (l.flatMap (cut lo hi)) ≤ total l := by
  have hcut : ∀ a : ℕ × List β, total (cut lo hi a) ≤ a.2.length := by
    intro a
    unfold cut
    rw [total_append]
    split_ifs with hlo hhi <;>
      simp only [total_cons, total_nil, List.length_take, List.length_drop] <;> omega
  induction l with
  | nil => exact le_refl _
  | cons a l ih =>
    rw [List.flatMap_cons, total_append, total_cons]
    exact Nat.add_le_add (hcut a) ih

/-- What is left of a segment on both sides of a range is in order. -/
theorem pairwise_cut (h : lo ≤ hi) : (cut lo hi a).Pairwise fun b c => stop b ≤ c.1 := by
  refine List.pairwise_append.mpr ⟨?_, ?_, fun b hb c hc => ?_⟩
  · split_ifs
    · exact List.pairwise_singleton _ _
    · exact List.Pairwise.nil
  · split_ifs
    · exact List.pairwise_singleton _ _
    · exact List.Pairwise.nil
  · split_ifs at hb hc with hlo hhi
    · obtain rfl := List.mem_singleton.mp hb
      obtain rfl := List.mem_singleton.mp hc
      have hlen : (a.2.take (lo - a.1)).length = min (lo - a.1) a.2.length := List.length_take
      simp only [stop]
      omega
    all_goals simp at hb hc

/-- Cutting keeps the order. -/
theorem ordered_flatMap_cut (h : Ordered l) (hle : lo ≤ hi) : Ordered (l.flatMap (cut lo hi)) := by
  obtain ⟨hpair, hne⟩ := h
  constructor
  · induction l with
    | nil => exact List.Pairwise.nil
    | cons a l ih =>
      obtain ⟨ha, hl⟩ := List.pairwise_cons.mp hpair
      rw [List.flatMap_cons]
      refine List.pairwise_append.mpr ⟨pairwise_cut hle,
        ih hl fun b hb => hne b (List.mem_cons_of_mem _ hb), fun b hb c hc => ?_⟩
      obtain ⟨d, hd, hcd⟩ := List.mem_flatMap.mp hc
      calc stop b ≤ stop a := (mem_cut hb (hne a List.mem_cons_self)).2.1
        _ ≤ d.1 := ha d hd
        _ ≤ c.1 := (mem_cut hcd (hne d (List.mem_cons_of_mem _ hd))).1
  · intro b hb
    obtain ⟨a, ha, hab⟩ := List.mem_flatMap.mp hb
    exact (mem_cut hab (hne a ha)).2.2.1

end CxxLab.Segments
