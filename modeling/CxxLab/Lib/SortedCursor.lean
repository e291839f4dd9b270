import CxxLab.Lib.SortedList

/-!
# Iterators of ordered containers

An iterator of a `std::map` or `std::set` is the element that it points to, if there is one. What
`begin`, `++` and `--` give is described by the keys, so that a proof never looks at positions.
-/

namespace CxxLab.SortedList

variable {α κ : Type*} [LinearOrder κ] {key : α → κ}

/-- `begin`. -/
def front (s : SortedList key) : Option α := s.toList.head?

/-- `++` of an iterator to an element with the key `k`; also `upper_bound`. -/
def next (s : SortedList key) (k : κ) : Option α := s.toList.find? fun a => k < key a

/-- `--` of `lower_bound`. -/
def before (s : SortedList key) (k : κ) : Option α :=
  (s.toList.takeWhile fun a => key a < k).getLast?

variable {s : SortedList key} {a b c : α} {k : κ}

/-- Two elements with one key are one. -/
theorem eq_of_key_eq (ha : a ∈ s.toList) (hb : b ∈ s.toList) (h : key a = key b) : a = b := by
  obtain ⟨i, hi, rfl⟩ := List.getElem_of_mem ha
  obtain ⟨j, hj, rfl⟩ := List.getElem_of_mem hb
  have hsorted := List.pairwise_iff_getElem.mp s.sorted
  rcases lt_trichotomy i j with hlt | rfl | hgt
  · exact absurd h (hsorted i j hi hj hlt).ne
  · rfl
  · exact absurd h (hsorted j i hj hi hgt).ne'

/-- Only an empty container has no first element. -/
theorem front_eq_none (h : s.front = none) : s.toList = [] := List.head?_eq_none_iff.mp h

/-- The first element is the least. -/
theorem front_eq_some (h : s.front = some b) :
    b ∈ s.toList ∧ ∀ c ∈ s.toList, key b ≤ key c := by
  obtain ⟨l, hl⟩ := List.head?_eq_some_iff.mp h
  have hsorted := s.sorted
  rw [hl, List.pairwise_cons] at hsorted
  rw [hl]
  refine ⟨List.mem_cons_self, fun c hc => ?_⟩
  rcases List.mem_cons.mp hc with rfl | hc
  · exact le_refl _
  · exact (hsorted.1 c hc).le

/-- There is no next element when no key is greater. -/
theorem next_eq_none (h : s.next k = none) : ∀ c ∈ s.toList, key c ≤ k := by
  intro c hc
  have := List.find?_eq_none.mp h c hc
  simpa using this

/-- The next element is the least of those behind the key. -/
theorem next_eq_some (h : s.next k = some b) :
    b ∈ s.toList ∧ k < key b ∧ ∀ c ∈ s.toList, k < key c → key b ≤ key c := by
  obtain ⟨hb, as, bs, hl, has⟩ := List.find?_eq_some_iff_append.mp h
  have hsorted := s.sorted
  rw [hl, List.pairwise_append, List.pairwise_cons] at hsorted
  obtain ⟨-, ⟨hafter, -⟩, -⟩ := hsorted
  rw [hl]
  refine ⟨by simp, by simpa using hb, fun c hc hk => ?_⟩
  rcases List.mem_append.mp hc with hc | hc
  · exact absurd hk (by simpa using has c hc)
  · rcases List.mem_cons.mp hc with rfl | hc
    · exact le_refl _
    · exact (hafter c hc).le

/-- There is no element before when no key is smaller. -/
theorem before_eq_none (h : s.before k = none) : ∀ c ∈ s.toList, k ≤ key c := by
  intro c hc
  have hempty : s.toList.takeWhile (fun a => key a < k) = [] := List.getLast?_eq_none_iff.mp h
  obtain ⟨b, hb⟩ : ∃ b, s.front = some b := by
    cases hf : s.front with
    | none =>
      rw [front_eq_none hf] at hc
      exact absurd hc List.not_mem_nil
    | some b => exact ⟨b, rfl⟩
  obtain ⟨l, hl⟩ := List.head?_eq_some_iff.mp hb
  rw [hl, List.takeWhile_cons] at hempty
  have hk : ¬ key b < k := by
    intro hk
    rw [if_pos (by simpa using hk)] at hempty
    cases hempty
  exact (not_lt.mp hk).trans ((front_eq_some hb).2 c hc)

/-- The element before is the greatest of those in front of the key. -/
theorem before_eq_some (h : s.before k = some b) :
    b ∈ s.toList ∧ key b < k ∧ ∀ c ∈ s.toList, key c < k → key c ≤ key b := by
  obtain ⟨l, hl⟩ := List.getLast?_eq_some_iff.mp h
  have hmem : ∀ c, c ∈ s.toList.takeWhile (fun a => key a < k) ↔ c ∈ s.toList ∧ key c < k := by
    intro c
    rw [mem_takeWhile_of_sorted s.sorted]
    constructor
    · rintro ⟨hc, hall⟩
      exact ⟨hc, by simpa using hall c hc (le_refl _)⟩
    · rintro ⟨hc, hk⟩
      exact ⟨hc, fun d _ hle => by simpa using hle.trans_lt hk⟩
  have hsorted := s.sorted.sublist (List.takeWhile_sublist fun a => decide (key a < k))
  rw [hl, List.pairwise_append] at hsorted
  obtain ⟨hb, hk⟩ := (hmem b).mp (by rw [hl]; simp)
  refine ⟨hb, hk, fun c hc hck => ?_⟩
  have hin := (hmem c).mpr ⟨hc, hck⟩
  rw [hl, List.mem_append, List.mem_singleton] at hin
  rcases hin with hin | rfl
  · exact (hsorted.2.2 c hin b (List.mem_singleton_self _)).le
  · exact le_refl _

/-! ## Changes -/

/-- An element whose key is free is inserted. -/
theorem mem_insert (h : ∀ c ∈ s.toList, key c ≠ key a) :
    c ∈ (s.insert a).toList ↔ c = a ∨ c ∈ s.toList := by
  constructor
  · exact mem_place
  · rintro (rfl | hc)
    · exact mem_place_self c h
    · exact mem_place_of_mem a hc

/-- At most one element is added. -/
theorem length_place_le (a : α) (l : List α) : (place key a l).length ≤ l.length + 1 := by
  induction l with
  | nil => exact le_refl _
  | cons b l ih =>
    unfold place
    split_ifs
    · exact le_refl _
    · exact Nat.succ_le_succ ih
    · exact Nat.le_succ _

/-- An insertion adds one element at most. -/
theorem length_insert_le (s : SortedList key) (a : α) :
    (s.insert a).toList.length ≤ s.toList.length + 1 := length_place_le a s.toList

/-- An element with a new key is added. -/
theorem length_place {l : List α} (h : ∀ c ∈ l, key c ≠ key a) :
    (place key a l).length = l.length + 1 := by
  induction l with
  | nil => rfl
  | cons b l ih =>
    unfold place
    split_ifs with hlt hgt
    · rfl
    · exact congrArg (· + 1) (ih fun c hc => h c (List.mem_cons_of_mem _ hc))
    · exact absurd (le_antisymm (not_lt.mp hlt) (not_lt.mp hgt)) (h b List.mem_cons_self)

/-- An element whose key is free makes the container longer. -/
theorem length_insert (h : ∀ c ∈ s.toList, key c ≠ key a) :
    (s.insert a).toList.length = s.toList.length + 1 := length_place h

/-- One element has the key of an element. -/
theorem length_filter_ne {l : List α} (h : l.Pairwise fun a b => key a < key b) (ha : a ∈ l) :
    (l.filter fun b => decide (key b ≠ key a)).length + 1 = l.length := by
  induction l with
  | nil => cases ha
  | cons b l ih =>
    obtain ⟨hb, hl⟩ := List.pairwise_cons.mp h
    rcases List.mem_cons.mp ha with rfl | ha
    · have hself : (l.filter fun b => decide (key b ≠ key a)) = l :=
        List.filter_eq_self.mpr fun c hc => by simpa using (hb c hc).ne'
      rw [List.filter_cons_of_neg (by simp), hself]
      rfl
    · rw [List.filter_cons_of_pos (by simpa using (hb a ha).ne), List.length_cons, ih hl ha]
      rfl

/-- A removal takes one element. -/
theorem length_remove (h : a ∈ s.toList) :
    (s.remove (key a)).toList.length + 1 = s.toList.length := length_filter_ne s.sorted h

/-- An element goes when its key is removed. -/
theorem length_remove_lt (h : a ∈ s.toList) : (s.remove (key a)).toList.length < s.toList.length :=
  List.length_filter_lt_length_iff_exists.mpr ⟨a, h, by simp⟩

/-- An insertion adds one at most to a count. -/
theorem countP_place_le (p : α → Bool) (a : α) (l : List α) :
    (place key a l).countP p ≤ l.countP p + if p a then 1 else 0 := by
  induction l with
  | nil => simp [place, List.countP_cons]
  | cons b l ih =>
    have hb : (b :: l).countP p = l.countP p + if p b then 1 else 0 := List.countP_cons
    unfold place
    by_cases hlt : key a < key b
    · rw [if_pos hlt, List.countP_cons]
    · by_cases hgt : key b < key a
      · rw [if_neg hlt, if_pos hgt, List.countP_cons]
        omega
      · rw [if_neg hlt, if_neg hgt]
        exact Nat.le_add_right _ _

/-- An insertion adds at most one element of a kind. -/
theorem countP_insert_le (p : α → Bool) (s : SortedList key) (a : α) :
    (s.insert a).toList.countP p ≤ s.toList.countP p + if p a then 1 else 0 :=
  countP_place_le p a s.toList

/-- A removal takes an element of its kind. -/
theorem countP_remove_lt {p : α → Bool} (h : a ∈ s.toList) (hp : p a = true) :
    (s.remove (key a)).toList.countP p < s.toList.countP p := by
  show (s.toList.filter fun b => key b ≠ key a).countP p < _
  rw [List.countP_filter, List.countP_eq_length_filter, List.countP_eq_length_filter]
  refine lt_of_le_of_ne (List.Sublist.length_le ?_) fun heq => ?_
  · exact List.monotone_filter_right _ fun b hb => by simp_all
  · have hsub : (s.toList.filter fun b => p b && decide (key b ≠ key a)).Sublist
        (s.toList.filter p) := List.monotone_filter_right _ fun b hb => by simp_all
    have hin : a ∈ s.toList.filter p := List.mem_filter.mpr ⟨h, hp⟩
    rw [← hsub.eq_of_length heq] at hin
    simp at hin

/-! ## Iteration -/

/-- The number of elements from an iterator on. -/
def rest (s : SortedList key) (it : Option α) : ℕ :=
  it.elim 0 fun a => s.toList.countP fun c => key a ≤ key c

/-- No more elements are left than there are. -/
theorem rest_le (s : SortedList key) (it : Option α) : s.rest it ≤ s.toList.length := by
  cases it with
  | none => exact Nat.zero_le _
  | some a => exact List.countP_le_length

/-- An iterator has fewer elements before it after each step. -/
theorem rest_next_lt (h : a ∈ s.toList) : s.rest (s.next (key a)) < s.rest (some a) := by
  have hpos : 0 < s.rest (some a) := List.countP_pos_iff.mpr ⟨a, h, by simp⟩
  cases hn : s.next (key a) with
  | none => exact hpos
  | some b =>
    obtain ⟨-, hlt, -⟩ := next_eq_some hn
    show (s.toList.countP fun c => key b ≤ key c) < s.toList.countP fun c => key a ≤ key c
    rw [List.countP_eq_length_filter, List.countP_eq_length_filter]
    have hsub : (s.toList.filter fun c => decide (key b ≤ key c)).Sublist
        (s.toList.filter fun c => decide (key a ≤ key c)) :=
      List.monotone_filter_right _ fun c hc => by
        simpa using hlt.le.trans (by simpa using hc)
    refine lt_of_le_of_ne hsub.length_le fun heq => ?_
    have hin : a ∈ s.toList.filter fun c => decide (key a ≤ key c) :=
      List.mem_filter.mpr ⟨h, by simp⟩
    rw [← hsub.eq_of_length heq] at hin
    exact absurd (by simpa using (List.mem_filter.mp hin).2) (not_le.mpr hlt)

end CxxLab.SortedList
