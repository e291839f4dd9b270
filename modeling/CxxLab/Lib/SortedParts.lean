import CxxLab.Lib.SortedMap

/-!
# Ordered containers in two parts

Code that goes through a `std::map` with an iterator, and changes the map where the iterator stands,
is followed on the list of the elements: those before the iterator, and those from it on.
-/

namespace CxxLab.SortedList

variable {α κ : Type*} [LinearOrder κ] {key : α → κ}

/-- `lower_bound`. -/
def lowerBound (s : SortedList key) (k : κ) : Option α := s.toList.find? fun a => k ≤ key a

variable {s : SortedList key} {pre post : List α} {a b : α} {k : κ}

/-- The elements below a key and the others. -/
theorem exists_parts (s : SortedList key) (k : κ) :
    ∃ pre post, s.toList = pre ++ post ∧ (∀ b ∈ pre, key b < k) ∧ ∀ b ∈ post, k ≤ key b := by
  refine ⟨s.toList.takeWhile fun a => key a < k, s.toList.dropWhile fun a => key a < k,
    List.takeWhile_append_dropWhile.symm, fun b hb => ?_, fun b hb => ?_⟩
  · simpa using List.mem_takeWhile_imp hb
  · obtain ⟨-, c, -, hle, hc⟩ := (mem_dropWhile_of_sorted s.sorted).mp hb
    exact (not_lt.mp (by simpa using hc)).trans hle

/-- The parts are in order. -/
theorem lt_of_parts (h : s.toList = pre ++ post) (ha : a ∈ pre) (hb : b ∈ post) : key a < key b :=
  (List.pairwise_append.mp (h ▸ s.sorted)).2.2 a ha b hb

/-- The elements behind an element have greater keys. -/
theorem lt_of_parts_cons (h : s.toList = pre ++ a :: post) (hb : b ∈ post) : key a < key b := by
  have hsorted := (List.pairwise_append.mp (h ▸ s.sorted)).2.1
  exact (List.pairwise_cons.mp hsorted).1 b hb

/-- `lower_bound` is the first element of the second part. -/
theorem lowerBound_of_parts (h : s.toList = pre ++ post) (hpre : ∀ b ∈ pre, key b < k)
    (hpost : ∀ b ∈ post, k ≤ key b) : s.lowerBound k = post.head? := by
  have hnone : pre.find? (fun a => decide (k ≤ key a)) = none :=
    List.find?_eq_none.mpr fun b hb => by simpa using hpre b hb
  unfold lowerBound
  rw [h, List.find?_append, hnone, Option.none_or]
  cases post with
  | nil => rfl
  | cons b post => exact List.find?_cons_of_pos (by simpa using hpost b List.mem_cons_self)

/-- `--` from there is the last element of the first part. -/
theorem before_of_parts (h : s.toList = pre ++ post) (hpre : ∀ b ∈ pre, key b < k)
    (hpost : ∀ b ∈ post, k ≤ key b) : s.before k = pre.getLast? := by
  have hnone : post.takeWhile (fun a => decide (key a < k)) = [] := by
    cases post with
    | nil => rfl
    | cons b post =>
      exact List.takeWhile_cons_of_neg (by simpa using hpost b List.mem_cons_self)
  unfold before
  rw [h, List.takeWhile_append_of_pos fun b hb => by simpa using hpre b hb, hnone,
    List.append_nil]

/-- `upper_bound` is the first element of the second part. -/
theorem next_of_between (h : s.toList = pre ++ post) (hpre : ∀ b ∈ pre, key b ≤ k)
    (hpost : ∀ b ∈ post, k < key b) : s.next k = post.head? := by
  have hnone : pre.find? (fun b => decide (k < key b)) = none :=
    List.find?_eq_none.mpr fun b hb => by simpa using hpre b hb
  unfold next
  rw [h, List.find?_append, hnone, Option.none_or]
  cases post with
  | nil => rfl
  | cons b post => exact List.find?_cons_of_pos (by simpa using hpost b List.mem_cons_self)

/-- `++` of an iterator. -/
theorem next_of_parts (h : s.toList = pre ++ a :: post) : s.next (key a) = post.head? := by
  have hsplit : s.toList = (pre ++ [a]) ++ post := by simp [h]
  refine next_of_between hsplit (fun b hb => ?_) fun b hb => lt_of_parts_cons h hb
  rcases List.mem_append.mp hb with hb | hb
  · exact (lt_of_parts h hb List.mem_cons_self).le
  · rw [List.mem_singleton.mp hb]

/-- `erase` of an element. -/
theorem remove_of_parts (h : s.toList = pre ++ a :: post) :
    (s.remove (key a)).toList = pre ++ post := by
  have hpre : pre.filter (fun b => decide (key b ≠ key a)) = pre :=
    List.filter_eq_self.mpr fun b hb => by simpa using (lt_of_parts h hb List.mem_cons_self).ne
  have hpost : post.filter (fun b => decide (key b ≠ key a)) = post :=
    List.filter_eq_self.mpr fun b hb => by simpa using (lt_of_parts_cons h hb).ne'
  unfold remove
  dsimp only
  rw [h, List.filter_append, List.filter_cons_of_neg (by simp), hpre, hpost]

/-- An iterator behind an element that is erased. -/
theorem next_remove_of_parts (h : s.toList = pre ++ a :: post) :
    (s.remove (key a)).next (key a) = post.head? :=
  next_of_between (remove_of_parts h)
    (fun _ hb => (lt_of_parts h hb List.mem_cons_self).le) fun _ hb => lt_of_parts_cons h hb

/-- An element goes between those before it and those behind it. -/
theorem place_of_parts (hpre : ∀ b ∈ pre, key b < key a) (hpost : ∀ b ∈ post, key a < key b) :
    place key a (pre ++ post) = pre ++ a :: post := by
  induction pre with
  | nil =>
    cases post with
    | nil => rfl
    | cons b post => exact if_pos (hpost b List.mem_cons_self)
  | cons b pre ih =>
    have hb := hpre b List.mem_cons_self
    rw [List.cons_append, place, if_neg hb.asymm, if_pos hb,
      ih fun c hc => hpre c (List.mem_cons_of_mem _ hc)]
    rfl

/-- A new element goes between the parts. -/
theorem insert_of_parts (h : s.toList = pre ++ post) (hpre : ∀ b ∈ pre, key b < key a)
    (hpost : ∀ b ∈ post, key a < key b) : (s.insert a).toList = pre ++ a :: post := by
  show place key a s.toList = _
  rw [h, place_of_parts hpre hpost]

/-- An element that is set goes between those before it and those behind it. -/
theorem set_of_parts (h : s.toList = pre ++ post) (hpre : ∀ b ∈ pre, key b < key a)
    (hpost : ∀ b ∈ post, key a < key b) : (s.set a).toList = pre ++ a :: post := by
  refine insert_of_parts ?_ hpre hpost
  have hkeep : ∀ b ∈ s.toList, decide (key b ≠ key a) = true := by
    intro b hb
    rw [h] at hb
    rcases List.mem_append.mp hb with hb | hb
    · simpa using (hpre b hb).ne
    · simpa using (hpost b hb).ne'
  exact (List.filter_eq_self.mpr hkeep).trans h

/-- The element with the key is replaced. -/
theorem set_of_parts_same (h : s.toList = pre ++ b :: post) (hk : key a = key b) :
    (s.set a).toList = pre ++ a :: post := by
  refine insert_of_parts ?_ (fun c hc => ?_) fun c hc => ?_
  · rw [hk]
    exact remove_of_parts h
  · exact hk ▸ lt_of_parts h hc List.mem_cons_self
  · exact hk ▸ lt_of_parts_cons h hc

end CxxLab.SortedList
