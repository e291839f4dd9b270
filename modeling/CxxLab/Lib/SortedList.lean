import Mathlib

/-!
# Ordered containers

A `std::map` or `std::set` as a list in the order of its keys, each key once. `insert` is also
`emplace`: an element whose key is there already is not inserted.
-/

namespace CxxLab

variable {α κ : Type*} [LinearOrder κ]

/-- An ordered container. -/
@[ext]
structure SortedList (key : α → κ) where
  /-- The elements. -/
  toList : List α
  /-- They are in the order of their keys. -/
  sorted : toList.Pairwise fun a b => key a < key b

namespace SortedList

variable {key : α → κ}

/-- Inserts an element at its place, unless its key is there. -/
def place (key : α → κ) (a : α) : List α → List α
  | [] => [a]
  | b :: l =>
    if key a < key b then a :: b :: l
    else if key b < key a then b :: place key a l
    else b :: l

/-- Nothing but the element is new. -/
theorem mem_place {a c : α} {l : List α} (h : c ∈ place key a l) : c = a ∨ c ∈ l := by
  induction l with
  | nil => exact .inl (List.mem_singleton.mp h)
  | cons b l ih =>
    unfold place at h
    split_ifs at h
    · simpa using h
    · rcases List.mem_cons.mp h with rfl | h
      · exact .inr List.mem_cons_self
      · exact (ih h).imp_right (List.mem_cons_of_mem _)
    · exact .inr h

/-- The order is kept. -/
theorem pairwise_place (a : α) {l : List α} (h : l.Pairwise fun a b => key a < key b) :
    (place key a l).Pairwise fun a b => key a < key b := by
  induction l with
  | nil => exact List.pairwise_singleton _ _
  | cons b l ih =>
    obtain ⟨hb, hl⟩ := List.pairwise_cons.mp h
    unfold place
    split_ifs with hlt hgt
    · refine List.pairwise_cons.mpr ⟨fun c hc => ?_, h⟩
      rcases List.mem_cons.mp hc with rfl | hc
      · exact hlt
      · exact hlt.trans (hb c hc)
    · refine List.pairwise_cons.mpr ⟨fun c hc => ?_, ih hl⟩
      rcases mem_place hc with rfl | hc
      · exact hgt
      · exact hb c hc
    · exact h

/-- The empty container. -/
def empty : SortedList key := ⟨[], List.Pairwise.nil⟩

/-- `insert`. -/
def insert (s : SortedList key) (a : α) : SortedList key :=
  ⟨place key a s.toList, pairwise_place a s.sorted⟩

/-- The container with the given elements. -/
def ofList (key : α → κ) (l : List α) : SortedList key := l.foldl insert empty

/-- Insertions add only what is inserted. -/
theorem mem_of_mem_foldl_insert {l : List α} {s : SortedList key} {a : α}
    (h : a ∈ (l.foldl insert s).toList) : a ∈ s.toList ∨ a ∈ l := by
  induction l generalizing s with
  | nil => exact .inl h
  | cons b l ih =>
    rcases ih h with h | h
    · rcases mem_place h with rfl | h
      · exact .inr List.mem_cons_self
      · exact .inl h
    · exact .inr (List.mem_cons_of_mem _ h)

/-- The container holds no other elements. -/
theorem mem_of_mem_ofList {l : List α} {a : α} (h : a ∈ (ofList key l).toList) : a ∈ l :=
  (mem_of_mem_foldl_insert h).resolve_left List.not_mem_nil

/-- An element with a greater key goes to the end. -/
theorem place_append {a : α} {l : List α} (h : ∀ b ∈ l, key b < key a) :
    place key a l = l ++ [a] := by
  induction l with
  | nil => rfl
  | cons b l ih =>
    have hb := h b List.mem_cons_self
    rw [place, if_neg hb.asymm, if_pos hb, ih fun c hc => h c (List.mem_cons_of_mem _ hc)]
    rfl

/-- Elements that come in their order go to the end one after the other. -/
theorem toList_foldl_insert {l : List α} {s : SortedList key}
    (h : (s.toList ++ l).Pairwise fun a b => key a < key b) :
    (l.foldl insert s).toList = s.toList ++ l := by
  induction l generalizing s with
  | nil => exact (List.append_nil _).symm
  | cons a l ih =>
    have ha : (s.insert a).toList = s.toList ++ [a] :=
      place_append fun b hb => (List.pairwise_append.mp h).2.2 b hb a List.mem_cons_self
    rw [List.foldl_cons, ih, ha]
    · simp
    · simpa [ha] using h

/-- Elements that are inserted in their order are the container. -/
theorem toList_ofList {l : List α} (h : l.Pairwise fun a b => key a < key b) :
    (ofList key l).toList = l :=
  toList_foldl_insert (s := empty) h

/-- A container is made of its elements. -/
theorem ofList_toList (s : SortedList key) : ofList key s.toList = s :=
  SortedList.ext (toList_ofList s.sorted)

end SortedList

/-! ## Maps with a merge operator -/

namespace SortedList

variable {β : Type*}

/-- The value of a key becomes `f` of what it was and `v`, or `v` when the key is new. -/
def mergeInto (f : β → β → β) (k : κ) (v : β) : List (κ × β) → List (κ × β)
  | [] => [(k, v)]
  | (k', v') :: l =>
    if k < k' then (k, v) :: (k', v') :: l
    else if k' < k then (k', v') :: mergeInto f k v l
    else (k', f v' v) :: l

/-- Nothing but the key is new. -/
theorem mem_mergeInto {f : β → β → β} {k : κ} {v : β} {l : List (κ × β)} {r : κ × β}
    (h : r ∈ mergeInto f k v l) : r.1 = k ∨ r ∈ l := by
  induction l with
  | nil => exact .inl (by rw [List.mem_singleton.mp h])
  | cons c l ih =>
    unfold mergeInto at h
    split_ifs at h with hlt hgt
    · rcases List.mem_cons.mp h with rfl | h
      · exact .inl rfl
      · exact .inr h
    · rcases List.mem_cons.mp h with rfl | h
      · exact .inr List.mem_cons_self
      · exact (ih h).imp_right (List.mem_cons_of_mem _)
    · rcases List.mem_cons.mp h with rfl | h
      · exact .inl (le_antisymm (not_lt.mp hlt) (not_lt.mp hgt))
      · exact .inr (List.mem_cons_of_mem _ h)

/-- The order of the keys is kept. -/
theorem pairwise_mergeInto (f : β → β → β) (k : κ) (v : β) {l : List (κ × β)}
    (h : l.Pairwise fun a b => a.1 < b.1) : (mergeInto f k v l).Pairwise fun a b => a.1 < b.1 := by
  induction l with
  | nil => exact List.pairwise_singleton _ _
  | cons c l ih =>
    obtain ⟨hc, hl⟩ := List.pairwise_cons.mp h
    unfold mergeInto
    split_ifs with hlt hgt
    · refine List.pairwise_cons.mpr ⟨fun d hd => ?_, h⟩
      rcases List.mem_cons.mp hd with rfl | hd
      · exact hlt
      · exact hlt.trans (hc d hd)
    · refine List.pairwise_cons.mpr ⟨fun d hd => ?_, ih hl⟩
      rcases mem_mergeInto hd with hd | hd
      · exact hd ▸ hgt
      · exact hc d hd
    · exact List.pairwise_cons.mpr ⟨hc, hl⟩

/-- A merge leaves the keys there, and adds its own. -/
theorem key_mem_mergeInto (f : β → β → β) (k : κ) (v : β) {l : List (κ × β)} {k' : κ}
    (h : k' = k ∨ ∃ r ∈ l, r.1 = k') : ∃ r ∈ mergeInto f k v l, r.1 = k' := by
  induction l with
  | nil =>
    obtain rfl : k' = k := h.resolve_right (by simp)
    exact ⟨_, List.mem_singleton_self _, rfl⟩
  | cons c l ih =>
    unfold mergeInto
    split_ifs with hlt hgt
    · rcases h with rfl | ⟨r, hr, rfl⟩
      · exact ⟨_, List.mem_cons_self, rfl⟩
      · exact ⟨r, List.mem_cons_of_mem _ hr, rfl⟩
    · rcases h with rfl | ⟨r, hr, rfl⟩
      · obtain ⟨r, hr, hk⟩ := ih (.inl rfl)
        exact ⟨r, List.mem_cons_of_mem _ hr, hk⟩
      · rcases List.mem_cons.mp hr with rfl | hr
        · exact ⟨_, List.mem_cons_self, rfl⟩
        · obtain ⟨r', hr', hk⟩ := ih (.inr ⟨r, hr, rfl⟩)
          exact ⟨r', List.mem_cons_of_mem _ hr', hk⟩
    · have hck : c.1 = k := le_antisymm (not_lt.mp hlt) (not_lt.mp hgt)
      rcases h with rfl | ⟨r, hr, rfl⟩
      · exact ⟨_, List.mem_cons_self, hck⟩
      · rcases List.mem_cons.mp hr with rfl | hr
        · exact ⟨_, List.mem_cons_self, rfl⟩
        · exact ⟨r, List.mem_cons_of_mem _ hr, rfl⟩

/-- `merge` of a store whose operator is `f`. -/
def mergeWith (f : β → β → β) (k : κ) (v : β) (s : SortedList (Prod.fst : κ × β → κ)) :
    SortedList (Prod.fst : κ × β → κ) :=
  ⟨mergeInto f k v s.toList, pairwise_mergeInto f k v s.sorted⟩

/-- The value of a key, or `d` when it is not there. -/
def valueD (l : List (κ × β)) (k : κ) (d : β) : β :=
  match l with
  | [] => d
  | (k', v) :: l => if k = k' then v else valueD l k d

/-- The keys behind a key are greater. -/
theorem valueD_of_lt {l : List (κ × β)} {k : κ} (d : β) (h : ∀ r ∈ l, k < r.1) :
    valueD l k d = d := by
  induction l with
  | nil => rfl
  | cons c l ih =>
    rw [valueD, if_neg (h c List.mem_cons_self).ne]
    exact ih fun r hr => h r (List.mem_cons_of_mem _ hr)

/-- A merge changes the value of its key and no other. -/
theorem valueD_mergeInto {f : β → β → β} {d : β} (hd : ∀ v, f d v = v) (k : κ) (v : β)
    {l : List (κ × β)} (h : l.Pairwise fun a b => a.1 < b.1) (k' : κ) :
    valueD (mergeInto f k v l) k' d = if k' = k then f (valueD l k d) v else valueD l k' d := by
  induction l with
  | nil =>
    show (if k' = k then v else d) = if k' = k then f d v else d
    rw [hd]
  | cons c l ih =>
    obtain ⟨hc, hl⟩ := List.pairwise_cons.mp h
    obtain ⟨c, w⟩ := c
    rw [mergeInto]
    by_cases hlt : k < c
    · have hz : valueD ((c, w) :: l) k d = d := by
        refine valueD_of_lt d fun r hr => ?_
        rcases List.mem_cons.mp hr with rfl | hr
        · exact hlt
        · exact hlt.trans (hc r hr)
      rw [if_pos hlt, hz, hd, valueD]
    · rw [if_neg hlt]
      by_cases hgt : c < k
      · rw [if_pos hgt, valueD, ih hl, valueD, if_neg hgt.ne', valueD]
        by_cases heq : k' = c
        · rw [if_pos heq, if_pos heq, if_neg (heq ▸ hgt.ne)]
        · rw [if_neg heq, if_neg heq]
      · obtain rfl := le_antisymm (not_lt.mp hlt) (not_lt.mp hgt)
        rw [if_neg hgt, valueD, valueD, if_pos rfl, valueD]
        by_cases heq : k' = c
        · rw [if_pos heq, if_pos heq]
        · rw [if_neg heq, if_neg heq, if_neg heq]

end SortedList

/-! ## Walks in the order of the keys -/

section Walk

variable {key : α → κ} {l : List α}

/-- A walk that stops at the first element without `p` has reached those with no such element up
to them. -/
theorem mem_takeWhile_of_sorted {p : α → Bool} (h : l.Pairwise fun a b => key a < key b) {a : α} :
    a ∈ l.takeWhile p ↔ a ∈ l ∧ ∀ b ∈ l, key b ≤ key a → p b := by
  induction l with
  | nil => simp
  | cons c l ih =>
    obtain ⟨hc, hl⟩ := List.pairwise_cons.mp h
    rw [List.takeWhile_cons]
    split_ifs with hp
    · rw [List.mem_cons, ih hl]
      constructor
      · rintro (rfl | ⟨ha, hall⟩)
        · refine ⟨List.mem_cons_self, fun b hb hle => ?_⟩
          rcases List.mem_cons.mp hb with rfl | hb
          · exact hp
          · exact absurd (hc b hb) (not_lt_of_ge hle)
        · refine ⟨List.mem_cons_of_mem _ ha, fun b hb hle => ?_⟩
          rcases List.mem_cons.mp hb with rfl | hb
          · exact hp
          · exact hall b hb hle
      · rintro ⟨ha, hall⟩
        refine (List.mem_cons.mp ha).imp_right fun ha => ⟨ha, fun b hb => ?_⟩
        exact hall b (List.mem_cons_of_mem _ hb)
    · constructor
      · simp
      · rintro ⟨ha, hall⟩
        refine absurd (hall c List.mem_cons_self ?_) hp
        rcases List.mem_cons.mp ha with rfl | ha
        · exact le_rfl
        · exact (hc a ha).le

/-- A walk that begins later stops at the same element. -/
theorem takeWhile_filter_of_sorted {p : α → Bool} (h : l.Pairwise fun a b => key a < key b) {a : α}
    (ha : a ∈ l.takeWhile p) : (l.filter (key a ≤ key ·)).takeWhile p =
      (l.takeWhile p).filter (key a ≤ key ·) := by
  induction l with
  | nil => rfl
  | cons c l ih =>
    obtain ⟨hc, hl⟩ := List.pairwise_cons.mp h
    have hp : p c = true := by
      by_contra hp
      rw [List.takeWhile_cons, if_neg hp] at ha
      exact List.not_mem_nil ha
    rw [List.takeWhile_cons_of_pos hp, List.mem_cons] at ha
    rw [List.takeWhile_cons_of_pos hp]
    rcases ha with rfl | ha
    · -- Nothing is filtered out.
      have hall : ∀ b ∈ a :: l, decide (key a ≤ key b) = true := by
        intro b hb
        rcases List.mem_cons.mp hb with rfl | hb
        · simp
        · simpa using (hc b hb).le
      rw [List.filter_eq_self.mpr hall, List.takeWhile_cons_of_pos hp]
      refine (List.filter_eq_self.mpr fun b hb => hall b ?_).symm
      exact (List.mem_cons.mp hb).elim (· ▸ List.mem_cons_self)
        fun hb => List.mem_cons_of_mem _ ((List.takeWhile_sublist p).subset hb)
    · have hlt := hc a ((List.takeWhile_sublist p).subset ha)
      have hneg : ¬decide (key a ≤ key c) = true := by simpa using hlt
      rw [List.filter_cons, if_neg hneg, List.filter_cons, if_neg hneg, ih hl ha]

/-- What is behind a place are the elements from the one there on. -/
theorem filter_eq_drop_of_sorted (h : l.Pairwise fun a b => key a < key b) {n : ℕ} {a : α}
    {r : List α} (hd : l.drop n = a :: r) : l.filter (key a ≤ key ·) = l.drop n := by
  have hsplit : l = l.take n ++ l.drop n := (List.take_append_drop n l).symm
  have hpw := h
  rw [hsplit, hd, List.pairwise_append] at hpw
  obtain ⟨-, hr, hbefore⟩ := hpw
  have hfront : (l.take n).filter (key a ≤ key ·) = [] := by
    refine List.filter_eq_nil_iff.mpr fun b hb => ?_
    simpa using hbefore b hb a List.mem_cons_self
  have hback : (a :: r).filter (key a ≤ key ·) = a :: r := by
    refine List.filter_eq_self.mpr fun b hb => ?_
    rcases List.mem_cons.mp hb with rfl | hb
    · simp
    · simpa using ((List.pairwise_cons.mp hr).1 b hb).le
  calc l.filter (key a ≤ key ·)
    _ = (l.take n ++ (a :: r)).filter (key a ≤ key ·) := by rw [← hd, ← hsplit]
    _ = a :: r := by rw [List.filter_append, hfront, hback, List.nil_append]
    _ = l.drop n := hd.symm

end Walk

/-! ## Replacing -/

namespace SortedList

variable {key : α → κ}

/-- `erase` of a key. -/
def remove (s : SortedList key) (k : κ) : SortedList key :=
  ⟨s.toList.filter fun a => key a ≠ k, s.sorted.filter _⟩

/-- The element takes the place of the one with its key, or a new one. -/
def set (s : SortedList key) (a : α) : SortedList key := (s.remove (key a)).insert a

/-- What stays after a removal has other keys. -/
theorem mem_remove {s : SortedList key} {k : κ} {a : α} :
    a ∈ (s.remove k).toList ↔ a ∈ s.toList ∧ key a ≠ k := by
  simp [remove]

/-- An element with a new key gets in. -/
theorem mem_place_self (a : α) {l : List α} (h : ∀ b ∈ l, key b ≠ key a) : a ∈ place key a l := by
  induction l with
  | nil => exact List.mem_singleton_self a
  | cons b l ih =>
    unfold place
    split_ifs with hlt hgt
    · exact List.mem_cons_self
    · exact List.mem_cons_of_mem _ (ih fun c hc => h c (List.mem_cons_of_mem _ hc))
    · exact absurd (le_antisymm (not_lt.mp hlt) (not_lt.mp hgt)) (h b List.mem_cons_self)

/-- The other elements stay. -/
theorem mem_place_of_mem (a : α) {l : List α} {b : α} (h : b ∈ l) : b ∈ place key a l := by
  induction l with
  | nil => exact absurd h List.not_mem_nil
  | cons c l ih =>
    unfold place
    split_ifs
    · exact List.mem_cons_of_mem _ h
    · rcases List.mem_cons.mp h with rfl | h
      · exact List.mem_cons_self
      · exact List.mem_cons_of_mem _ (ih h)
    · exact h

/-- A `set` leaves the elements with other keys. -/
theorem mem_set {s : SortedList key} {a b : α} :
    b ∈ (s.set a).toList ↔ b = a ∨ b ∈ s.toList ∧ key b ≠ key a := by
  have hfree : ∀ c ∈ (s.remove (key a)).toList, key c ≠ key a := fun c hc => (mem_remove.mp hc).2
  constructor
  · intro h
    exact (mem_place h).imp_right mem_remove.mp
  · rintro (rfl | h)
    · exact mem_place_self b hfree
    · exact mem_place_of_mem a (mem_remove.mpr h)

end SortedList

end CxxLab
