import Mathlib.Data.Finset.Basic

/-!
# The reverse index of a map

A partial function `f : α → Option β` kept together with an index from each value to the set of the
points that have it. No set of the index is empty: a value without points has no entry. `Exact` says
that the index belongs to the function, and the rules say how both are changed at a point.
-/

namespace CxxLab.ReverseIndex

variable {α β : Type*} [DecidableEq α] [DecidableEq β]

/-- The points that an index has for a value. -/
def points (index : β → Option (Finset α)) (b : β) : Finset α := (index b).getD ∅

/-- A point leaves the set of a value, and an empty set leaves the index. -/
def remove (index : β → Option (Finset α)) (b : β) (a : α) : β → Option (Finset α) :=
  match index b with
  | none => index
  | some s => Function.update index b (if s.erase a = ∅ then none else some (s.erase a))

/-- A point joins the set of a value. -/
def add (index : β → Option (Finset α)) (b : β) (a : α) : β → Option (Finset α) :=
  Function.update index b (some (insert a (points index b)))

/-- The index belongs to the function. -/
structure Exact (f : α → Option β) (index : β → Option (Finset α)) : Prop where
  /-- No set is empty. -/
  nonempty : ∀ b, index b ≠ some ∅
  /-- The set of a value has the points with that value. -/
  mem : ∀ a b, a ∈ points index b ↔ f a = some b

variable {f : α → Option β} {index : β → Option (Finset α)} {a : α} {b : β}

/-- What `remove` leaves for each value. -/
theorem points_remove (index : β → Option (Finset α)) (b : β) (a : α) (c : β) :
    points (remove index b a) c = if c = b then (points index b).erase a else points index c := by
  unfold points remove
  cases hs : index b with
  | none =>
    dsimp only
    split_ifs with h
    · rw [h, hs, Option.getD_none, Finset.erase_empty]
    · rfl
  | some s =>
    dsimp only
    by_cases h : c = b
    · subst h
      rw [Function.update_self, if_pos rfl, Option.getD_some]
      split_ifs with he
      · rw [Option.getD_none, he]
      · rfl
    · rw [Function.update_of_ne h, if_neg h]

/-- What `add` leaves for each value. -/
theorem points_add (index : β → Option (Finset α)) (b : β) (a : α) (c : β) :
    points (add index b a) c = if c = b then insert a (points index b) else points index c := by
  unfold add
  by_cases h : c = b
  · subst h
    rw [if_pos rfl]
    unfold points
    rw [Function.update_self]
    rfl
  · rw [if_neg h]
    unfold points
    rw [Function.update_of_ne h]

/-- `remove` leaves no empty set. -/
theorem remove_ne_empty (h : ∀ b, index b ≠ some ∅) (b : β) (a : α) (c : β) :
    remove index b a c ≠ some ∅ := by
  unfold remove
  cases hs : index b with
  | none => exact h c
  | some s =>
    dsimp only
    by_cases hc : c = b
    · subst hc
      rw [Function.update_self]
      split_ifs with he
      · simp
      · simpa using he
    · rw [Function.update_of_ne hc]
      exact h c

/-- `add` leaves no empty set. -/
theorem add_ne_empty (h : ∀ b, index b ≠ some ∅) (b : β) (a : α) (c : β) :
    add index b a c ≠ some ∅ := by
  unfold add
  by_cases hc : c = b
  · subst hc
    rw [Function.update_self]
    simp
  · rw [Function.update_of_ne hc]
    exact h c

omit [DecidableEq α] [DecidableEq β] in
/-- Nothing belongs to the function without points. -/
theorem exact_empty : Exact (fun _ : α => (none : Option β)) fun _ => none where
  nonempty _ := by simp
  mem _ _ := by simp [points]

/-- A point leaves both. -/
theorem Exact.remove (h : Exact f index) (ha : f a = some b) :
    Exact (Function.update f a none) (remove index b a) where
  nonempty := remove_ne_empty h.nonempty b a
  mem x c := by
    rw [points_remove]
    by_cases hx : x = a
    · subst hx
      rw [Function.update_self]
      split_ifs with hc
      · simp
      · rw [h.mem, ha]
        simpa using fun hbc : b = c => hc hbc.symm
    · rw [Function.update_of_ne hx, ← h.mem x c]
      split_ifs with hc
      · rw [hc, Finset.mem_erase, and_iff_right hx]
      · rfl

/-- A point that has no value gets one in both. -/
theorem Exact.add (h : Exact f index) (ha : f a = none) (b : β) :
    Exact (Function.update f a (some b)) (add index b a) where
  nonempty := add_ne_empty h.nonempty b a
  mem x c := by
    rw [points_add]
    by_cases hx : x = a
    · subst hx
      rw [Function.update_self, Option.some.injEq]
      split_ifs with hc
      · simp [hc]
      · rw [h.mem, ha]
        simpa using fun hbc : b = c => hc hbc.symm
    · rw [Function.update_of_ne hx, ← h.mem x c]
      split_ifs with hc
      · rw [hc, Finset.mem_insert, or_iff_right hx]
      · rfl

/-- A point whose value is another one moves: it leaves the set of the old value first. -/
theorem Exact.move (h : Exact f index) (ha : f a = some b) (c : β) :
    Exact (Function.update f a (some c)) (ReverseIndex.add (ReverseIndex.remove index b a) c a) := by
  have hmove := (h.remove ha).add (Function.update_self a none f) c
  rwa [Function.update_idem] at hmove

/-- A point whose value stays is there already. -/
theorem Exact.stay (h : Exact f index) (ha : f a = some b) :
    Exact (Function.update f a (some b)) (ReverseIndex.add index b a) where
  nonempty := add_ne_empty h.nonempty b a
  mem x c := by
    rw [points_add, ← ha, Function.update_eq_self, ← h.mem x c]
    split_ifs with hc
    · rw [hc, Finset.insert_eq_of_mem ((h.mem a b).mpr ha)]
    · rfl

end CxxLab.ReverseIndex
