import CxxLab.Lib.SortedCursor

/-!
# Maps

A `std::map` from keys to values: a sorted container of pairs. `rank` puts the keys in their order
and tells them apart. What a map holds is described by `lookup`.
-/

namespace CxxLab

/-- A map. -/
abbrev SortedMap {κ ι : Type*} [LinearOrder ι] (rank : κ → ι) (β : Type*) :=
  SortedList fun a : κ × β => rank a.1

namespace SortedList

variable {α κ : Type*} [LinearOrder κ] {key : α → κ}

/-- What is left of a sorted list behind its first elements that satisfy `p`. -/
theorem mem_dropWhile_of_sorted {p : α → Bool} {l : List α}
    (h : l.Pairwise fun a b => key a < key b) {a : α} :
    a ∈ l.dropWhile p ↔ a ∈ l ∧ ∃ c ∈ l, key c ≤ key a ∧ p c = false := by
  induction l with
  | nil => simp
  | cons b l ih =>
    obtain ⟨hb, hl⟩ := List.pairwise_cons.mp h
    rw [List.dropWhile_cons]
    by_cases hp : p b = true
    · rw [if_pos hp, ih hl]
      constructor
      · rintro ⟨ha, c, hc, hle, hpc⟩
        exact ⟨List.mem_cons_of_mem _ ha, c, List.mem_cons_of_mem _ hc, hle, hpc⟩
      · rintro ⟨ha, c, hc, hle, hpc⟩
        have hcl : c ∈ l := by
          rcases List.mem_cons.mp hc with rfl | hc
          · rw [hp] at hpc
            cases hpc
          · exact hc
        rcases List.mem_cons.mp ha with rfl | ha
        · exact absurd (hb c hcl) (not_lt.mpr hle)
        · exact ⟨ha, c, hcl, hle, hpc⟩
    · rw [if_neg hp]
      constructor
      · intro ha
        refine ⟨ha, b, List.mem_cons_self, ?_, by simpa using hp⟩
        rcases List.mem_cons.mp ha with rfl | ha
        · exact le_refl _
        · exact (hb a ha).le
      · exact And.left

end SortedList

namespace SortedMap

variable {κ ι β : Type*} [LinearOrder ι] {rank : κ → ι}

/-- The value of a key. -/
def lookup (s : SortedMap rank β) (k : κ) : Option β :=
  (s.toList.find? fun a => rank a.1 = rank k).map Prod.snd

/-- The map without the keys for which `p` is false. -/
def keep (p : κ → Bool) (s : SortedMap rank β) : SortedMap rank β :=
  ⟨s.toList.filter fun a => p a.1, s.sorted.filter _⟩

/-- `lower_bound`, and `erase` of one element after the other as long as `p` holds of its key. -/
def eraseWhile (lo : ι) (p : κ → Bool) (s : SortedMap rank β) : SortedMap rank β :=
  ⟨s.toList.takeWhile (fun a => rank a.1 < lo) ++
      (s.toList.dropWhile fun a => rank a.1 < lo).dropWhile fun a => p a.1,
    s.sorted.sublist (by
      conv_rhs => rw [← List.takeWhile_append_dropWhile (p := fun a => decide (rank a.1 < lo))
        (l := s.toList)]
      exact (List.Sublist.refl _).append (List.dropWhile_sublist _))⟩

variable {s : SortedMap rank β} {k k' : κ} {v : β}

section

variable (hr : Function.Injective rank)

include hr

/-- A key has the value that it is stored with. -/
theorem lookup_eq_some_iff : s.lookup k = some v ↔ (k, v) ∈ s.toList := by
  unfold lookup
  constructor
  · intro h
    obtain ⟨⟨k', v'⟩, hfind, rfl⟩ := Option.map_eq_some_iff.mp h
    have hk : rank k' = rank k := by simpa using List.find?_some hfind
    rw [← hr hk]
    exact List.mem_of_find?_eq_some hfind
  · intro h
    cases hfind : s.toList.find? fun a => rank a.1 = rank k with
    | none =>
      have hne := List.find?_eq_none.mp hfind _ h
      simp at hne
    | some a =>
      have hk : rank a.1 = rank k := by simpa using List.find?_some hfind
      rw [SortedList.eq_of_key_eq (List.mem_of_find?_eq_some hfind) h hk]
      rfl

/-- The value that was set is found under its key, and the other keys keep theirs. -/
theorem lookup_set [DecidableEq κ] (a : κ × β) :
    SortedMap.lookup (s.set a) k = if k = a.1 then some a.2 else s.lookup k := by
  refine Option.ext fun v => ?_
  rw [lookup_eq_some_iff hr, SortedList.mem_set]
  split_ifs with h
  · subst h
    simp [Prod.ext_iff, eq_comm]
  · have hne : rank k ≠ rank a.1 := hr.ne h
    simp [lookup_eq_some_iff hr, Prod.ext_iff, h, hne]

/-- A removed key has no value, and the other keys keep theirs. -/
theorem lookup_remove [DecidableEq κ] (x : κ) :
    SortedMap.lookup (s.remove (rank x)) k = if k = x then none else s.lookup k := by
  refine Option.ext fun v => ?_
  rw [lookup_eq_some_iff hr, SortedList.mem_remove]
  split_ifs with h
  · subst h
    simp
  · simp [lookup_eq_some_iff hr, hr.ne h]

/-- A key that is kept keeps its value. -/
theorem lookup_keep (p : κ → Bool) : (s.keep p).lookup k = if p k then s.lookup k else none := by
  refine Option.ext fun v => ?_
  rw [lookup_eq_some_iff hr]
  split_ifs with h <;> simp [keep, h, lookup_eq_some_iff hr]

end

/-- The keys from `lo` on for which `p` holds go, where those are next to each other. -/
theorem mem_eraseWhile {lo : ι} {p : κ → Bool} {a : κ × β}
    (hp : ∀ b ∈ s.toList, ∀ c ∈ s.toList, lo ≤ rank b.1 → rank b.1 ≤ rank c.1 →
      p c.1 = true → p b.1 = true) :
    a ∈ (s.eraseWhile lo p).toList ↔ a ∈ s.toList ∧ ¬ (lo ≤ rank a.1 ∧ p a.1) := by
  have hlow : ∀ b, b ∈ s.toList.takeWhile (fun a => rank a.1 < lo) ↔
      b ∈ s.toList ∧ rank b.1 < lo := by
    intro b
    rw [mem_takeWhile_of_sorted s.sorted]
    exact and_congr_right fun hb => ⟨fun h => by simpa using h b hb (le_refl _),
      fun h c _ hle => by simpa using lt_of_le_of_lt hle h⟩
  have hhigh : ∀ b, b ∈ s.toList.dropWhile (fun a => rank a.1 < lo) ↔
      b ∈ s.toList ∧ lo ≤ rank b.1 := by
    intro b
    rw [SortedList.mem_dropWhile_of_sorted s.sorted]
    refine and_congr_right fun hb => ⟨?_, fun h => ⟨b, hb, le_refl _, by simpa using h⟩⟩
    rintro ⟨c, -, hle, hc⟩
    exact le_trans (by simpa using hc) hle
  have hsorted := s.sorted.sublist (List.dropWhile_sublist fun a => decide (rank a.1 < lo))
  show a ∈ _ ++ _ ↔ _
  rw [List.mem_append, hlow, SortedList.mem_dropWhile_of_sorted hsorted, hhigh]
  constructor
  · rintro (⟨ha, hlt⟩ | ⟨⟨ha, hle⟩, c, hc, hca, hpc⟩)
    · exact ⟨ha, fun h => absurd hlt (not_lt.mpr h.1)⟩
    · -- A key that stays is before this one, so this one stays.
      obtain ⟨hcs, hlc⟩ := (hhigh c).mp hc
      refine ⟨ha, fun h => ?_⟩
      rw [hp c hcs a ha hlc hca h.2] at hpc
      cases hpc
  · rintro ⟨ha, hnot⟩
    by_cases hlt : rank a.1 < lo
    · exact .inl ⟨ha, hlt⟩
    · have hle := not_lt.mp hlt
      exact .inr ⟨⟨ha, hle⟩, a, (hhigh a).mpr ⟨ha, hle⟩, le_refl _,
        Bool.eq_false_iff.mpr fun h => hnot ⟨hle, h⟩⟩

/-- The keys that are erased from a position on are those from there that have the property. -/
theorem lookup_eraseWhile (hr : Function.Injective rank) {lo : ι} {p : κ → Bool}
    (hp : ∀ b ∈ s.toList, ∀ c ∈ s.toList, lo ≤ rank b.1 → rank b.1 ≤ rank c.1 →
      p c.1 = true → p b.1 = true) :
    (s.eraseWhile lo p).lookup k = if lo ≤ rank k ∧ p k = true then none else s.lookup k := by
  refine Option.ext fun v => ?_
  rw [lookup_eq_some_iff hr, mem_eraseWhile hp]
  split_ifs with h
  · simp [h]
  · simp only [lookup_eq_some_iff hr, h, not_false_eq_true, and_true]

end SortedMap

end CxxLab
