import CxxLab.Kv.MemDbAtomic

/-!
# Iterators over the store in memory

`MDBWholeSpaceIteratorImpl` of `kv/mem/mem_db.cc`, over all keys, and `PrefixIteratorImpl` of
`kv/key_value_db.cc`, over those of a prefix. The store does not change while an iterator is used.
`seek_upper_bound_` is left out: the iterator over all keys of `MemDB` does not look at it.

The lemmas say where a call lands, in terms of keys: `FirstOf` and `LastOf` among all keys of the
store, `First` and `Last` among those of the prefix.
-/

namespace CxxLab.Kv

open Common

/-- `decode_key`. -/
def decodeKey (fullKey : Str) : Str × Str :=
  (fullKey.takeWhile (· ≠ 0), (fullKey.dropWhile (· ≠ 0)).drop 1)

/-! ## The iterator over all keys -/

/-- `MDBWholeSpaceIteratorImpl`; no position stands for -1. -/
structure WholeSpaceIterator where
  /-- `items_`. -/
  items : MemDB
  /-- `pos_`. -/
  pos : Option (Fin items.toList.length) := none

namespace WholeSpaceIterator

/-- The iterator at the position, or at none behind the last one. -/
def goto (m : MemDB) (idx : ℕ) : WholeSpaceIterator where
  items := m
  pos := if h : idx < m.toList.length then some ⟨idx, h⟩ else none

/-- `valid`. -/
def valid (it : WholeSpaceIterator) : Bool := it.pos.isSome

/-- `key`, where there is a position. -/
def key (it : WholeSpaceIterator) : Option Str := it.pos.map fun i => (it.items.toList.get i).1

/-- `seek_to_last`. -/
def seekToLast (it : WholeSpaceIterator) : WholeSpaceIterator :=
  if it.items.toList.isEmpty then { items := it.items }
  else goto it.items (it.items.toList.length - 1)

/-- `lower_bound`. -/
def lowerBound (it : WholeSpaceIterator) (dest : Str) : WholeSpaceIterator :=
  goto it.items (it.items.toList.findIdx fun a => ¬ a.1.nums < dest.nums)

/-- `upper_bound`. -/
def upperBound (it : WholeSpaceIterator) (after : Str) : WholeSpaceIterator :=
  goto it.items (it.items.toList.findIdx fun a => after.nums < a.1.nums)

/-- `next`. -/
def next (it : WholeSpaceIterator) : WholeSpaceIterator :=
  match it.pos with
  | none => it
  | some i => goto it.items (i + 1)

/-- `prev`. -/
def prev (it : WholeSpaceIterator) : WholeSpaceIterator :=
  match it.pos with
  | none => it
  | some i => if i.val = 0 then { items := it.items } else goto it.items (i - 1)

/-- `raw_key`. -/
def rawKey (it : WholeSpaceIterator) : Option (Str × Str) := it.key.map decodeKey

/-- `raw_key_is_prefixed`. -/
def rawKeyIsPrefixed (it : WholeSpaceIterator) (pfx : Str) : Bool :=
  it.rawKey.any fun p => p.1 = pfx

end WholeSpaceIterator

/-! ## The iterator over a prefix -/

/-- `IteratorBounds`. -/
structure IteratorBounds where
  /-- `lower_bound`. -/
  lowerBound : Option Str := none
  /-- `upper_bound`. -/
  upperBound : Option Str := none

/-- `PrefixIteratorImpl`. -/
structure PrefixIterator where
  /-- `w_iter_`. -/
  wIter : WholeSpaceIterator
  /-- `prefix_`. -/
  pfx : Str
  /-- `seek_lower_bound_`. -/
  seekLowerBound : Str
  /-- `upper_bound_`, where `upper_bound_set_`. -/
  upperBound_ : Option Str

namespace PrefixIterator

/-- The constructor, on a new iterator over all keys. -/
def make (m : MemDB) (pfx : Str) (bounds : IteratorBounds) : PrefixIterator :=
  match bounds.lowerBound with
  | none => ⟨{ items := m }, pfx, encodeKey pfx [], bounds.upperBound⟩
  | some lower =>
    let seekLowerBound := encodeKey pfx [] ++ lower
    ⟨WholeSpaceIterator.lowerBound { items := m } seekLowerBound, pfx, seekLowerBound,
      bounds.upperBound⟩

/-- `seek_to_first`. -/
def seekToFirst (it : PrefixIterator) : PrefixIterator :=
  { it with wIter := it.wIter.lowerBound it.seekLowerBound }

/-- The loop of `seek_to_last`, with so many rounds at most. -/
def backToPrefix (pfx : Str) : ℕ → WholeSpaceIterator → WholeSpaceIterator
  | 0, w => w
  | rounds + 1, w => if w.valid ∧ ¬ w.rawKeyIsPrefixed pfx then backToPrefix pfx rounds w.prev else w

/-- `seek_to_last`. -/
def seekToLast (it : PrefixIterator) : PrefixIterator :=
  let w := it.wIter.upperBound (endOfKeys it.pfx)
  if w.valid then { it with wIter := w.prev }
  else { it with wIter := backToPrefix it.pfx (w.items.toList.length + 1) w.seekToLast }

/-- `lower_bound`. -/
def lowerBound (it : PrefixIterator) (dest : Str) : PrefixIterator :=
  { it with wIter := it.wIter.lowerBound (encodeKey it.pfx [] ++ dest) }

/-- `upper_bound`. -/
def upperBound (it : PrefixIterator) (after : Str) : PrefixIterator :=
  let w := it.wIter.lowerBound (encodeKey it.pfx [] ++ after)
  { it with
    upperBound_ := some after
    wIter := if w.rawKey.any fun p => p.2 = after then w.next else w }

/-- `valid`. -/
def valid (it : PrefixIterator) : Bool :=
  it.wIter.valid && it.wIter.rawKeyIsPrefixed it.pfx &&
    it.upperBound_.all fun upper => it.wIter.rawKey.any fun p => p.2.nums < upper.nums

/-- `next`; without a position, -EINVAL and no change. -/
def next (it : PrefixIterator) : PrefixIterator := { it with wIter := it.wIter.next }

/-- `prev`; without a position, -EINVAL and no change. -/
def prev (it : PrefixIterator) : PrefixIterator := { it with wIter := it.wIter.prev }

/-- `key`. -/
def key (it : PrefixIterator) : Option Str := it.wIter.rawKey.map Prod.snd

end PrefixIterator

/-! ## Where the iterator over all keys lands -/

/-- The keys of the store. -/
def MemDB.keys (m : MemDB) : List Str := m.toList.map Prod.fst

/-- The first key with a property, if there is one. -/
def FirstOf (m : MemDB) (p : Str → Prop) : Option Str → Prop
  | none => ∀ k ∈ m.keys, ¬ p k
  | some k => k ∈ m.keys ∧ p k ∧ ∀ k' ∈ m.keys, p k' → k.nums ≤ k'.nums

/-- The last key with a property, if there is one. -/
def LastOf (m : MemDB) (p : Str → Prop) : Option Str → Prop
  | none => ∀ k ∈ m.keys, ¬ p k
  | some k => k ∈ m.keys ∧ p k ∧ ∀ k' ∈ m.keys, p k' → k'.nums ≤ k.nums

namespace WholeSpaceIterator

variable {m : MemDB} {it : WholeSpaceIterator} {k : Str}

/-- An iterator is valid when it is on a key. -/
theorem valid_iff : it.valid ↔ ∃ k, it.key = some k := by
  unfold valid key
  cases it.pos <;> simp

/-- The key at a position. -/
def keyAt (m : MemDB) (i : Fin m.toList.length) : Str := (m.toList.get i).1

/-- The keys are those at the positions of the list. -/
theorem mem_keys_iff : k ∈ m.keys ↔ ∃ i, keyAt m i = k := by
  unfold MemDB.keys keyAt
  rw [List.mem_map]
  constructor
  · rintro ⟨a, ha, rfl⟩
    obtain ⟨i, hi⟩ := List.get_of_mem ha
    exact ⟨i, by rw [hi]⟩
  · rintro ⟨i, rfl⟩
    exact ⟨_, List.get_mem _ _, rfl⟩

/-- The keys are in the order of their positions. -/
theorem keyAt_lt_iff {i j : Fin m.toList.length} :
    (keyAt m i).nums < (keyAt m j).nums ↔ i < j := by
  have hlt : ∀ {i j : Fin m.toList.length}, i < j → (keyAt m i).nums < (keyAt m j).nums :=
    fun h => List.pairwise_iff_get.mp m.sorted _ _ h
  refine ⟨fun h => ?_, hlt⟩
  rcases lt_trichotomy i j with hij | rfl | hij
  · exact hij
  · exact absurd h (lt_irrefl _)
  · exact absurd h (hlt hij).asymm

/-- The keys are in the order of their positions. -/
theorem keyAt_le_iff {i j : Fin m.toList.length} :
    (keyAt m i).nums ≤ (keyAt m j).nums ↔ i ≤ j := by
  rw [← not_lt, keyAt_lt_iff, not_lt]

/-- An iterator that is put at a position has the same items. -/
@[simp] theorem items_goto (m : MemDB) (idx : ℕ) : (goto m idx).items = m := rfl

/-- It is on the key of the position. -/
theorem key_goto (i : Fin m.toList.length) : (goto m i).key = some (keyAt m i) := by
  unfold goto key
  rw [dif_pos i.isLt]
  rfl

/-- Behind the last position it is on no key. -/
theorem key_goto_of_ge {idx : ℕ} (h : m.toList.length ≤ idx) : (goto m idx).key = none := by
  unfold goto key
  rw [dif_neg (not_lt.mpr h)]
  rfl

/-- An iterator that is on a key is at a position. -/
theorem exists_pos (h : it.key = some k) : ∃ i, it.pos = some i ∧ keyAt it.items i = k :=
  Option.map_eq_some_iff.mp h

/-- The keys with the property are those from a position on. -/
theorem firstOf_goto {p : Str → Prop} {idx : ℕ} (h : ∀ i, p (keyAt m i) ↔ idx ≤ i.val) :
    FirstOf m p (goto m idx).key := by
  rcases lt_or_ge idx m.toList.length with hidx | hidx
  · obtain ⟨i, rfl⟩ : ∃ i : Fin m.toList.length, idx = i := ⟨⟨idx, hidx⟩, rfl⟩
    rw [key_goto]
    refine ⟨mem_keys_iff.mpr ⟨i, rfl⟩, (h i).mpr le_rfl, fun k' hk' hp => ?_⟩
    obtain ⟨j, rfl⟩ := mem_keys_iff.mp hk'
    exact keyAt_le_iff.mpr ((h j).mp hp)
  · rw [key_goto_of_ge hidx]
    intro k hk hp
    obtain ⟨j, rfl⟩ := mem_keys_iff.mp hk
    exact absurd j.isLt (not_lt.mpr (hidx.trans ((h j).mp hp)))

/-- The keys with the property are those up to a position. -/
theorem lastOf_goto {p : Str → Prop} {i : Fin m.toList.length} (h : ∀ j, p (keyAt m j) ↔ j ≤ i) :
    LastOf m p (goto m i).key := by
  rw [key_goto]
  refine ⟨mem_keys_iff.mpr ⟨i, rfl⟩, (h i).mpr le_rfl, fun k' hk' hp => ?_⟩
  obtain ⟨j, rfl⟩ := mem_keys_iff.mp hk'
  exact keyAt_le_iff.mpr ((h j).mp hp)

/-- `std::lower_bound` and `std::upper_bound`. -/
theorem firstOf_findIdx {p : Str → Prop} [DecidablePred p]
    (hmono : ∀ k k' : Str, k.nums ≤ k'.nums → p k → p k') :
    FirstOf m p (goto m (m.toList.findIdx fun a => p a.1)).key := by
  refine firstOf_goto fun i => ⟨fun h => not_lt.mp fun hlt => ?_, fun h => ?_⟩
  · have hnot := List.not_of_lt_findIdx hlt
    exact absurd h (by simpa [keyAt] using hnot)
  · have hlt := h.trans_lt i.isLt
    have hp : p (keyAt m ⟨_, hlt⟩) := by simpa [keyAt] using List.findIdx_getElem (w := hlt)
    exact hmono _ _ (keyAt_le_iff.mpr h) hp

/-- `lower_bound` goes to the first key that is not before the one it is given. -/
theorem firstOf_lowerBound (it : WholeSpaceIterator) (dest : Str) :
    FirstOf it.items (fun k => dest.nums ≤ k.nums) (it.lowerBound dest).key := by
  simp only [← not_lt]
  exact firstOf_findIdx fun k k' hle hk => not_lt.mpr ((not_lt.mp hk).trans hle)

/-- `upper_bound` goes to the first key behind the one it is given. -/
theorem firstOf_upperBound (it : WholeSpaceIterator) (after : Str) :
    FirstOf it.items (fun k => after.nums < k.nums) (it.upperBound after).key :=
  firstOf_findIdx fun _ _ hle hk => lt_of_lt_of_le hk hle

/-- `next` goes to the first key behind the present one. -/
theorem firstOf_next (h : it.key = some k) :
    FirstOf it.items (fun k' => k.nums < k'.nums) it.next.key := by
  obtain ⟨i, hpos, rfl⟩ := exists_pos h
  unfold next
  rw [hpos]
  exact firstOf_goto fun j => keyAt_lt_iff.trans Nat.lt_iff_add_one_le

/-- From the end `next` goes nowhere. -/
theorem key_next_of_none (h : it.key = none) : it.next.key = none := by
  unfold next
  rw [Option.map_eq_none_iff.mp h]
  exact h

/-- From the end `prev` goes nowhere. -/
theorem key_prev_of_none (h : it.key = none) : it.prev.key = none := by
  unfold prev
  rw [Option.map_eq_none_iff.mp h]
  exact h

/-- `prev` goes to the last key before the present one. -/
theorem lastOf_prev (h : it.key = some k) :
    LastOf it.items (fun k' => k'.nums < k.nums) it.prev.key := by
  obtain ⟨i, hpos, rfl⟩ := exists_pos h
  unfold prev
  rw [hpos]
  simp only
  split_ifs with h0
  · intro k' hk' hlt
    obtain ⟨j, rfl⟩ := mem_keys_iff.mp hk'
    have := keyAt_lt_iff.mp hlt
    omega
  · have hi' : i.val - 1 < it.items.toList.length := by omega
    refine lastOf_goto (i := ⟨i.val - 1, hi'⟩) fun j => keyAt_lt_iff.trans ?_
    rw [Fin.lt_def, Fin.le_def]
    simp only
    omega

/-- `seek_to_last` goes to the last key. -/
theorem lastOf_seekToLast (it : WholeSpaceIterator) :
    LastOf it.items (fun _ => True) it.seekToLast.key := by
  unfold seekToLast
  split_ifs with hempty
  · intro k hk
    rw [MemDB.keys, List.isEmpty_iff.mp hempty] at hk
    cases hk
  · have hpos : 0 < it.items.toList.length := List.length_pos_iff.mpr (by simpa using hempty)
    exact lastOf_goto (i := ⟨it.items.toList.length - 1, by omega⟩)
      fun j => iff_of_true trivial (Fin.le_def.mpr (by simp only; omega))

/-- `pos_`. -/
def index (it : WholeSpaceIterator) : Option ℕ := it.pos.map Fin.val

/-- An index is the position that was asked for. -/
theorem index_goto {idx j : ℕ} (h : (goto m idx).index = some j) : j = idx := by
  obtain ⟨i, hi, rfl⟩ := Option.map_eq_some_iff.mp h
  unfold goto at i hi
  simp only at i hi
  rw [Option.dite_none_right_eq_some] at hi
  obtain ⟨hlt, hi⟩ := hi
  exact (congrArg Fin.val (Option.some.inj hi)).symm

/-- An index is a position of the list. -/
theorem index_lt {j : ℕ} (h : it.index = some j) : j < it.items.toList.length := by
  obtain ⟨i, -, rfl⟩ := Option.map_eq_some_iff.mp h
  exact i.isLt

/-- An iterator that is on a key has an index. -/
theorem exists_index (h : it.key = some k) : ∃ i, it.index = some i := by
  obtain ⟨i, hpos, -⟩ := exists_pos h
  exact ⟨i, congrArg (Option.map _) hpos⟩

/-- `next` goes on by one position. -/
theorem index_next {i j : ℕ} (h : it.index = some i) (hj : it.next.index = some j) : j = i + 1 := by
  obtain ⟨i, hpos, rfl⟩ := Option.map_eq_some_iff.mp h
  unfold next at hj
  rw [hpos] at hj
  exact index_goto hj

/-- `prev` goes to a smaller position. -/
theorem index_prev {i j : ℕ} (h : it.index = some i) (hj : it.prev.index = some j) : j < i := by
  obtain ⟨i, hpos, rfl⟩ := Option.map_eq_some_iff.mp h
  unfold prev at hj
  rw [hpos] at hj
  simp only at hj
  split_ifs at hj with h0
  · cases hj
  · have := index_goto hj
    omega

/-- `lower_bound` leaves the items. -/
@[simp] theorem items_lowerBound (it : WholeSpaceIterator) (dest : Str) :
    (it.lowerBound dest).items = it.items := rfl

/-- `upper_bound` leaves the items. -/
@[simp] theorem items_upperBound (it : WholeSpaceIterator) (after : Str) :
    (it.upperBound after).items = it.items := rfl

/-- `next` leaves the items. -/
@[simp] theorem items_next (it : WholeSpaceIterator) : it.next.items = it.items := by
  unfold next
  cases it.pos <;> rfl

/-- `prev` leaves the items. -/
@[simp] theorem items_prev (it : WholeSpaceIterator) : it.prev.items = it.items := by
  unfold prev
  cases it.pos with
  | none => rfl
  | some i =>
    simp only
    split_ifs <;> rfl

/-- `seek_to_last` leaves the items. -/
@[simp] theorem items_seekToLast (it : WholeSpaceIterator) : it.seekToLast.items = it.items := by
  unfold seekToLast
  split_ifs <;> rfl

end WholeSpaceIterator

/-! ## Where it lands among the keys of a prefix -/

/-- The keys of the store are made by `encode_key`. -/
def MemDB.Encoded (m : MemDB) : Prop := ∀ k ∈ m.keys, (0 : UInt8) ∈ k

/-- Every full key has a zero byte. -/
theorem zero_mem_encodeKey (pfx key : Str) : (0 : UInt8) ∈ encodeKey pfx key :=
  List.mem_append_right _ List.mem_cons_self

/-- The keys of a store are full keys when each that has a value has a zero byte. -/
theorem MemDB.encoded_iff {m : MemDB} : m.Encoded ↔ ∀ k, m.contents k ≠ none → (0 : UInt8) ∈ k := by
  refine forall_congr' fun k => imp_congr_left ?_
  rw [Option.ne_none_iff_exists', MemDB.keys, List.mem_map]
  constructor
  · rintro ⟨⟨k, v⟩, hin, rfl⟩
    exact ⟨v, (SortedMap.lookup_eq_some_iff nums_injective).mpr hin⟩
  · rintro ⟨v, hv⟩
    exact ⟨(k, v), (SortedMap.lookup_eq_some_iff nums_injective).mp hv, rfl⟩

/-- An operation adds no other keys. -/
theorem Op.result_encoded {mops : MergeOps} {c c' : Contents} {op : Op}
    (h : op.result mops c = some c') {k : Str} (hk : c' k ≠ none) : c k ≠ none ∨ (0 : UInt8) ∈ k := by
  have hupdate : ∀ {pfx key : Str} {v : Option Str}, Function.update c (encodeKey pfx key) v k ≠ none →
      c k ≠ none ∨ (0 : UInt8) ∈ k := by
    intro pfx key v hne
    rw [Function.update_apply] at hne
    split_ifs at hne with heq
    · exact .inr (heq ▸ zero_mem_encodeKey pfx key)
    · exact .inl hne
  cases op with
  | set pfx key bl => exact hupdate (Option.some.inj h ▸ hk)
  | rmkey pfx key => exact hupdate (Option.some.inj h ▸ hk)
  | rmkeysByPrefix pfx =>
    rw [← Option.some.inj h] at hk
    simp only at hk
    split_ifs at hk
    · exact absurd rfl hk
    · exact .inl hk
  | rmRangeKeys pfx start stop =>
    rw [← Option.some.inj h] at hk
    simp only at hk
    split_ifs at hk
    · exact absurd rfl hk
    · exact .inl hk
  | merge pfx key value =>
    obtain ⟨mop, -, hmerge⟩ := Option.bind_eq_some_iff.mp h
    obtain ⟨new, -, rfl⟩ := Option.map_eq_some_iff.mp hmerge
    exact hupdate hk

/-- Transactions keep the store so. -/
theorem MemDB.Encoded.submitTransaction {mops : MergeOps} {m m' : MemDB} {ops : List Op} {r : ℤ}
    (hm : m.Encoded) (h : m.submitTransaction mops ops = some (r, m')) : m'.Encoded := by
  induction ops generalizing m with
  | nil =>
    obtain ⟨-, rfl⟩ := Prod.mk.inj (Option.some.inj h)
    exact hm
  | cons op ops ih =>
    unfold MemDB.submitTransaction at h
    rcases MemDB.apply_cases mops m op with ⟨m₁, happly, hres⟩ | ⟨-, happly⟩ | ⟨-, happly, -⟩
    · rw [happly] at h
      refine ih (MemDB.encoded_iff.mpr fun k hk => ?_) h
      exact (Op.result_encoded hres hk).elim (MemDB.encoded_iff.mp hm k) id
    · rw [happly] at h
      obtain ⟨-, rfl⟩ := Prod.mk.inj (Option.some.inj h)
      exact hm
    · rw [happly] at h
      cases h

/-- The keys of a prefix. -/
def MemDB.keysOf (m : MemDB) (pfx : Str) : Set Str := {key | encodeKey pfx key ∈ m.keys}

/-- The first of some keys. -/
def First (s : Set Str) (key : Str) : Prop := key ∈ s ∧ ∀ key' ∈ s, key.nums ≤ key'.nums

/-- The last of some keys. -/
def Last (s : Set Str) (key : Str) : Prop := key ∈ s ∧ ∀ key' ∈ s, key'.nums ≤ key.nums

section

variable {m : MemDB} {pfx key k : Str} {p : Str → Prop} {q : Str → Prop} {o : Option Str}

/-- A full key begins with that of the empty key. -/
theorem encodeKey_append (pfx key : Str) : encodeKey pfx [] ++ key = encodeKey pfx key := by
  simp [encodeKey]

/-- Keys of one prefix have different full keys. -/
theorem encodeKey_injective (pfx : Str) : Function.Injective (encodeKey pfx) := fun a b h => by
  simpa [encodeKey] using h

/-- No full key of a prefix is before that of the empty key. -/
theorem start_le_encodeKey (pfx key : Str) :
    (encodeKey pfx []).nums ≤ (encodeKey pfx key).nums :=
  (encodeKey_le_iff pfx [] key).mpr (not_lt.mp (List.not_lt_nil _))

/-- Every full key of a prefix is before the end of its keys. -/
theorem encodeKey_lt_end (pfx key : Str) : (encodeKey pfx key).nums < (endOfKeys pfx).nums :=
  ((inRange_pfx pfx _).mpr ⟨key, rfl⟩).2

/-- The parts of a full key come back if the prefix has no zero byte. -/
theorem decodeKey_encodeKey (hpfx : (0 : UInt8) ∉ pfx) (key : Str) :
    decodeKey (encodeKey pfx key) = (pfx, key) := by
  have hall : ∀ a ∈ pfx, decide (a ≠ 0) = true := by
    intro a ha
    exact decide_eq_true fun h => hpfx (h ▸ ha)
  unfold decodeKey encodeKey
  rw [List.takeWhile_append_of_pos hall, List.dropWhile_append_of_pos hall]
  simp

/-- A key with a zero byte is the full key of its parts. -/
theorem encodeKey_decodeKey (hk : (0 : UInt8) ∈ k) :
    encodeKey (decodeKey k).1 (decodeKey k).2 = k := by
  unfold decodeKey encodeKey
  have hhead := List.head?_dropWhile_not (fun x : UInt8 => decide (x ≠ 0)) k
  cases hd : k.dropWhile fun x => decide (x ≠ 0) with
  | nil =>
    rw [List.dropWhile_eq_nil_iff] at hd
    exact absurd (hd 0 hk) (by decide)
  | cons a l =>
    rw [hd] at hhead
    obtain rfl : a = 0 := by simpa using hhead
    show _ ++ 0 :: l = k
    rw [← hd, List.takeWhile_append_dropWhile]

/-- The first of all keys from a place on in the prefix. -/
theorem first_of_firstOf (h : FirstOf m p o) (hp : ∀ key, p (encodeKey pfx key) ↔ q key)
    (hstart : ∀ k, p k → (encodeKey pfx []).nums ≤ k.nums) (key : Str) :
    o = some (encodeKey pfx key) ↔ First {key ∈ m.keysOf pfx | q key} key := by
  constructor
  · rintro rfl
    obtain ⟨hmem, hpk, hmin⟩ := h
    refine ⟨⟨hmem, (hp key).mp hpk⟩, fun key' hkey' => ?_⟩
    exact (encodeKey_le_iff pfx key key').mp (hmin _ hkey'.1 ((hp key').mpr hkey'.2))
  · rintro ⟨⟨hmem, hq⟩, hmin⟩
    have hpk := (hp key).mpr hq
    cases o with
    | none => exact absurd hpk (h _ hmem)
    | some k =>
      obtain ⟨hk, hpk', hle⟩ := h
      have hbelow := hle _ hmem hpk
      obtain ⟨key', rfl⟩ := (inRange_pfx pfx k).mp
        ⟨hstart k hpk', hbelow.trans_lt (encodeKey_lt_end pfx key)⟩
      have hge := hmin key' ⟨hk, (hp key').mp hpk'⟩
      rw [nums_injective (le_antisymm ((encodeKey_le_iff pfx key' key).mp hbelow) hge)]

/-- The last of all keys up to a place in the prefix. -/
theorem last_of_lastOf (h : LastOf m p o) (hp : ∀ key, p (encodeKey pfx key) ↔ q key)
    (hend : ∀ k, p k → k.nums < (endOfKeys pfx).nums) (key : Str) :
    o = some (encodeKey pfx key) ↔ Last {key ∈ m.keysOf pfx | q key} key := by
  constructor
  · rintro rfl
    obtain ⟨hmem, hpk, hmax⟩ := h
    refine ⟨⟨hmem, (hp key).mp hpk⟩, fun key' hkey' => ?_⟩
    exact (encodeKey_le_iff pfx key' key).mp (hmax _ hkey'.1 ((hp key').mpr hkey'.2))
  · rintro ⟨⟨hmem, hq⟩, hmax⟩
    have hpk := (hp key).mpr hq
    cases o with
    | none => exact absurd hpk (h _ hmem)
    | some k =>
      obtain ⟨hk, hpk', hge⟩ := h
      have habove := hge _ hmem hpk
      obtain ⟨key', rfl⟩ := (inRange_pfx pfx k).mp
        ⟨(start_le_encodeKey pfx key).trans habove, hend k hpk'⟩
      have hle := hmax key' ⟨hk, (hp key').mp hpk'⟩
      rw [nums_injective (le_antisymm hle ((encodeKey_le_iff pfx key key').mp habove))]

end

namespace PrefixIterator

variable {m : MemDB} {it : PrefixIterator} {w : WholeSpaceIterator} {pfx key : Str}

/-- The iterator is at a key of its prefix. -/
def At (it : PrefixIterator) (key : Str) : Prop := it.wIter.key = some (encodeKey it.pfx key)

/-- The key of an iterator is one of the store's. -/
theorem mem_keys_of_key {k : Str} (h : w.key = some k) : k ∈ w.items.keys := by
  obtain ⟨i, -, rfl⟩ := WholeSpaceIterator.exists_pos h
  exact WholeSpaceIterator.mem_keys_iff.mpr ⟨i, rfl⟩

/-- The check of the prefix passes for the full keys of the prefix alone. -/
theorem rawKeyIsPrefixed_iff (hpfx : (0 : UInt8) ∉ pfx) (hm : w.items.Encoded) :
    w.rawKeyIsPrefixed pfx ↔ ∃ key, w.key = some (encodeKey pfx key) := by
  unfold WholeSpaceIterator.rawKeyIsPrefixed WholeSpaceIterator.rawKey
  cases hk : w.key with
  | none => simp
  | some k =>
    rw [Option.map_some, Option.any_some, decide_eq_true_eq]
    constructor
    · rintro rfl
      exact ⟨(decodeKey k).2, congrArg some (encodeKey_decodeKey (hm k (mem_keys_of_key hk))).symm⟩
    · rintro ⟨key, heq⟩
      rw [Option.some.inj heq, decodeKey_encodeKey hpfx]

/-- `valid` looks at the prefix and at the upper bound. -/
theorem valid_iff (hpfx : (0 : UInt8) ∉ it.pfx) (hm : it.wIter.items.Encoded) :
    it.valid ↔ ∃ key, it.At key ∧ ∀ upper ∈ it.upperBound_, key.nums < upper.nums := by
  unfold valid At
  rw [Bool.and_eq_true, Bool.and_eq_true, WholeSpaceIterator.valid_iff,
    rawKeyIsPrefixed_iff hpfx hm]
  constructor
  · rintro ⟨⟨-, key, hkey⟩, hupper⟩
    refine ⟨key, hkey, fun upper hu => ?_⟩
    rw [Option.mem_def.mp hu, Option.all_some, WholeSpaceIterator.rawKey, hkey, Option.map_some,
      decodeKey_encodeKey hpfx, Option.any_some] at hupper
    exact of_decide_eq_true hupper
  · rintro ⟨key, hkey, hupper⟩
    refine ⟨⟨⟨_, hkey⟩, key, hkey⟩, ?_⟩
    cases hu : it.upperBound_ with
    | none => rfl
    | some upper =>
      rw [Option.all_some, WholeSpaceIterator.rawKey, hkey, Option.map_some,
        decodeKey_encodeKey hpfx, Option.any_some]
      exact decide_eq_true (hupper upper hu)

/-- The key that is answered is the one that the iterator is on. -/
theorem key_of_at (hpfx : (0 : UInt8) ∉ it.pfx) (h : it.At key) : it.key = some key := by
  unfold PrefixIterator.key WholeSpaceIterator.rawKey
  rw [h, Option.map_some, Option.map_some, decodeKey_encodeKey hpfx]

/-- `lower_bound` goes to the first key of the prefix that is not before the given one. -/
theorem at_lowerBound (it : PrefixIterator) (dest key : Str) :
    (it.lowerBound dest).At key ↔
      First {key ∈ it.wIter.items.keysOf it.pfx | dest.nums ≤ key.nums} key := by
  unfold At lowerBound
  rw [encodeKey_append]
  refine first_of_firstOf (it.wIter.firstOf_lowerBound _) (encodeKey_le_iff it.pfx dest) ?_ key
  exact fun k hk => (start_le_encodeKey it.pfx dest).trans hk

/-- In `upper_bound`, a step is made from the key itself, and from a key behind the prefix. -/
theorem at_upperBound (hpfx : (0 : UInt8) ∉ it.pfx) (after key : Str) :
    (it.upperBound after).At key ↔
      First {key ∈ it.wIter.items.keysOf it.pfx | after.nums < key.nums} key := by
  have hlb := it.wIter.firstOf_lowerBound (encodeKey it.pfx after)
  unfold At upperBound
  simp only [encodeKey_append]
  generalize hw : it.wIter.lowerBound (encodeKey it.pfx after) = w at hlb
  have hitems : w.items = it.wIter.items := by rw [← hw]; rfl
  have hfrom : ∀ o, FirstOf it.wIter.items (fun k => (encodeKey it.pfx after).nums < k.nums) o →
      (o = some (encodeKey it.pfx key) ↔
        First {key ∈ it.wIter.items.keysOf it.pfx | after.nums < key.nums} key) := fun o ho =>
    first_of_firstOf ho (encodeKey_lt_iff it.pfx after)
      (fun k hk => (start_le_encodeKey it.pfx after).trans hk.le) key
  cases hk : w.key with
  | none =>
    rw [hk] at hlb
    have hraw : (w.rawKey.any fun p => decide (p.2 = after)) = false := by
      rw [WholeSpaceIterator.rawKey, hk]
      rfl
    rw [hraw, if_neg (by decide), hk]
    exact hfrom none fun k hk hlt => hlb k hk hlt.le
  | some k =>
    rw [hk] at hlb
    obtain ⟨hmem, hle, hmin⟩ := hlb
    have hraw : (w.rawKey.any fun p => decide (p.2 = after)) = decide ((decodeKey k).2 = after) := by
      rw [WholeSpaceIterator.rawKey, hk]
      rfl
    rw [hraw]
    by_cases heq : k = encodeKey it.pfx after
    · subst heq
      rw [if_pos (by rw [decodeKey_encodeKey hpfx]; exact decide_eq_true rfl)]
      exact hfrom _ (hitems ▸ WholeSpaceIterator.firstOf_next hk)
    · have hlt : (encodeKey it.pfx after).nums < k.nums :=
        lt_of_le_of_ne hle fun h => heq (nums_injective h).symm
      split_ifs with hinner
      · -- The key is one of a prefix behind this one.
        have hbehind : (endOfKeys it.pfx).nums ≤ k.nums := by
          by_contra hlt'
          obtain ⟨key', rfl⟩ := (inRange_pfx it.pfx k).mp
            ⟨(start_le_encodeKey it.pfx after).trans hle, not_le.mp hlt'⟩
          rw [decodeKey_encodeKey hpfx, decide_eq_true_eq] at hinner
          exact heq (congrArg _ hinner)
        have hnone : ∀ key' ∈ it.wIter.items.keysOf it.pfx, ¬ after.nums < key'.nums := by
          intro key' hkey' hlt'
          have hge := hmin _ hkey' ((encodeKey_lt_iff it.pfx after key').mpr hlt').le
          exact absurd (hbehind.trans hge) (not_le.mpr (encodeKey_lt_end it.pfx key'))
        refine iff_of_false (fun hnext => ?_) fun h => hnone key h.1.1 h.1.2
        have hfirst := WholeSpaceIterator.firstOf_next hk
        rw [hnext] at hfirst
        exact absurd (hbehind.trans hfirst.2.1.le) (not_le.mpr (encodeKey_lt_end it.pfx key))
      · rw [hk]
        exact hfrom (some k) ⟨hmem, hlt, fun k' hk' hlt' => hmin k' hk' hlt'.le⟩

/-- `next` goes to the first key of the prefix behind the present one. -/
theorem at_next (h : it.At key) (key' : Str) :
    it.next.At key' ↔ First {key' ∈ it.wIter.items.keysOf it.pfx | key.nums < key'.nums} key' := by
  refine first_of_firstOf (WholeSpaceIterator.firstOf_next h) (encodeKey_lt_iff it.pfx key) ?_ key'
  exact fun k hk => (start_le_encodeKey it.pfx key).trans hk.le

/-- Where the iterator is at or behind all keys of the prefix, and it is at one of them if it is
anywhere, this is the last one. -/
theorem last_of_stop (hitems : w.items = m)
    (hall : ∀ key ∈ m.keysOf pfx, ∃ k, w.key = some k ∧ (encodeKey pfx key).nums ≤ k.nums)
    (hstop : ∀ k, w.key = some k → ∃ last, k = encodeKey pfx last) (key : Str) :
    w.key = some (encodeKey pfx key) ↔ Last (m.keysOf pfx) key := by
  cases hk : w.key with
  | none =>
    refine iff_of_false (by simp) fun h => ?_
    obtain ⟨k, hk', -⟩ := hall key h.1
    rw [hk] at hk'
    cases hk'
  | some k =>
    obtain ⟨last, rfl⟩ := hstop k hk
    have hmem : last ∈ m.keysOf pfx := hitems ▸ mem_keys_of_key hk
    have hmax : Last (m.keysOf pfx) last := by
      refine ⟨hmem, fun key' hkey' => ?_⟩
      obtain ⟨k, hk', hle⟩ := hall key' hkey'
      obtain rfl := Option.some.inj (hk.symm.trans hk')
      exact (encodeKey_le_iff pfx key' last).mp hle
    rw [Option.some_inj, (encodeKey_injective pfx).eq_iff]
    constructor
    · rintro rfl
      exact hmax
    · exact fun h => nums_injective (le_antisymm (hmax.2 key h.1) (h.2 last hmem)).symm

/-- Going back from behind the prefix, the first key of the prefix that is met is its last one. -/
theorem backToPrefix_spec (hpfx : (0 : UInt8) ∉ pfx) (hm : m.Encoded) {rounds : ℕ}
    (hitems : w.items = m) (hrounds : ∀ i, w.index = some i → i < rounds)
    (hall : ∀ key ∈ m.keysOf pfx, ∃ k, w.key = some k ∧ (encodeKey pfx key).nums ≤ k.nums)
    (key : Str) : (backToPrefix pfx rounds w).key = some (encodeKey pfx key) ↔
      Last (m.keysOf pfx) key := by
  induction rounds generalizing w with
  | zero =>
    refine last_of_stop hitems hall (fun k hk => ?_) key
    obtain ⟨i, hpos, -⟩ := WholeSpaceIterator.exists_pos hk
    exact absurd (hrounds i (congrArg (Option.map _) hpos)) (Nat.not_lt_zero _)
  | succ rounds ih =>
    have hprefixed := rawKeyIsPrefixed_iff (w := w) hpfx (hitems ▸ hm)
    unfold backToPrefix
    split_ifs with hgo
    · obtain ⟨hvalid, hnot⟩ := hgo
      obtain ⟨k, hk⟩ := WholeSpaceIterator.valid_iff.mp hvalid
      obtain ⟨i, hpos, -⟩ := WholeSpaceIterator.exists_pos hk
      have hprev := WholeSpaceIterator.lastOf_prev hk
      refine ih (by rw [WholeSpaceIterator.items_prev, hitems]) (fun j hj => ?_) fun key' hkey' => ?_
      · have hindex : w.index = some i.val := congrArg (Option.map _) hpos
        have := WholeSpaceIterator.index_prev hindex hj
        have := hrounds i hindex
        omega
      · obtain ⟨k₁, hk₁, hle⟩ := hall key' hkey'
        obtain rfl := Option.some.inj (hk.symm.trans hk₁)
        have hlt : (encodeKey pfx key').nums < k.nums := by
          refine lt_of_le_of_ne hle fun h => hnot (hprefixed.mpr ⟨key', ?_⟩)
          rw [hk, nums_injective h]
        have hin : encodeKey pfx key' ∈ w.items.keys := hitems ▸ hkey'
        cases hk' : w.prev.key with
        | none =>
          rw [hk'] at hprev
          exact absurd hlt (hprev _ hin)
        | some k' =>
          rw [hk'] at hprev
          exact ⟨k', rfl, hprev.2.2 _ hin hlt⟩
    · refine last_of_stop hitems hall (fun k hk => ?_) key
      by_contra hnot
      refine hgo ⟨WholeSpaceIterator.valid_iff.mpr ⟨k, hk⟩, fun h => hnot ?_⟩
      obtain ⟨last, hlast⟩ := hprefixed.mp h
      exact ⟨last, Option.some.inj (hk.symm.trans hlast)⟩

/-- Two conditions that say the same of the keys have the same last key. -/
theorem LastOf.congr {p q : Str → Prop} {o : Option Str} (h : LastOf m p o)
    (hpq : ∀ k ∈ m.keys, p k ↔ q k) : LastOf m q o := by
  cases o with
  | none => exact fun k hk hq => h k hk ((hpq k hk).mpr hq)
  | some k =>
    obtain ⟨hk, hp, hmax⟩ := h
    exact ⟨hk, (hpq k hk).mp hp, fun k' hk' hq => hmax k' hk' ((hpq k' hk').mpr hq)⟩

/-- `seek_to_last` goes to the last key of the prefix. -/
theorem at_seekToLast (hpfx : (0 : UInt8) ∉ it.pfx) (hm : it.wIter.items.Encoded) (key : Str) :
    it.seekToLast.At key ↔ Last (it.wIter.items.keysOf it.pfx) key := by
  have hub := it.wIter.firstOf_upperBound (endOfKeys it.pfx)
  have hne : ∀ k ∈ it.wIter.items.keys, k ≠ endOfKeys it.pfx := by
    rintro k hk rfl
    have h0 := hm _ hk
    rw [endOfKeys, List.mem_append] at h0
    exact h0.elim hpfx (by decide)
  have hend : ∀ k ∈ it.wIter.items.keys, ¬ (endOfKeys it.pfx).nums < k.nums ↔
      k.nums < (endOfKeys it.pfx).nums := fun k hk =>
    ⟨fun h => lt_of_le_of_ne (not_lt.mp h) fun heq => hne k hk (nums_injective heq),
      fun h => h.asymm⟩
  unfold At seekToLast
  simp only
  -- There is nothing behind the prefix, or the place before it is looked at.
  cases hk : (it.wIter.upperBound (endOfKeys it.pfx)).key with
  | none =>
    rw [hk] at hub
    have hvalid : ¬ (it.wIter.upperBound (endOfKeys it.pfx)).valid := by
      rw [WholeSpaceIterator.valid_iff, hk]
      simp
    rw [if_neg hvalid]
    have hlast := (it.wIter.upperBound (endOfKeys it.pfx)).lastOf_seekToLast
    refine backToPrefix_spec hpfx hm (by simp) (fun i hi => ?_) (fun key' hkey' => ?_) key
    · have := WholeSpaceIterator.index_lt hi
      rw [WholeSpaceIterator.items_seekToLast] at this
      omega
    · cases hk' : (it.wIter.upperBound (endOfKeys it.pfx)).seekToLast.key with
      | none =>
        rw [hk'] at hlast
        exact absurd trivial (hlast _ hkey')
      | some k =>
        rw [hk'] at hlast
        exact ⟨k, rfl, hlast.2.2 _ hkey' trivial⟩
  | some k =>
    rw [hk] at hub
    obtain ⟨hmem, hlt, hmin⟩ := hub
    rw [if_pos (WholeSpaceIterator.valid_iff.mpr ⟨k, hk⟩)]
    have hprev := WholeSpaceIterator.lastOf_prev hk
    have hbelow : LastOf it.wIter.items (fun k' => k'.nums < (endOfKeys it.pfx).nums)
        (it.wIter.upperBound (endOfKeys it.pfx)).prev.key :=
      LastOf.congr hprev fun k' hk' =>
        ⟨fun h => (hend k' hk').mp fun h' => absurd h (not_lt.mpr (hmin k' hk' h')),
          fun h => h.trans hlt⟩
    have h := last_of_lastOf (q := fun _ => True) hbelow
      (fun key => iff_of_true (encodeKey_lt_end it.pfx key) trivial) (fun _ h => h) key
    simpa [Last] using h

end PrefixIterator

end CxxLab.Kv
