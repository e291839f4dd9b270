import CxxLab.Kv.PrefixIterator

/-!
# What an iterator over a prefix shows

With bounds, the keys to be shown are a window on the keys of the prefix. `valid` looks at the upper
bound only, `lower_bound` and `seek_to_last` seek in the whole prefix, and `upper_bound` replaces
the upper bound. So calls may land outside of the window, and a key outside may be shown
(`calls_right_iff`).
-/

namespace CxxLab.Kv

open Common

/-! ## The window -/

namespace IteratorBounds

/-- The key is not below the lower bound. -/
def Above (b : IteratorBounds) (key : Str) : Prop := ∀ lower ∈ b.lowerBound, lower.nums ≤ key.nums

/-- The key is below the upper bound. -/
def Under (b : IteratorBounds) (key : Str) : Prop := ∀ upper ∈ b.upperBound, key.nums < upper.nums

variable {b : IteratorBounds} {key key' : Str}

/-- What is behind a key that is above the lower bound is so too. -/
theorem Above.mono (h : b.Above key) (hle : key.nums ≤ key'.nums) : b.Above key' :=
  fun lower hl => (h lower hl).trans hle

/-- What is before a key that is under the upper bound is so too. -/
theorem Under.mono (h : b.Under key') (hle : key.nums ≤ key'.nums) : b.Under key :=
  fun upper hu => hle.trans_lt (h upper hu)

/-- Without a lower bound the empty key is one. -/
theorem above_iff : b.Above key ↔ (b.lowerBound.getD []).nums ≤ key.nums := by
  unfold Above
  cases b.lowerBound with
  | none => exact iff_of_true (by simp) (not_lt.mp (List.not_lt_nil _))
  | some lower => simp

/-- The keys of a prefix within the bounds. -/
def window (b : IteratorBounds) (m : MemDB) (pfx : Str) : Set Str :=
  {key ∈ m.keysOf pfx | b.Above key ∧ b.Under key}

end IteratorBounds

/-- A prefix has finitely many keys. -/
theorem finite_keysOf (m : MemDB) (pfx : Str) : (m.keysOf pfx).Finite :=
  (List.finite_toSet m.keys).preimage (encodeKey_injective pfx).injOn

/-- Some keys of a prefix have a first one. -/
theorem exists_first {m : MemDB} {pfx : Str} {s : Set Str} (hs : s ⊆ m.keysOf pfx) {key : Str}
    (h : key ∈ s) : ∃ key', First s key' := by
  obtain ⟨key', hmem, hmin⟩ :=
    Set.exists_min_image s Str.nums ((finite_keysOf m pfx).subset hs) ⟨key, h⟩
  exact ⟨key', hmem, hmin⟩

/-- Some keys of a prefix have a last one. -/
theorem exists_last {m : MemDB} {pfx : Str} {s : Set Str} (hs : s ⊆ m.keysOf pfx) {key : Str}
    (h : key ∈ s) : ∃ key', Last s key' := by
  obtain ⟨key', hmem, hmax⟩ :=
    Set.exists_max_image s Str.nums ((finite_keysOf m pfx).subset hs) ⟨key, h⟩
  exact ⟨key', hmem, hmax⟩

/-! ## Calls -/

namespace PrefixIterator

/-- What is called on an iterator. -/
inductive Call where
  | seekToFirst
  | seekToLast
  | lowerBound (dest : Str)
  | upperBound (after : Str)
  | next
  | prev

/-- The iterator after a call. -/
def call (it : PrefixIterator) : Call → PrefixIterator
  | .seekToFirst => it.seekToFirst
  | .seekToLast => it.seekToLast
  | .lowerBound dest => it.lowerBound dest
  | .upperBound after => it.upperBound after
  | .next => it.next
  | .prev => it.prev

/-- The loop of a caller, with so many rounds at most: the keys while `valid`, by `next`. -/
def collect : ℕ → PrefixIterator → Option (List Str)
  | 0, _ => none
  | rounds + 1, it =>
    if it.valid then it.key.bind fun key => (collect rounds it.next).map (key :: ·) else some []

variable (win : Set Str) (it : PrefixIterator)

/-- `valid` is true exactly on the keys to be shown. -/
def Exact : Prop := it.valid ↔ ∃ key ∈ win, it.At key

/-- The iterator lands on the key to be shown that is said, and on none where there is none. -/
def Lands (goal : Str → Prop) : Prop := ∀ key, key ∈ win ∧ it.At key ↔ goal key

/-- From here on, the keys to be shown come in ascending order, and no others. -/
def Enumerates : Prop :=
  ∃ rounds keys, it.collect rounds = some keys ∧
    (keys.Pairwise fun a b => a.nums < b.nums) ∧ ∀ key, key ∈ keys ↔ key ∈ win

/-- A call does what it is to do. -/
def Right (c : Call) : Prop :=
  (it.call c).Exact win ∧
    match c with
    | .seekToFirst => (it.call c).Lands win (First win) ∧ (it.call c).Enumerates win
    | .seekToLast => (it.call c).Lands win (Last win)
    | .lowerBound dest => (it.call c).Lands win (First {key ∈ win | dest.nums ≤ key.nums})
    | .upperBound after => (it.call c).Lands win (First {key ∈ win | after.nums < key.nums})
    | .next => ∀ key ∈ win, it.At key →
        (it.call c).Lands win (First {key' ∈ win | key.nums < key'.nums})
    | .prev => True

end PrefixIterator

/-! ## When a call is right -/

section

variable (m : MemDB) (pfx : Str) (b : IteratorBounds)

open PrefixIterator

/-- The condition, on the bounds and on what the store has. -/
def RightWhen (it : PrefixIterator) : Call → Prop
  | .seekToFirst => True
  | .seekToLast =>
      ((b.window m pfx).Nonempty → ∀ key ∈ m.keysOf pfx, b.Under key) ∧
        (¬ (b.window m pfx).Nonempty → (m.keysOf pfx).Nonempty → ∃ key ∈ m.keysOf pfx, ¬ b.Under key)
  | .lowerBound dest => ∀ key ∈ m.keysOf pfx, dest.nums ≤ key.nums → b.Under key → b.Above key
  | .upperBound after => ∀ key ∈ b.window m pfx, ¬ after.nums < key.nums
  | .next => ∀ k key, it.wIter.key = some k →
      FirstOf m (fun k' => k.nums < k'.nums) (some (encodeKey pfx key)) → b.Under key → b.Above key
  | .prev => ∀ k key, it.wIter.key = some k →
      LastOf m (fun k' => k'.nums < k.nums) (some (encodeKey pfx key)) → b.Under key → b.Above key

/-- A call meets the condition; and where it replaces the upper bound, the new one divides the keys
of the prefix as that of the window does. -/
def Meets (it : PrefixIterator) : Call → Prop
  | .upperBound after => ∀ key ∈ m.keysOf pfx, key.nums < after.nums ↔ b.Under key
  | c => RightWhen m pfx b it c

/-- The iterators that calls reach which meet the condition. -/
inductive Reached : PrefixIterator → Prop
  | make : Reached (make m pfx b)
  | call {it : PrefixIterator} {c : Call} (h : Reached it) (hc : Meets m pfx b it c) :
    Reached (it.call c)

/-- What stays so. -/
structure Kept (it : PrefixIterator) : Prop where
  items : it.wIter.items = m
  pfx_eq : it.pfx = pfx
  lower : it.seekLowerBound = encodeKey pfx (b.lowerBound.getD [])
  agrees : ∀ key ∈ m.keysOf pfx, (∀ upper ∈ it.upperBound_, key.nums < upper.nums) ↔ b.Under key

end

section

open PrefixIterator

variable {m : MemDB} {pfx : Str} {b : IteratorBounds} {it : PrefixIterator}

/-- Going back to the prefix leaves the items. -/
theorem items_backToPrefix (pfx : Str) (rounds : ℕ) (w : WholeSpaceIterator) :
    (backToPrefix pfx rounds w).items = w.items := by
  induction rounds generalizing w with
  | zero => rfl
  | succ rounds ih =>
    unfold backToPrefix
    split_ifs
    · rw [ih, WholeSpaceIterator.items_prev]
    · rfl

/-- A new iterator has its store, its prefix and its bounds. -/
theorem Kept.make (m : MemDB) (pfx : Str) (b : IteratorBounds) :
    Kept m pfx b (PrefixIterator.make m pfx b) := by
  obtain ⟨lower, upper⟩ := b
  cases lower with
  | none => exact ⟨rfl, rfl, rfl, fun _ _ => Iff.rfl⟩
  | some lower => exact ⟨rfl, rfl, encodeKey_append pfx lower, fun _ _ => Iff.rfl⟩

/-- `next` leaves them. -/
theorem Kept.next (h : Kept m pfx b it) : Kept m pfx b it.next :=
  ⟨(WholeSpaceIterator.items_next _).trans h.items, h.pfx_eq, h.lower, h.agrees⟩

/-- So does every call but an `upper_bound` that changes what is under the bound. -/
theorem Kept.call (h : Kept m pfx b it) {c : Call} (hc : ∀ after, c = .upperBound after →
      ∀ key ∈ m.keysOf pfx, key.nums < after.nums ↔ b.Under key) :
    Kept m pfx b (it.call c) := by
  cases c with
  | seekToFirst => exact ⟨h.items, h.pfx_eq, h.lower, h.agrees⟩
  | seekToLast =>
    have hitems : it.seekToLast.wIter.items = it.wIter.items := by
      unfold seekToLast
      simp only
      split_ifs
      · simp
      · simp [items_backToPrefix]
    have hrest : it.seekToLast.pfx = it.pfx ∧ it.seekToLast.seekLowerBound = it.seekLowerBound ∧
        it.seekToLast.upperBound_ = it.upperBound_ := by
      unfold seekToLast
      simp only
      split_ifs <;> exact ⟨rfl, rfl, rfl⟩
    obtain ⟨h1, h2, h3⟩ := hrest
    exact ⟨hitems.trans h.items, h1.trans h.pfx_eq, h2.trans h.lower, by
      show ∀ key ∈ _, (∀ upper ∈ it.seekToLast.upperBound_, _) ↔ _
      rw [h3]
      exact h.agrees⟩
  | lowerBound dest => exact ⟨h.items, h.pfx_eq, h.lower, h.agrees⟩
  | upperBound after =>
    refine ⟨?_, h.pfx_eq, h.lower, fun key hkey => ?_⟩
    · show (it.upperBound after).wIter.items = m
      unfold upperBound
      simp only
      split_ifs
      · rw [WholeSpaceIterator.items_next]
        exact h.items
      · exact h.items
    · rw [← hc after rfl key hkey]
      simp [PrefixIterator.call, upperBound]
  | next => exact h.next
  | prev => exact ⟨(WholeSpaceIterator.items_prev _).trans h.items, h.pfx_eq, h.lower, h.agrees⟩

/-- An iterator that is reached by calls has its store, its prefix and its bounds. -/
theorem Reached.kept (h : Reached m pfx b it) : Kept m pfx b it := by
  induction h with
  | make => exact Kept.make m pfx b
  | call _ hc ih => exact ih.call fun after heq => by subst heq; exact hc

/-! ## Why -/

namespace Kept

variable (h : Kept m pfx b it) (hm : m.Encoded) (hpfx : (0 : UInt8) ∉ pfx)

include h

/-- The iterator is on a key when the one below is on its full key. -/
theorem at_iff (key : Str) : it.At key ↔ it.wIter.key = some (encodeKey pfx key) := by
  rw [At, h.pfx_eq]

/-- The key is one of the prefix. -/
theorem mem_keysOf {key : Str} (hkey : it.At key) : key ∈ m.keysOf pfx := by
  have hmem := mem_keys_of_key ((h.at_iff key).mp hkey)
  rwa [h.items] at hmem

include hm hpfx

/-- An iterator is valid when it is on a key of the prefix under its upper bound. -/
theorem valid_iff : it.valid ↔ ∃ key, it.At key ∧ b.Under key := by
  rw [PrefixIterator.valid_iff (h.pfx_eq ▸ hpfx) (h.items ▸ hm)]
  exact exists_congr fun key => and_congr_right fun hkey => h.agrees key (h.mem_keysOf hkey)

/-- Where the upper bound is as good as that of the window, a key is wrongly shown exactly when it
is below both bounds. -/
theorem exact_iff :
    it.Exact (b.window m pfx) ↔ ∀ key, it.At key → b.Under key → b.Above key := by
  unfold Exact
  rw [h.valid_iff hm hpfx]
  constructor
  · intro hexact key hkey hunder
    obtain ⟨key', hwin, hkey'⟩ := hexact.mp ⟨key, hkey, hunder⟩
    have heq := ((h.at_iff key).mp hkey).symm.trans ((h.at_iff key').mp hkey')
    rw [encodeKey_injective pfx (Option.some.inj heq)]
    exact hwin.2.1
  · intro habove
    constructor
    · rintro ⟨key, hkey, hunder⟩
      exact ⟨key, ⟨h.mem_keysOf hkey, habove key hkey hunder, hunder⟩, hkey⟩
    · rintro ⟨key, hwin, hkey⟩
      exact ⟨key, hkey, hwin.2.2⟩

end Kept

/-- A seek forward in the prefix, to a place from which on no key is below both bounds, lands on
the first key of the window from there on. -/
theorem lands_first {q : Str → Prop}
    (hAt : ∀ key, it.At key ↔ First {key ∈ m.keysOf pfx | q key} key)
    (hq : ∀ key ∈ m.keysOf pfx, q key → b.Under key → b.Above key) :
    it.Lands (b.window m pfx) (First {key ∈ b.window m pfx | q key}) := by
  intro key
  constructor
  · rintro ⟨hwin, hkey⟩
    obtain ⟨hmem, hmin⟩ := (hAt key).mp hkey
    exact ⟨⟨hwin, hmem.2⟩, fun key' hkey' => hmin key' ⟨hkey'.1.1, hkey'.2⟩⟩
  · rintro ⟨⟨hwin, hqk⟩, hmin⟩
    refine ⟨hwin, ?_⟩
    obtain ⟨key', hfirst⟩ := exists_first (s := {key ∈ m.keysOf pfx | q key})
      (fun _ h => h.1) ⟨hwin.1, hqk⟩
    have hle := hfirst.2 key ⟨hwin.1, hqk⟩
    have hunder := hwin.2.2.mono hle
    have hwin' : key' ∈ b.window m pfx :=
      ⟨hfirst.1.1, hq key' hfirst.1.1 hfirst.1.2 hunder, hunder⟩
    have hge := hmin key' ⟨hwin', hfirst.1.2⟩
    rw [nums_injective (le_antisymm hge hle)]
    exact (hAt key').mpr hfirst

/-- From an iterator that is not valid nothing is collected, and nothing is in the window. -/
theorem collect_of_not_valid (hm : m.Encoded) (hpfx : (0 : UInt8) ∉ pfx) (h : Kept m pfx b it)
    (hstart : ∀ k, it.wIter.key = some k →
      (encodeKey pfx (b.lowerBound.getD [])).nums ≤ k.nums) (hvalid : ¬ it.valid) :
    ∃ rounds keys, it.collect rounds = some keys ∧
      (keys.Pairwise fun a b => a.nums < b.nums) ∧
      ∀ key, key ∈ keys ↔ key ∈ b.window m pfx ∧
        ∃ k, it.wIter.key = some k ∧ k.nums ≤ (encodeKey pfx key).nums := by
  refine ⟨1, [], by rw [collect, if_neg hvalid], List.Pairwise.nil,
    fun key => iff_of_false List.not_mem_nil ?_⟩
  -- A key of the prefix that is not shown is not below the upper bound.
  rintro ⟨hwin, k, hk, hle⟩
  obtain ⟨key', rfl⟩ := (inRange_pfx pfx k).mp
    ⟨(start_le_encodeKey pfx _).trans (hstart k hk), hle.trans_lt (encodeKey_lt_end pfx key)⟩
  refine hvalid ((h.valid_iff hm hpfx).mpr ⟨key', (h.at_iff key').mpr hk, ?_⟩)
  exact hwin.2.2.mono ((encodeKey_le_iff pfx key' key).mp hle)

/-- The calls of `next` from a place on give the keys of the window that are not before it. -/
theorem collect_spec (hm : m.Encoded) (hpfx : (0 : UInt8) ∉ pfx) (n : ℕ) (h : Kept m pfx b it)
    (hn : ∀ i, it.wIter.index = some i → m.toList.length - i ≤ n)
    (hstart : ∀ k, it.wIter.key = some k →
      (encodeKey pfx (b.lowerBound.getD [])).nums ≤ k.nums) :
    ∃ rounds keys, it.collect rounds = some keys ∧
      (keys.Pairwise fun a b => a.nums < b.nums) ∧
      ∀ key, key ∈ keys ↔ key ∈ b.window m pfx ∧
        ∃ k, it.wIter.key = some k ∧ k.nums ≤ (encodeKey pfx key).nums := by
  -- By the number of keys that are left.
  induction n generalizing it with
  | zero =>
    -- Without a position, nothing is shown.
    have hk : it.wIter.key = none := by
      rw [Option.eq_none_iff_forall_ne_some]
      intro k hk
      obtain ⟨i, hi⟩ := WholeSpaceIterator.exists_index hk
      have hlt := WholeSpaceIterator.index_lt hi
      rw [h.items] at hlt
      have := hn i hi
      omega
    refine collect_of_not_valid hm hpfx h hstart fun hvalid => ?_
    obtain ⟨key, hkey, -⟩ := (h.valid_iff hm hpfx).mp hvalid
    rw [h.at_iff, hk] at hkey
    cases hkey
  | succ n ih =>
    -- The iterator is at a key under the prefix, which is the next one.
    by_cases hvalid : it.valid
    · obtain ⟨key, hkey, hunder⟩ := (h.valid_iff hm hpfx).mp hvalid
      have hk := (h.at_iff key).mp hkey
      have habove : b.Above key :=
        IteratorBounds.above_iff.mpr ((encodeKey_le_iff pfx _ key).mp (hstart _ hk))
      obtain ⟨i, hi⟩ := WholeSpaceIterator.exists_index hk
      have hnext := WholeSpaceIterator.firstOf_next hk
      rw [h.items] at hnext
      obtain ⟨rounds, keys, hcollect, hsorted, hkeys⟩ := ih h.next
        (fun j hj => by
          have := hn i hi
          have := WholeSpaceIterator.index_next hi hj
          omega)
        (fun k hk' => by
          change it.wIter.next.key = some k at hk'
          rw [hk'] at hnext
          exact (hstart _ hk).trans hnext.2.1.le)
      have hafter : ∀ key', key' ∈ keys ↔ key' ∈ b.window m pfx ∧ key.nums < key'.nums := by
        intro key'
        rw [hkeys, ← encodeKey_lt_iff pfx]
        refine and_congr_right fun hwin => ?_
        change (∃ k, it.wIter.next.key = some k ∧ k.nums ≤ _) ↔ _
        constructor
        · rintro ⟨k, hk', hle⟩
          rw [hk'] at hnext
          exact hnext.2.1.trans_le hle
        · intro hlt'
          cases hk' : it.wIter.next.key with
          | none =>
            rw [hk'] at hnext
            exact absurd hlt' (hnext _ hwin.1)
          | some k =>
            rw [hk'] at hnext
            exact ⟨k, rfl, hnext.2.2 _ hwin.1 hlt'⟩
      refine ⟨rounds + 1, key :: keys, ?_, ?_, fun key' => ?_⟩
      · rw [collect, if_pos hvalid, key_of_at (h.pfx_eq ▸ hpfx) hkey, Option.bind_some, hcollect]
        rfl
      · exact List.pairwise_cons.mpr ⟨fun key' hkey' => ((hafter key').mp hkey').2, hsorted⟩
      · rw [List.mem_cons, hafter, hk]
        constructor
        · rintro (rfl | ⟨hwin, hlt'⟩)
          · exact ⟨⟨h.mem_keysOf hkey, habove, hunder⟩, _, rfl, le_rfl⟩
          · exact ⟨hwin, _, rfl, ((encodeKey_lt_iff pfx key key').mpr hlt').le⟩
        · rintro ⟨hwin, k, hk', hle⟩
          obtain rfl := Option.some.inj hk'
          rcases ((encodeKey_le_iff pfx key key').mp hle).eq_or_lt with heq | hlt'
          · exact .inl (nums_injective heq).symm
          · exact .inr ⟨hwin, hlt'⟩
    · exact collect_of_not_valid hm hpfx h hstart hvalid

/-- From the start of the window on, `next` gives all of it. -/
theorem Kept.seekToFirst_right (h : Kept m pfx b it) (hm : m.Encoded) (hpfx : (0 : UInt8) ∉ pfx) :
    Right (b.window m pfx) it .seekToFirst := by
  have h' : Kept m pfx b (it.call .seekToFirst) := h.call fun _ heq => by cases heq
  have heq : it.call .seekToFirst = it.lowerBound (b.lowerBound.getD []) := by
    show it.seekToFirst = _
    unfold PrefixIterator.seekToFirst PrefixIterator.lowerBound
    rw [h.lower, h.pfx_eq, encodeKey_append]
  have hAt : ∀ key, (it.call .seekToFirst).At key ↔
      First {key ∈ m.keysOf pfx | (b.lowerBound.getD []).nums ≤ key.nums} key := fun key => by
    rw [heq, at_lowerBound, h.items, h.pfx_eq]
  have habove : ∀ key ∈ m.keysOf pfx, (b.lowerBound.getD []).nums ≤ key.nums → b.Under key →
      b.Above key := fun _ _ hle _ => IteratorBounds.above_iff.mpr hle
  have hwin : {key ∈ b.window m pfx | (b.lowerBound.getD []).nums ≤ key.nums} = b.window m pfx :=
    Set.sep_eq_self_iff_mem_true.mpr fun key hkey => IteratorBounds.above_iff.mp hkey.2.1
  have hfirst : FirstOf m (fun k => (encodeKey pfx (b.lowerBound.getD [])).nums ≤ k.nums)
      (it.call .seekToFirst).wIter.key := by
    have := it.wIter.firstOf_lowerBound it.seekLowerBound
    rw [h.items] at this
    rw [← h.lower]
    exact this
  refine ⟨(h'.exact_iff hm hpfx).mpr fun key hkey => ?_, ?_, ?_⟩
  · obtain ⟨⟨hmem, hle⟩, -⟩ := (hAt key).mp hkey
    exact habove key hmem hle
  · have := lands_first (b := b) hAt habove
    rwa [hwin] at this
  · obtain ⟨rounds, keys, hcollect, hsorted, hkeys⟩ :=
      collect_spec hm hpfx m.toList.length h' (fun _ _ => Nat.sub_le _ _) fun k hk => by
        rw [hk] at hfirst
        exact hfirst.2.1
    refine ⟨rounds, keys, hcollect, hsorted, fun key => (hkeys key).trans (and_iff_left_of_imp ?_)⟩
    intro hkey
    have hle := (encodeKey_le_iff pfx _ key).mpr (IteratorBounds.above_iff.mp hkey.2.1)
    cases hk : (it.call .seekToFirst).wIter.key with
    | none =>
      rw [hk] at hfirst
      exact absurd hle (hfirst _ hkey.1)
    | some k =>
      rw [hk] at hfirst
      exact ⟨k, rfl, hfirst.2.2 _ hkey.1 hle⟩

/-- The condition on `seek_to_last` is exact. -/
theorem Kept.seekToLast_right_iff (h : Kept m pfx b it) (hm : m.Encoded)
    (hpfx : (0 : UInt8) ∉ pfx) :
    Right (b.window m pfx) it .seekToLast ↔ RightWhen m pfx b it .seekToLast := by
  have h' : Kept m pfx b (it.call .seekToLast) := h.call fun _ heq => by cases heq
  have hAt : ∀ key, (it.call .seekToLast).At key ↔ Last (m.keysOf pfx) key := fun key => by
    show it.seekToLast.At key ↔ _
    rw [at_seekToLast (h.pfx_eq ▸ hpfx) (h.items ▸ hm), h.items, h.pfx_eq]
  unfold Right RightWhen
  rw [h'.exact_iff hm hpfx]
  constructor
  · rintro ⟨hexact, hlands⟩
    constructor
    · rintro ⟨key, hkey⟩ key' hkey'
      obtain ⟨last, hlast⟩ := exists_last (fun _ h => h.1) hkey
      have hmax := (hAt last).mp ((hlands last).mpr hlast).2
      exact hlast.1.2.2.mono (hmax.2 key' hkey')
    · rintro hempty ⟨key, hkey⟩
      obtain ⟨last, hlast⟩ := exists_last (fun _ h => h) hkey
      refine ⟨last, hlast.1, fun hunder => hempty ⟨last, hlast.1, ?_, hunder⟩⟩
      exact hexact last ((hAt last).mpr hlast) hunder
  · rintro ⟨hnonempty, hempty⟩
    have hmem : ∀ last, Last (m.keysOf pfx) last → b.Under last → last ∈ b.window m pfx := by
      intro last hlast hunder
      by_contra hnot
      have hwin : ¬ (b.window m pfx).Nonempty := by
        rintro ⟨key, hkey⟩
        exact hnot ⟨hlast.1, hkey.2.1.mono (hlast.2 key hkey.1), hunder⟩
      obtain ⟨key, hkey, hnunder⟩ := hempty hwin ⟨last, hlast.1⟩
      exact hnunder (hunder.mono (hlast.2 key hkey))
    refine ⟨fun last hlast hunder => (hmem last ((hAt last).mp hlast) hunder).2.1, fun key => ?_⟩
    constructor
    · rintro ⟨hwin, hkey⟩
      have hlast := (hAt key).mp hkey
      exact ⟨hwin, fun key' hkey' => hlast.2 key' hkey'.1⟩
    · rintro ⟨hwin, hmax⟩
      refine ⟨hwin, (hAt key).mpr ⟨hwin.1, fun key' hkey' => ?_⟩⟩
      obtain ⟨last, hlast⟩ := exists_last (fun _ h => h) hkey'
      have hin := hmem last hlast (hnonempty ⟨key, hwin⟩ last hlast.1)
      exact (hlast.2 key' hkey').trans (hmax last hin)

/-- The condition on `lower_bound` is exact. -/
theorem Kept.lowerBound_right_iff (h : Kept m pfx b it) (hm : m.Encoded)
    (hpfx : (0 : UInt8) ∉ pfx) (dest : Str) :
    Right (b.window m pfx) it (.lowerBound dest) ↔ RightWhen m pfx b it (.lowerBound dest) := by
  have h' : Kept m pfx b (it.call (.lowerBound dest)) := h.call fun _ heq => by cases heq
  have hAt : ∀ key, (it.call (.lowerBound dest)).At key ↔
      First {key ∈ m.keysOf pfx | dest.nums ≤ key.nums} key := fun key => by
    show (it.lowerBound dest).At key ↔ _
    rw [at_lowerBound, h.items, h.pfx_eq]
  unfold Right RightWhen
  rw [h'.exact_iff hm hpfx]
  constructor
  · rintro ⟨hexact, -⟩ key hkey hle hunder
    obtain ⟨first, hfirst⟩ := exists_first (s := {key ∈ m.keysOf pfx | dest.nums ≤ key.nums})
      (fun _ h => h.1) ⟨hkey, hle⟩
    have hfle := hfirst.2 key ⟨hkey, hle⟩
    exact (hexact first ((hAt first).mpr hfirst) (hunder.mono hfle)).mono hfle
  · intro hcond
    refine ⟨fun key hkey => ?_, lands_first hAt hcond⟩
    obtain ⟨⟨hmem, hle⟩, -⟩ := (hAt key).mp hkey
    exact hcond key hmem hle

/-- The condition on `upper_bound` is exact. -/
theorem Kept.upperBound_right_iff (h : Kept m pfx b it) (hm : m.Encoded)
    (hpfx : (0 : UInt8) ∉ pfx) (after : Str) :
    Right (b.window m pfx) it (.upperBound after) ↔ RightWhen m pfx b it (.upperBound after) := by
  have hAt : ∀ key, (it.call (.upperBound after)).At key ↔
      First {key ∈ m.keysOf pfx | after.nums < key.nums} key := fun key => by
    show (it.upperBound after).At key ↔ _
    rw [at_upperBound (h.pfx_eq ▸ hpfx), h.items, h.pfx_eq]
  -- The key behind `after` is not below the new upper bound.
  have hvalid : ¬ (it.call (.upperBound after)).valid := by
    have hitems : (it.upperBound after).wIter.items = m := by
      unfold PrefixIterator.upperBound
      simp only
      split_ifs
      · rw [WholeSpaceIterator.items_next]
        exact h.items
      · exact h.items
    show ¬ (it.upperBound after).valid
    rw [PrefixIterator.valid_iff (h.pfx_eq ▸ hpfx) (hitems ▸ hm)]
    rintro ⟨key, hkey, hupper⟩
    exact absurd (hupper after rfl) ((hAt key).mp hkey).1.2.asymm
  unfold Right RightWhen
  constructor
  · rintro ⟨hexact, hlands⟩ key hkey hlt
    obtain ⟨first, hfirst⟩ := exists_first (s := {key ∈ b.window m pfx | after.nums < key.nums})
      (fun _ h => h.1.1) ⟨hkey, hlt⟩
    exact hvalid (hexact.mpr ⟨first, (hlands first).mpr hfirst⟩)
  · intro hnone
    refine ⟨iff_of_false hvalid ?_, fun key => iff_of_false ?_ fun hk => hnone key hk.1.1 hk.1.2⟩
    · rintro ⟨key, hwin, hkey⟩
      exact hnone key hwin ((hAt key).mp hkey).1.2
    · rintro ⟨hwin, hkey⟩
      exact hnone key hwin ((hAt key).mp hkey).1.2

/-- The first key is the one that is found. -/
theorem FirstOf.eq_some_iff {p : Str → Prop} {o : Option Str} (h : FirstOf m p o) (k : Str) :
    o = some k ↔ FirstOf m p (some k) := by
  constructor
  · rintro rfl
    exact h
  · intro hk
    cases o with
    | none => exact absurd hk.2.1 (h k hk.1)
    | some k' => rw [nums_injective (le_antisymm (h.2.2 k hk.1 hk.2.1) (hk.2.2 k' h.1 h.2.1))]

/-- The last key is the one that is found. -/
theorem LastOf.eq_some_iff {p : Str → Prop} {o : Option Str} (h : LastOf m p o) (k : Str) :
    o = some k ↔ LastOf m p (some k) := by
  constructor
  · rintro rfl
    exact h
  · intro hk
    cases o with
    | none => exact absurd hk.2.1 (h k hk.1)
    | some k' => rw [nums_injective (le_antisymm (hk.2.2 k' h.1 h.2.1) (h.2.2 k hk.1 hk.2.1))]

/-- The condition on `next` is exact. -/
theorem Kept.next_right_iff (h : Kept m pfx b it) (hm : m.Encoded) (hpfx : (0 : UInt8) ∉ pfx) :
    Right (b.window m pfx) it .next ↔ RightWhen m pfx b it .next := by
  have h' : Kept m pfx b (it.call .next) := h.call fun _ heq => by cases heq
  have hAt : ∀ key, (it.call .next).At key ↔ ∃ k, it.wIter.key = some k ∧
      FirstOf m (fun k' => k.nums < k'.nums) (some (encodeKey pfx key)) := by
    intro key
    rw [h'.at_iff]
    show it.wIter.next.key = _ ↔ _
    cases hk : it.wIter.key with
    | none => simp [WholeSpaceIterator.key_next_of_none hk]
    | some k =>
      have hnext := WholeSpaceIterator.firstOf_next hk
      rw [h.items] at hnext
      rw [hnext.eq_some_iff]
      simp
  have hlands : ∀ key ∈ b.window m pfx, it.At key →
      (it.call .next).Lands (b.window m pfx) (First {key' ∈ b.window m pfx | key.nums < key'.nums}) := by
    intro key hwin hkey
    refine lands_first (fun key' => ?_) fun key' _ hlt _ => hwin.2.1.mono hlt.le
    show it.next.At key' ↔ _
    rw [at_next hkey, h.items, h.pfx_eq]
  unfold Right RightWhen
  rw [h'.exact_iff hm hpfx, and_iff_left hlands]
  constructor
  · exact fun hexact k key hk hfirst => hexact key ((hAt key).mpr ⟨k, hk, hfirst⟩)
  · intro hcond key hkey
    obtain ⟨k, hk, hfirst⟩ := (hAt key).mp hkey
    exact hcond k key hk hfirst

/-- The condition on `prev` is exact. -/
theorem Kept.prev_right_iff (h : Kept m pfx b it) (hm : m.Encoded) (hpfx : (0 : UInt8) ∉ pfx) :
    Right (b.window m pfx) it .prev ↔ RightWhen m pfx b it .prev := by
  have h' : Kept m pfx b (it.call .prev) := h.call fun _ heq => by cases heq
  have hAt : ∀ key, (it.call .prev).At key ↔ ∃ k, it.wIter.key = some k ∧
      LastOf m (fun k' => k'.nums < k.nums) (some (encodeKey pfx key)) := by
    intro key
    rw [h'.at_iff]
    show it.wIter.prev.key = _ ↔ _
    cases hk : it.wIter.key with
    | none => simp [WholeSpaceIterator.key_prev_of_none hk]
    | some k =>
      have hprev := WholeSpaceIterator.lastOf_prev hk
      rw [h.items] at hprev
      rw [hprev.eq_some_iff]
      simp
  unfold Right RightWhen
  rw [h'.exact_iff hm hpfx, and_iff_left trivial]
  constructor
  · exact fun hexact k key hk hlast => hexact key ((hAt key).mpr ⟨k, hk, hlast⟩)
  · intro hcond key hkey
    obtain ⟨k, hk, hlast⟩ := (hAt key).mp hkey
    exact hcond k key hk hlast

/-- A new iterator goes through the window. -/
theorem Kept.make_exact (hm : m.Encoded) (hpfx : (0 : UInt8) ∉ pfx) :
    (PrefixIterator.make m pfx b).Exact (b.window m pfx) := by
  rw [(Kept.make m pfx b).exact_iff hm hpfx]
  intro key hkey _ lower hl
  rw [(Kept.make m pfx b).at_iff] at hkey
  obtain ⟨lower', upper⟩ := b
  obtain rfl : lower' = some lower := hl
  have hfirst := WholeSpaceIterator.firstOf_lowerBound { items := m } (encodeKey pfx [] ++ lower)
  change (WholeSpaceIterator.lowerBound { items := m } (encodeKey pfx [] ++ lower)).key = _ at hkey
  rw [hkey, encodeKey_append] at hfirst
  exact (encodeKey_le_iff pfx lower key).mp hfirst.2.1

end

/-- The condition of a run has that of each call. -/
theorem Meets.rightWhen {m : MemDB} {pfx : Str} {b : IteratorBounds} {it : PrefixIterator}
    {c : PrefixIterator.Call} (h : Meets m pfx b it c) : RightWhen m pfx b it c := by
  cases c with
  | upperBound after => exact fun key hwin => ((h key hwin.1).mpr hwin.2.2).asymm
  | _ => exact h

/-- An iterator that is reached by calls that meet the condition shows a key exactly where one is to
be shown; and the next call of any kind does what it is to do exactly when it meets the condition of
its kind. -/
theorem calls_right_iff (m : MemDB) (hm : m.Encoded) (pfx : Str) (hpfx : (0 : UInt8) ∉ pfx)
    (b : IteratorBounds) (it : PrefixIterator) (h : Reached m pfx b it) :
    it.Exact (b.window m pfx) ∧
      ∀ c, PrefixIterator.Right (b.window m pfx) it c ↔ RightWhen m pfx b it c := by
  have hright : ∀ {it}, Reached m pfx b it → ∀ c,
      PrefixIterator.Right (b.window m pfx) it c ↔ RightWhen m pfx b it c := by
    intro it h c
    have hk := h.kept
    cases c with
    | seekToFirst => exact iff_of_true (hk.seekToFirst_right hm hpfx) trivial
    | seekToLast => exact hk.seekToLast_right_iff hm hpfx
    | lowerBound dest => exact hk.lowerBound_right_iff hm hpfx dest
    | upperBound after => exact hk.upperBound_right_iff hm hpfx after
    | next => exact hk.next_right_iff hm hpfx
    | prev => exact hk.prev_right_iff hm hpfx
  refine ⟨?_, hright h⟩
  cases h with
  | make => exact Kept.make_exact hm hpfx
  | call h hc => exact ((hright h _).mpr hc.rightWhen).1

/-- A store with two keys of the prefix `P`. -/
def twoKeys : MemDB :=
  MemDB.setKey (MemDB.setKey SortedList.empty (encodeKey [80] [97]) [1]) (encodeKey [80] [99]) [2]

/-- The first seek, with bounds. -/
theorem calls_right_twoKeys :
    let b : IteratorBounds := ⟨some [97], some [99]⟩
    let it := (PrefixIterator.make twoKeys [80] b).call .seekToFirst
    it.Exact (b.window twoKeys [80]) ∧
      ∀ c, PrefixIterator.Right (b.window twoKeys [80]) it c ↔ RightWhen twoKeys [80] b it c :=
  calls_right_iff twoKeys (by unfold MemDB.Encoded; decide) [80] (by decide) _ _ (.call .make trivial)

/-- Without bounds, `upper_bound` of the first key shows nothing; the second key is to be shown. -/
theorem upperBound_shows_nothing :
    ((PrefixIterator.make twoKeys [80] {}).upperBound [97]).valid = false ∧
      ¬ PrefixIterator.Right (IteratorBounds.window {} twoKeys [80])
        (PrefixIterator.make twoKeys [80] {}) (.upperBound [97]) := by
  have hvalid : ((PrefixIterator.make twoKeys [80] {}).upperBound [97]).valid = false := by decide
  refine ⟨hvalid, fun h => ?_⟩
  have hmem : ([99] : Str) ∈ twoKeys.keysOf [80] := by
    show encodeKey [80] [99] ∈ twoKeys.keys
    decide
  have hat : ((PrefixIterator.make twoKeys [80] {}).upperBound [97]).At [99] := by
    unfold PrefixIterator.At
    decide
  have hin : ([99] : Str) ∈ IteratorBounds.window {} twoKeys [80] :=
    ⟨hmem, by simp [IteratorBounds.Above], by simp [IteratorBounds.Under]⟩
  have hshown := h.1.mpr ⟨[99], hin, hat⟩
  exact absurd (hvalid.symm.trans hshown) (by decide)

end CxxLab.Kv
