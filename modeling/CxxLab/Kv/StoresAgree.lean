import CxxLab.Kv.RocksDbStore

/-!
# The two stores agree

`MemDB` folds a merge when it applies it, RocksDB when it reads the key (`Entry.value_merge`). A
range is removed from `MemDB` as it is at that point of the transaction; the slow form of the store
on RocksDB deletes the keys that are committed, so it misses keys that the transaction itself has
written. Without such keys the stores hold the same after every transaction (`stores_agree`).
-/

namespace CxxLab.Kv

open Common

/-! ## Folding operands -/

/-- Operands can be merged in two parts. -/
theorem mergeRest_append (mop : MergeOperator) (v : Str) (xs ys : List Str) :
    mergeRest mop v (xs ++ ys) = (mergeRest mop v xs).bind fun w => mergeRest mop w ys := by
  induction xs generalizing v with
  | nil => rfl
  | cons x xs ih =>
    show ((mop.merge v x).bind fun w => mergeRest mop w (xs ++ ys)) =
      ((mop.merge v x).bind fun w => mergeRest mop w xs).bind fun w => mergeRest mop w ys
    rw [Option.bind_assoc]
    exact congrArg _ (funext fun w => ih w)

/-- The operator for a key. -/
def MergeOps.findKey (mops : MergeOps) (key : Str) : Option MergeOperator :=
  if (0 : UInt8) ∉ key then none else mops.find (key.takeWhile (· ≠ 0))

/-- One operand, on what is there or on nothing. -/
def mergeOne (mop : MergeOperator) (existing : Option Str) (operand : Str) : Option Str :=
  match existing with
  | none => some (mop.mergeNonexistent operand)
  | some old => mop.merge old operand

/-- `FullMergeV2` folds the operands from the left. -/
theorem fullMergeV2_cons (mops : MergeOps) (key : Str) (existing : Option Str) (x : Str)
    (xs : List Str) :
    fullMergeV2 mops key existing (x :: xs) =
      (mops.findKey key).bind fun mop =>
        (mergeOne mop existing x).bind fun v => mergeRest mop v xs := by
  unfold fullMergeV2 MergeOps.findKey
  split_ifs
  · cases mops.find (key.takeWhile fun x => decide (x ≠ 0)) with
    | none => rfl
    | some mop => cases existing <;> rfl
  · rfl

namespace Entry

variable {mops : MergeOps} {k : Str} {e e' : Entry}

/-- Where there are operands, they can be folded. -/
def Sound (mops : MergeOps) (k : Str) (e : Entry) : Prop :=
  e.operands ≠ [] → e.value mops k ≠ none

/-- Folding the first operands does not change what a read gives. -/
theorem Folded.value_eq (h : Folded mops k e e') : e'.value mops k = e.value mops k := by
  cases h with
  | same => rfl
  | @fold base v x xs ys hv =>
    show value mops k ⟨some v, ys⟩ = fullMergeV2 mops k base (x :: (xs ++ ys))
    rw [fullMergeV2_cons] at hv ⊢
    obtain ⟨mop, hmop, hv⟩ := Option.bind_eq_some_iff.mp hv
    obtain ⟨w, hw, hv⟩ := Option.bind_eq_some_iff.mp hv
    rw [hmop, Option.bind_some, hw, Option.bind_some, mergeRest_append, hv, Option.bind_some]
    cases ys with
    | nil => rfl
    | cons y ys =>
      show fullMergeV2 mops k (some v) (y :: ys) = _
      rw [fullMergeV2_cons, hmop]
      rfl

/-- Folding an entry leaves its value and its operands as they have to be. -/
theorem Folded.sound (h : Folded mops k e e') (he : e.Sound mops k) : e'.Sound mops k := by
  intro hne
  rw [h.value_eq]
  cases h with
  | same => exact he hne
  | fold x xs ys hv => exact he (by simp)

/-- A merge is as if it were folded at once. -/
theorem value_merge (he : e.Sound mops k) {mop : MergeOperator} (hmop : mops.findKey k = some mop)
    (v : Str) : value mops k ⟨e.base, e.operands ++ [v]⟩ = mergeOne mop (e.value mops k) v := by
  obtain ⟨base, operands⟩ := e
  cases operands with
  | nil =>
    show fullMergeV2 mops k base [v] = mergeOne mop base v
    rw [fullMergeV2_cons, hmop]
    exact Option.bind_fun_some _
  | cons x xs =>
    have hsome := he (by simp)
    show fullMergeV2 mops k base (x :: (xs ++ [v])) =
      mergeOne mop (fullMergeV2 mops k base (x :: xs)) v
    change fullMergeV2 mops k base (x :: xs) ≠ none at hsome
    obtain ⟨w, hw⟩ := Option.ne_none_iff_exists'.mp hsome
    rw [hw]
    rw [fullMergeV2_cons, hmop, Option.bind_some] at hw ⊢
    obtain ⟨w', hw', hw⟩ := Option.bind_eq_some_iff.mp hw
    rw [hw', Option.bind_some, mergeRest_append, hw]
    exact Option.bind_fun_some _

end Entry

/-! ## What is removed -/

/-- The scan deletes all keys of a range if they are fewer than the threshold, and else counts down
to zero. -/
theorem scanDelete_eq {stop : Str} {cnt : ℕ} {keys : List Str} (hcnt : 0 < cnt)
    (hkeys : ∀ k ∈ keys, k.nums < stop.nums) :
    (keys.length < cnt →
      scanDelete stop cnt keys = (keys.map BatchOp.delete, cnt - keys.length)) ∧
    (cnt ≤ keys.length → (scanDelete stop cnt keys).2 = 0) := by
  induction keys generalizing cnt with
  | nil => exact ⟨fun _ => rfl, fun h => absurd h (not_le.mpr hcnt)⟩
  | cons key keys ih =>
    have hkey := hkeys key List.mem_cons_self
    have hrest : ∀ k ∈ keys, k.nums < stop.nums := fun k hk => hkeys k (List.mem_cons_of_mem _ hk)
    unfold scanDelete
    rw [if_pos hkey]
    split_ifs with hone
    · refine ⟨fun h => ?_, fun _ => rfl⟩
      rw [List.length_cons] at h
      omega
    · obtain ⟨hless, hmore⟩ := ih (Nat.pos_of_ne_zero hone) hrest
      constructor
      · intro h
        rw [List.length_cons] at h
        rw [hless (by omega), List.length_cons, Nat.sub_sub, Nat.add_comm 1]
        rfl
      · intro h
        rw [List.length_cons] at h
        exact hmore (by omega)

/-- Deletions empty the entries of their keys and leave the others. -/
theorem foldl_delete (k : Str) (keys : List Str) (e : Entry) :
    (keys.map BatchOp.delete).foldl (Entry.apply k) e = if k ∈ keys then {} else e := by
  induction keys generalizing e with
  | nil => rfl
  | cons key keys ih =>
    rw [List.map_cons, List.foldl_cons, ih]
    by_cases hk : k = key
    · simp [Entry.apply, hk]
    · simp [Entry.apply, hk]

namespace RocksDB

variable {σ : Type*} {db : RocksDB σ} {mops : MergeOps}

/-- A range removal takes the keys of the range: all of them in its fast form, in its slow form
those that are committed. -/
theorem foldl_rmRange (hdb : db.Lawful mops) (s : σ) (threshold : ℕ) (lo hi : Str)
    (batch : List BatchOp) (k : Str) (e : Entry) :
    (db.rmRange s threshold lo hi batch).foldl (Entry.apply k) e =
      if InRange lo hi k ∧ (threshold = 0 ∨ threshold ≤ (db.scan s lo hi).length ∨
        db.get mops s k ≠ none) then {} else batch.foldl (Entry.apply k) e := by
  have hkeys : ∀ k ∈ db.scan s lo hi, k.nums < hi.nums :=
    fun k hk => ((hdb.mem_scan s lo hi k).mp hk).1.2
  have hfast : ∀ e, (batch ++ [BatchOp.deleteRange lo hi]).foldl (Entry.apply k) e =
      if InRange lo hi k then {} else batch.foldl (Entry.apply k) e := fun e => by
    rw [List.foldl_append]
    rfl
  unfold rmRange
  by_cases h0 : threshold = 0
  · rw [if_pos h0, hfast]
    simp [h0]
  · obtain ⟨hless, hmore⟩ := scanDelete_eq (Nat.pos_of_ne_zero h0) hkeys
    rw [if_neg h0]
    rcases lt_or_ge (db.scan s lo hi).length threshold with hlt | hge
    · rw [hless hlt]
      dsimp only
      rw [if_neg (Nat.sub_ne_zero_of_lt hlt), List.foldl_append, foldl_delete]
      simp only [hdb.mem_scan, h0, not_le.mpr hlt, false_or]
    · dsimp only
      rw [if_pos (hmore hge), hfast]
      simp only [hge, true_or, or_true, and_true]

end RocksDB

/-! ## Operations of one transaction -/

namespace Op

/-- The range that a removal takes. -/
def range : Op → Option (Str × Str)
  | .rmkeysByPrefix pfx => some (encodeKey pfx [], endOfKeys pfx)
  | .rmRangeKeys pfx start stop => some (encodeKey pfx start, encodeKey pfx stop)
  | _ => none

/-- The key that is written, with what is set or merged. -/
def writes : Op → Option (Str × Str)
  | .set pfx key bl => some (encodeKey pfx key, bl)
  | .merge pfx key value => some (encodeKey pfx key, value)
  | _ => none

/-- The operation removes the key. -/
def Removes (op : Op) (k : Str) : Prop :=
  (∃ pfx key, op = .rmkey pfx key ∧ k = encodeKey pfx key) ∨
    ∃ lo hi, op.range = some (lo, hi) ∧ InRange lo hi k

end Op

/-- The operations write the key and do not remove it afterwards. -/
def Written (ops : List Op) (k : Str) : Prop :=
  ∃ a op b, ops = a ++ op :: b ∧ (∃ v, op.writes = some (k, v)) ∧ ∀ op' ∈ b, ¬ op'.Removes k

/-- What is merged on a key has the length of all that is written to it. -/
def EqualLengths (ops : List Op) : Prop :=
  ∀ pfx key v op v', Op.merge pfx key v ∈ ops → op ∈ ops →
    op.writes = some (encodeKey pfx key, v') → v'.length = v.length

namespace RocksDB

variable {σ : Type*} (db : RocksDB σ) (mops : MergeOps)

/-- When a range removal of the transaction takes its slow form, the keys of its range that the
transaction has written by then are committed; and the operator for a merged prefix is found also by
the part before its first zero byte. -/
structure Met (threshold : ℕ) (s : σ) (ops : List Op) : Prop where
  removals : ∀ before op after lo hi, ops = before ++ op :: after → op.range = some (lo, hi) →
    threshold ≠ 0 → (db.scan s lo hi).length < threshold →
    ∀ k, InRange lo hi k → Written before k → db.get mops s k ≠ none
  merges : ∀ pfx key v, Op.merge pfx key v ∈ ops → mops.find (pfx.takeWhile (· ≠ 0)) ≠ none

end RocksDB

/-- An operation that writes a key makes it written. -/
theorem Written.snoc_write {before : List Op} {op : Op} {k v : Str}
    (h : op.writes = some (k, v)) : Written (before ++ [op]) k :=
  ⟨before, op, [], rfl, ⟨v, h⟩, fun _ h => absurd h List.not_mem_nil⟩

/-- A written key stays so unless the operation removes it. -/
theorem Written.snoc {before : List Op} {op : Op} {k : Str} (h : Written before k)
    (hop : ¬ op.Removes k) : Written (before ++ [op]) k := by
  obtain ⟨a, w, b, rfl, hw, hb⟩ := h
  refine ⟨a, w, b ++ [op], by simp, hw, fun op' hop' => ?_⟩
  rcases List.mem_append.mp hop' with h | h
  · exact hb op' h
  · rwa [List.mem_singleton.mp h]

/-- The operator of a key is the one of its prefix, up to a zero byte in it. -/
theorem findKey_encodeKey (mops : MergeOps) (pfx key : Str) :
    mops.findKey (encodeKey pfx key) = mops.find (pfx.takeWhile (· ≠ 0)) := by
  unfold MergeOps.findKey encodeKey
  rw [if_neg (by simp), List.takeWhile_append]
  split_ifs with h
  · have hall := (List.takeWhile_prefix _).eq_of_length h
    rw [List.takeWhile_cons_of_neg (by simp), List.append_nil, hall]
  · rfl

/-- While a transaction is built on what is committed in `s`: `m` is the map of `MemDB` after the
operations `before`, `batch` the batch for them, and `all` are the operations that there ever are. -/
structure Building {σ : Type*} (db : RocksDB σ) (mops : MergeOps) (all : List Op) (s : σ) (m : MemDB)
    (before : List Op) (batch : List BatchOp) : Prop where
  agree : ∀ k, (batch.foldl (Entry.apply k) (db.entry s k)).value mops k = SortedMap.lookup m k
  sound : ∀ k, (batch.foldl (Entry.apply k) (db.entry s k)).Sound mops k
  lengths : ∀ k v, SortedMap.lookup m k = some v → ∀ pfx key v', Op.merge pfx key v' ∈ all →
    encodeKey pfx key = k → v.length = v'.length
  origin : ∀ k, SortedMap.lookup m k ≠ none → db.get mops s k ≠ none ∨ Written before k

namespace Building

variable {σ : Type*} {db : RocksDB σ} {mops : MergeOps} {all : List Op} {s : σ} {m m' : MemDB}
  {before : List Op} {batch batch' : List BatchOp}

/-- The next operation makes of each key what `f` says, in the map and in the batch. -/
theorem next (h : Building db mops all s m before batch) {op : Op}
    (hkey : ∀ k,
      (batch'.foldl (Entry.apply k) (db.entry s k)).value mops k = SortedMap.lookup m' k ∧
      (batch'.foldl (Entry.apply k) (db.entry s k)).Sound mops k)
    (hlookup : ∀ k v, SortedMap.lookup m' k = some v →
      (SortedMap.lookup m k = some v ∧ ¬ op.Removes k) ∨
        ((∃ w, op.writes = some (k, w)) ∧ ∀ pfx key v', Op.merge pfx key v' ∈ all →
          encodeKey pfx key = k → v.length = v'.length)) :
    Building db mops all s m' (before ++ [op]) batch' where
  agree k := (hkey k).1
  sound k := (hkey k).2
  lengths k v hv := by
    rcases hlookup k v hv with ⟨hold, -⟩ | ⟨-, hnew⟩
    · exact h.lengths k v hold
    · exact hnew
  origin k hk := by
    obtain ⟨v, hv⟩ := Option.ne_none_iff_exists'.mp hk
    rcases hlookup k v hv with ⟨hold, hrm⟩ | ⟨⟨w, hw⟩, -⟩
    · exact (h.origin k (by rw [hold]; exact Option.some_ne_none v)).imp_right fun hwr => hwr.snoc hrm
    · exact .inr (Written.snoc_write hw)

/-- A range removal. -/
theorem rmRange (hdb : db.Lawful mops) (h : Building db mops all s m before batch) {op : Op}
    {lo hi : Str} (hrange : op.range = some (lo, hi)) (hrm : ∀ pfx key, op ≠ .rmkey pfx key)
    {threshold : ℕ}
    (hmet : threshold ≠ 0 → (db.scan s lo hi).length < threshold →
      ∀ k, InRange lo hi k → Written before k → db.get mops s k ≠ none)
    (hm' : ∀ k, SortedMap.lookup m' k =
      if InRange lo hi k then none else SortedMap.lookup m k) :
    Building db mops all s m' (before ++ [op]) (db.rmRange s threshold lo hi batch) := by
  refine h.next (fun k => ?_) fun k v hv => .inl ?_
  · rw [RocksDB.foldl_rmRange hdb, hm']
    by_cases hin : InRange lo hi k
    · by_cases hgone : threshold = 0 ∨ threshold ≤ (db.scan s lo hi).length ∨ db.get mops s k ≠ none
      · rw [if_pos hin, if_pos ⟨hin, hgone⟩]
        exact ⟨rfl, fun hne => absurd rfl hne⟩
      · -- The slow form leaves the key, which is not there.
        rw [if_pos hin, if_neg fun hc => hgone hc.2, h.agree]
        push Not at hgone
        obtain ⟨h0, hlt, hget⟩ := hgone
        refine ⟨?_, h.sound k⟩
        by_contra hne
        rcases h.origin k hne with hc | hw
        · exact hc hget
        · exact hmet h0 hlt k hin hw hget
    · rw [if_neg hin, if_neg fun hc => hin hc.1]
      exact ⟨h.agree k, h.sound k⟩
  · rw [hm'] at hv
    split_ifs at hv with hin
    refine ⟨hv, ?_⟩
    rintro (⟨pfx, key, hop, -⟩ | ⟨lo', hi', hop, hin'⟩)
    · exact hrm pfx key hop
    · rw [hrange] at hop
      cases hop
      exact hin hin'

/-- `xor` keeps the length, and fails for different lengths only. -/
theorem length_mergeOne {existing : Option Str} (operand : Str)
    (hlen : ∀ old, existing = some old → old.length = operand.length) :
    ∃ v, mergeOne xorMergeOperator existing operand = some v ∧ v.length = operand.length := by
  cases existing with
  | none => exact ⟨operand, rfl, rfl⟩
  | some old =>
    have hold := hlen old rfl
    refine ⟨List.zipWith (· ^^^ ·) old operand, if_pos hold, ?_⟩
    rw [List.length_zipWith, hold, Nat.min_self]

/-- `merge` writes what the operator makes of the value and the operand. -/
theorem merge_eq {mop : MergeOperator} {pfx : Str} (hf : mops.find pfx = some mop) (m : MemDB)
    (fullKey bl : Str) : m.merge mops pfx fullKey bl =
      (mergeOne mop (SortedMap.lookup m fullKey) bl).map fun new => (0, m.set (fullKey, new)) := by
  unfold MemDB.merge
  rw [hf]
  cases SortedMap.lookup m fullKey <;> rfl

/-- Each operation does the same to the map and to the batch. -/
theorem step (hdb : db.Lawful mops) (hxor : ∀ p ∈ mops, p.2 = xorMergeOperator)
    (h : Building db mops all s m before batch) {op : Op} (hop : op ∈ all)
    (hlen : EqualLengths all) {threshold : ℕ}
    (hmet : ∀ lo hi, op.range = some (lo, hi) → threshold ≠ 0 →
      (db.scan s lo hi).length < threshold →
      ∀ k, InRange lo hi k → Written before k → db.get mops s k ≠ none)
    (hmerge : ∀ pfx key v, op = .merge pfx key v →
      mops.find pfx ≠ none ∧ mops.find (pfx.takeWhile (· ≠ 0)) ≠ none) :
    ∃ m', m.apply mops op = some (0, m') ∧
      Building db mops all s m' (before ++ [op]) (db.addOp s threshold batch op) := by
  -- The merge operator of every prefix is the one that xors.
  have hfind : ∀ pfx mop, mops.find pfx = some mop → mop = xorMergeOperator := by
    intro pfx mop hf
    obtain ⟨p, hp, rfl⟩ := Option.map_eq_some_iff.mp hf
    exact hxor p (List.mem_of_find?_eq_some hp)
  -- One case for each operation: what the map has now, the batch gives.
  cases op with
  | set pfx key bl =>
    refine ⟨_, rfl, h.next (fun k => ?_) fun k v hv => ?_⟩
    · rw [RocksDB.addOp, List.foldl_append, MemDB.setKey, SortedMap.lookup_set nums_injective]
      show Entry.value mops k (if k = encodeKey pfx key then _ else _) = _ ∧
        Entry.Sound mops k (if k = encodeKey pfx key then _ else _)
      split_ifs
      · exact ⟨rfl, fun hne => absurd rfl hne⟩
      · exact ⟨h.agree k, h.sound k⟩
    · rw [MemDB.setKey, SortedMap.lookup_set nums_injective] at hv
      split_ifs at hv with hk
      · obtain rfl := Option.some.inj hv
        subst hk
        exact .inr ⟨⟨bl, rfl⟩, fun pfx' key' v' hm heq => hlen pfx' key' v' _ bl hm hop (heq ▸ rfl)⟩
      · refine .inl ⟨hv, ?_⟩
        rintro (⟨pfx, key, hop', -⟩ | ⟨lo, hi, hop', -⟩) <;> cases hop'
  | rmkey pfx key =>
    refine ⟨_, rfl, h.next (fun k => ?_) fun k v hv => ?_⟩
    · rw [RocksDB.addOp, List.foldl_append, MemDB.rmkey, SortedMap.lookup_remove nums_injective]
      show Entry.value mops k (if k = encodeKey pfx key then _ else _) = _ ∧
        Entry.Sound mops k (if k = encodeKey pfx key then _ else _)
      split_ifs
      · exact ⟨rfl, fun hne => absurd rfl hne⟩
      · exact ⟨h.agree k, h.sound k⟩
    · rw [MemDB.rmkey, SortedMap.lookup_remove nums_injective] at hv
      split_ifs at hv with hk
      refine .inl ⟨hv, ?_⟩
      rintro (⟨pfx', key', hop', hk'⟩ | ⟨lo, hi, hop', -⟩)
      · cases hop'
        exact hk hk'
      · cases hop'
  | rmkeysByPrefix pfx =>
    exact ⟨_, rfl, h.rmRange hdb rfl (fun _ _ h => by cases h) (hmet _ _ rfl)
      fun k => MemDB.lookup_rmkeysByPrefix pfx k⟩
  | rmRangeKeys pfx start stop =>
    exact ⟨_, rfl, h.rmRange hdb rfl (fun _ _ h => by cases h) (hmet _ _ rfl)
      fun k => MemDB.lookup_rmRangeKeys pfx start stop k⟩
  | merge pfx key value =>
    obtain ⟨hreg, hreg'⟩ := hmerge pfx key value rfl
    obtain ⟨mop, hmop⟩ := Option.ne_none_iff_exists'.mp hreg
    obtain ⟨mop', hmop'⟩ := Option.ne_none_iff_exists'.mp hreg'
    obtain rfl := hfind _ _ hmop
    obtain rfl := hfind _ _ hmop'
    rw [← findKey_encodeKey mops pfx key] at hmop'
    obtain ⟨v, hv, hlenv⟩ := length_mergeOne value
      fun old hold => h.lengths (encodeKey pfx key) old hold pfx key value hop rfl
    have happly : m.apply mops (.merge pfx key value) = some (0, m.set (encodeKey pfx key, v)) := by
      show m.merge mops pfx (encodeKey pfx key) value = _
      rw [merge_eq hmop, hv]
      rfl
    refine ⟨_, happly, h.next (fun k => ?_) fun k w hw => ?_⟩
    · rw [RocksDB.addOp, List.foldl_append, SortedMap.lookup_set nums_injective]
      show Entry.value mops k (if k = encodeKey pfx key then _ else _) = _ ∧
        Entry.Sound mops k (if k = encodeKey pfx key then _ else _)
      split_ifs with hk
      · -- What RocksDB folds later is what the map has folded now.
        subst hk
        have hvalue := Entry.value_merge (h.sound _) hmop' value
        rw [h.agree, hv] at hvalue
        exact ⟨hvalue, fun _ => by rw [hvalue]; exact Option.some_ne_none v⟩
      · exact ⟨h.agree k, h.sound k⟩
    · rw [SortedMap.lookup_set nums_injective] at hw
      split_ifs at hw with hk
      · obtain rfl := Option.some.inj hw
        subst hk
        refine .inr ⟨⟨value, rfl⟩, fun pfx' key' v' hm heq => hlenv.trans ?_⟩
        exact hlen pfx' key' v' _ value hm hop (heq ▸ rfl)
      · refine .inl ⟨hw, ?_⟩
        rintro (⟨pfx, key, hop', -⟩ | ⟨lo, hi, hop', -⟩) <;> cases hop'

end Building

/-! ## Transactions and runs -/

/-- Between two transactions the stores hold the same. -/
structure Agreeing {σ : Type*} (db : RocksDB σ) (mops : MergeOps) (all : List Op) (s : σ)
    (m : MemDB) : Prop where
  agree : ∀ k, SortedMap.lookup m k = db.get mops s k
  sound : ∀ k, (db.entry s k).Sound mops k
  lengths : ∀ k v, SortedMap.lookup m k = some v → ∀ pfx key v', Op.merge pfx key v' ∈ all →
    encodeKey pfx key = k → v.length = v'.length

section

variable {σ : Type*} {db : RocksDB σ} {mops : MergeOps} {all : List Op} {s : σ} {m : MemDB}
  {threshold : ℕ} (hdb : db.Lawful mops) (hxor : ∀ p ∈ mops, p.2 = xorMergeOperator)
  (hlen : EqualLengths all)

include hdb hxor hlen

/-- From any point of a transaction on both stores come to its end, and agree there. -/
theorem Building.rest (ops : List Op) {before rest : List Op} {batch : List BatchOp}
    (hops : ops = before ++ rest) (hall : ∀ op ∈ ops, op ∈ all)
    (hreg : ∀ pfx key v, Op.merge pfx key v ∈ ops → mops.find pfx ≠ none)
    (hmet : db.Met mops threshold s ops) (h : Building db mops all s m before batch) :
    ∃ m', m.submitTransaction mops rest = some (0, m') ∧
      Building db mops all s m' ops (rest.foldl (db.addOp s threshold) batch) := by
  induction rest generalizing before m batch with
  | nil =>
    rw [List.append_nil] at hops
    subst hops
    exact ⟨m, rfl, h⟩
  | cons op rest ih =>
    have hop : op ∈ ops := hops ▸ List.mem_append_right _ List.mem_cons_self
    obtain ⟨m₁, happly, h₁⟩ := h.step hdb hxor (hall op hop) hlen
      (fun lo hi => hmet.removals before op rest lo hi hops)
      (fun pfx key v heq => ⟨hreg pfx key v (heq ▸ hop), hmet.merges pfx key v (heq ▸ hop)⟩)
    obtain ⟨m', hsub, h'⟩ := ih (by rw [hops, List.append_assoc]; rfl) h₁
    refine ⟨m', ?_, h'⟩
    unfold MemDB.submitTransaction
    rw [happly]
    exact hsub

/-- A transaction that meets the condition leaves the stores with the same again. -/
theorem Agreeing.submit (h : Agreeing db mops all s m) {ops : List Op}
    (hall : ∀ op ∈ ops, op ∈ all)
    (hreg : ∀ pfx key v, Op.merge pfx key v ∈ ops → mops.find pfx ≠ none)
    (hmet : db.Met mops threshold s ops) :
    ∃ m', m.submitTransaction mops ops = some (0, m') ∧
      Agreeing db mops all (db.submitTransaction threshold s ops) m' := by
  have hstart : Building db mops all s m [] [] :=
    ⟨fun k => (h.agree k).symm, h.sound, h.lengths, fun k hk => .inl (h.agree k ▸ hk)⟩
  obtain ⟨m', hsub, hb⟩ := hstart.rest hdb hxor hlen ops rfl hall hreg hmet
  refine ⟨m', hsub, fun k => ?_, fun k => ?_, hb.lengths⟩
  · exact ((hdb.write _ _ _).value_eq.trans (hb.agree k)).symm
  · exact (hdb.write _ _ _).sound (hb.sound k)

/-- Stores that agree do so after every run whose transactions meet the condition. -/
theorem Agreeing.run (threshold : ℕ) (h : Agreeing db mops all s m) (txns : List (List Op))
    (hall : ∀ ops ∈ txns, ∀ op ∈ ops, op ∈ all)
    (hreg : ∀ ops ∈ txns, ∀ pfx key v, Op.merge pfx key v ∈ ops → mops.find pfx ≠ none)
    (hmet : ∀ n ops, txns[n]? = some ops →
      db.Met mops threshold (db.run threshold s (txns.take n)) ops) :
    ∃ m', m.run mops txns = some m' ∧ Agreeing db mops all (db.run threshold s txns) m' := by
  induction txns generalizing s m with
  | nil => exact ⟨m, rfl, h⟩
  | cons ops txns ih =>
    obtain ⟨m₁, hsub, h₁⟩ := h.submit hdb hxor hlen (hall ops List.mem_cons_self)
      (hreg ops List.mem_cons_self) (hmet 0 ops rfl)
    obtain ⟨m', hrun, h'⟩ := ih h₁ (fun o ho => hall o (List.mem_cons_of_mem _ ho))
      (fun o ho => hreg o (List.mem_cons_of_mem _ ho)) fun n o ho => hmet (n + 1) o ho
    refine ⟨m', ?_, h'⟩
    unfold MemDB.run
    rw [hsub]
    exact hrun

end

/-- Both stores begin empty. Where each transaction meets the condition, they hold the same keys and
values after each of them. -/
theorem stores_agree {σ : Type*} (db : RocksDB σ) (mops : MergeOps) (hdb : db.Lawful mops)
    (hxor : ∀ p ∈ mops, p.2 = xorMergeOperator) (threshold : ℕ) (s₀ : σ)
    (hempty : ∀ k, db.entry s₀ k = {}) (txns : List (List Op))
    (hreg : ∀ ops ∈ txns, ∀ pfx key v, Op.merge pfx key v ∈ ops → mops.find pfx ≠ none)
    (hlen : EqualLengths txns.flatten)
    (hmet : ∀ n ops, txns[n]? = some ops →
      db.Met mops threshold (db.run threshold s₀ (txns.take n)) ops) (n : ℕ) :
    ∃ m, MemDB.run mops SortedList.empty (txns.take n) = some m ∧
      ∀ k, SortedMap.lookup m k = db.get mops (db.run threshold s₀ (txns.take n)) k := by
  have hstart : Agreeing db mops txns.flatten s₀ SortedList.empty := by
    refine ⟨fun k => ?_, fun k hne => ?_, fun k v hv => by cases hv⟩
    · rw [RocksDB.get, hempty]
      rfl
    · rw [hempty] at hne
      exact absurd rfl hne
  have hsub : ∀ ops ∈ txns.take n, ops ∈ txns := fun ops h => List.mem_of_mem_take h
  obtain ⟨m, hrun, h⟩ := hstart.run hdb hxor hlen threshold (txns.take n)
    (fun ops hops op hop => List.mem_flatten.mpr ⟨ops, hsub ops hops, hop⟩)
    (fun ops hops => hreg ops (hsub ops hops)) fun i ops hi => by
      rw [List.getElem?_take] at hi
      split_ifs at hi with hlt
      rw [List.take_take, Nat.min_eq_left hlt.le]
      exact hmet i ops hi
  exact ⟨m, hrun, h.agree⟩

/-! ## A store that does what RocksDB is to do -/

namespace MapDb

/-- The entries of the keys that have been written. -/
abbrev State := SortedMap Str.nums Entry

/-- The entry of a key. -/
def entry (s : State) (k : Str) : Entry := (SortedMap.lookup s k).getD {}

/-- One entry of a batch. -/
def applyOp (s : State) : BatchOp → State
  | .put key value => s.set (key, ⟨some value, []⟩)
  | .delete key => s.remove key.nums
  | .deleteRange start stop => SortedMap.keep (fun k => ¬ InRange start stop k) s
  | .merge key value => s.set (key, (entry s key).apply key (.merge key value))

/-- A map that never folds operands. -/
def db (mops : MergeOps) : RocksDB State where
  write s batch := batch.foldl applyOp s
  entry := entry
  scan s lo hi :=
    (s.toList.filter fun a => InRange lo hi a.1 ∧ a.2.value mops a.1 ≠ none).map Prod.fst

/-- An operation of a batch changes the entry of a key as it changes the key. -/
theorem entry_applyOp (s : State) (op : BatchOp) (k : Str) :
    entry (applyOp s op) k = (entry s k).apply k op := by
  unfold entry Entry.apply
  cases op with
  | put key value =>
    rw [applyOp, SortedMap.lookup_set nums_injective]
    by_cases h : k = key <;> simp [h]
  | delete key =>
    rw [applyOp, SortedMap.lookup_remove nums_injective]
    by_cases h : k = key <;> simp [h]
  | deleteRange start stop =>
    rw [applyOp, SortedMap.lookup_keep nums_injective]
    by_cases h : InRange start stop k <;> simp [h]
  | merge key value =>
    rw [applyOp, SortedMap.lookup_set nums_injective]
    by_cases h : k = key <;> simp [h, entry, Entry.apply]

/-- The store of entries behaves as RocksDB is taken to. -/
theorem lawful (mops : MergeOps) : (db mops).Lawful mops where
  write s batch k := by
    have h : ∀ s, batch.foldl (Entry.apply k) (entry s k) = entry (batch.foldl applyOp s) k := by
      induction batch with
      | nil => exact fun _ => rfl
      | cons op batch ih =>
        intro s
        rw [List.foldl_cons, List.foldl_cons, ← entry_applyOp, ih]
    show Entry.Folded mops k (batch.foldl (Entry.apply k) (entry s k))
      (entry (batch.foldl applyOp s) k)
    rw [h]
    exact .same _
  scan_sorted s lo hi := by
    show List.Pairwise _ (List.map _ _)
    rw [List.pairwise_map]
    exact s.sorted.filter _
  mem_scan s lo hi k := by
    have hget : (db mops).get mops s k = ((SortedMap.lookup s k).getD {}).value mops k := rfl
    rw [hget]
    show k ∈ List.map _ _ ↔ _
    simp only [List.mem_map, List.mem_filter, decide_eq_true_eq]
    constructor
    · rintro ⟨⟨k', e⟩, ⟨hin, hr, hv⟩, rfl⟩
      rw [(SortedMap.lookup_eq_some_iff nums_injective).mpr hin]
      exact ⟨hr, hv⟩
    · rintro ⟨hr, hv⟩
      cases hl : SortedMap.lookup s k with
      | none =>
        rw [hl] at hv
        exact absurd rfl hv
      | some e =>
        rw [hl] at hv
        exact ⟨(k, e), ⟨(SortedMap.lookup_eq_some_iff nums_injective).mp hl, hr, hv⟩, rfl⟩

end MapDb

/-- A transaction sets a key and removes its prefix. With a threshold above the number of committed
keys, the key stays in the store on RocksDB. -/
theorem stores_differ :
    let db := MapDb.db []
    let txns := [[Op.set [80] [97] [1], .rmkeysByPrefix [80]]]
    db.Lawful [] ∧ (∀ k, db.entry SortedList.empty k = {}) ∧
      ¬ ∃ m, MemDB.run [] SortedList.empty txns = some m ∧
        ∀ k, SortedMap.lookup m k = db.get [] (db.run 10 SortedList.empty txns) k := by
  refine ⟨MapDb.lawful [], fun _ => rfl, ?_⟩
  rintro ⟨m, hrun, hagree⟩
  obtain rfl := Option.some.inj hrun
  exact absurd (hagree (encodeKey [80] [97])) (by decide)

/-- A transaction with a set and a merge, and one that removes the prefix. -/
theorem stores_agree_example :
    let mops := [([80], xorMergeOperator)]
    let db := MapDb.db mops
    let txns := [[Op.set [80] [97] [1], .merge [80] [97] [3]], [.rmkeysByPrefix [80]]]
    ∃ m, MemDB.run mops SortedList.empty (txns.take 2) = some m ∧
      ∀ k, SortedMap.lookup m k = db.get mops (db.run 10 SortedList.empty (txns.take 2)) k := by
  refine stores_agree _ _ (MapDb.lawful _) (by simp) 10 _ (fun _ => rfl) _ ?_ ?_ ?_ 2
  · intro ops hops pfx key v hm
    rcases List.mem_pair.mp hops with rfl | rfl
    · obtain ⟨rfl, -⟩ : pfx = [80] ∧ key = [97] ∧ v = [3] := by simpa using hm
      decide
    · simp at hm
  · intro pfx key v op v' hm hop hw
    obtain ⟨rfl, rfl, rfl⟩ : pfx = [80] ∧ key = [97] ∧ v = [3] := by simpa using hm
    simp only [List.flatten_cons, List.flatten_nil, List.append_nil, List.cons_append,
      List.nil_append, List.mem_cons, List.not_mem_nil, or_false] at hop
    rcases hop with rfl | rfl | rfl
    · obtain rfl : [1] = v' := (Prod.mk.inj (Option.some.inj hw)).2
      rfl
    · obtain rfl : [3] = v' := (Prod.mk.inj (Option.some.inj hw)).2
      rfl
    · cases hw
  · intro n ops hn
    match n, hn with
    | 0, hn =>
      obtain rfl := Option.some.inj hn
      refine ⟨fun before op after lo hi hops hr => ?_, fun pfx key v hm => ?_⟩
      · have hop : op ∈ [Op.set [80] [97] [1], .merge [80] [97] [3]] :=
          hops ▸ List.mem_append_right _ List.mem_cons_self
        rcases List.mem_pair.mp hop with rfl | rfl <;> cases hr
      · obtain ⟨rfl, -⟩ : pfx = [80] ∧ key = [97] ∧ v = [3] := by simpa using hm
        decide
    | 1, hn =>
      obtain rfl := Option.some.inj hn
      refine ⟨fun before op after lo hi hops _ _ _ k _ hw => ?_, fun pfx key v hm => ?_⟩
      · -- Nothing comes before the removal.
        obtain rfl : before = [] := by
          have := congrArg List.length hops
          simp only [List.length_append, List.length_cons, List.length_nil] at this
          exact List.eq_nil_of_length_eq_zero (by omega)
        obtain ⟨a, w, b, heq, -⟩ := hw
        simp at heq
      · simp at hm

end CxxLab.Kv
