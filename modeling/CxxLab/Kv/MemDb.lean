import CxxLab.Common.Object
import CxxLab.Lib.SortedMap

/-!
# Key-value stores, and the one in memory

The operations of a transaction and the merge operators of `kv/key_value_db.h` and `kv/merge_op`,
and `MemDB` of `kv/mem/mem_db.cc`, which applies a transaction to a `std::map` when it is submitted.

The statistics, and `seqno_`, which tells iterators that the map has changed, are left out.
-/

namespace CxxLab.Kv

open Common

/-! ## Keys and operations -/

/-- `encode_key`. -/
def encodeKey (pfx key : Str) : Str := pfx ++ 0 :: key

/-- `prefix + '\x01'`, where the keys of a prefix end. -/
def endOfKeys (pfx : Str) : Str := pfx ++ [1]

/-- What is called on a transaction. -/
inductive Op where
  | set (pfx key bl : Str)
  | rmkey (pfx key : Str)
  | rmkeysByPrefix (pfx : Str)
  | rmRangeKeys (pfx start stop : Str)
  | merge (pfx key value : Str)
  deriving DecidableEq

/-! ## Merge operators -/

/-- `MergeOperator`; `merge` is `none` where an assertion fails. -/
structure MergeOperator where
  mergeNonexistent : Str → Str
  merge : Str → Str → Option Str

/-- `XorMergeOperator`. -/
def xorMergeOperator : MergeOperator where
  mergeNonexistent rdata := rdata
  merge ldata rdata :=
    if ldata.length = rdata.length then some (List.zipWith (· ^^^ ·) ldata rdata) else none

/-- `merge_ops_`. -/
abbrev MergeOps := List (Str × MergeOperator)

/-- The operator that is registered for a prefix. -/
def MergeOps.find (mops : MergeOps) (pfx : Str) : Option MergeOperator :=
  (mops.find? fun p => p.1 = pfx).map Prod.snd

/-! ## `MemDB` -/

/-- `db_`. -/
abbrev MemDB := SortedMap Str.nums Str

namespace MemDB

/-- `_set_key`. -/
def setKey (m : MemDB) (fullKey bl : Str) : MemDB := m.set (fullKey, bl)

/-- `_rmkey`. -/
def rmkey (m : MemDB) (fullKey : Str) : MemDB := m.remove fullKey.nums

/-- `_rmkeys_by_prefix`. -/
def rmkeysByPrefix (m : MemDB) (pfx : Str) : MemDB :=
  let start := encodeKey pfx []
  m.eraseWhile start.nums fun k => k.take start.length = start

/-- `_rm_range_keys`. -/
def rmRangeKeys (m : MemDB) (pfx start stop : Str) : MemDB :=
  m.eraseWhile (encodeKey pfx start).nums fun k => k.nums < (encodeKey pfx stop).nums

/-- `_merge`: the result and the map, or `none` where an assertion fails. -/
def merge (mops : MergeOps) (m : MemDB) (pfx fullKey bl : Str) : Option (ℤ × MemDB) :=
  match mops.find pfx with
  | none => some (-22, m)
  | some mop =>
    match m.lookup fullKey with
    | none => some (0, m.set (fullKey, mop.mergeNonexistent bl))
    | some old => (mop.merge old bl).map fun new => (0, m.set (fullKey, new))

/-- What `submit_transaction` does for one operation. -/
def apply (mops : MergeOps) (m : MemDB) : Op → Option (ℤ × MemDB)
  | .set pfx key bl => some (0, m.setKey (encodeKey pfx key) bl)
  | .rmkey pfx key => some (0, m.rmkey (encodeKey pfx key))
  | .rmkeysByPrefix pfx => some (0, m.rmkeysByPrefix pfx)
  | .rmRangeKeys pfx start stop => some (0, m.rmRangeKeys pfx start stop)
  | .merge pfx key value => m.merge mops pfx (encodeKey pfx key) value

/-- `submit_transaction`. An operation that fails ends it; what was done before stays. -/
def submitTransaction (mops : MergeOps) (m : MemDB) : List Op → Option (ℤ × MemDB)
  | [] => some (0, m)
  | op :: ops =>
    match m.apply mops op with
    | none => none
    | some (r, m') => if r < 0 then some (r, m') else submitTransaction mops m' ops

/-- One transaction after the other. -/
def run (mops : MergeOps) (m : MemDB) : List (List Op) → Option MemDB
  | [] => some m
  | t :: ts =>
    match m.submitTransaction mops t with
    | none => none
    | some (_, m') => run mops m' ts

end MemDB

/-! ## What the operations do to a key -/

/-- A string is known by the numbers of its bytes. -/
theorem nums_injective : Function.Injective Str.nums := fun _ _ h => Str.nums_inj h

/-- The keys from `a` and a zero on, and before `a` and a one, are those that begin with `a` and a
zero. -/
theorem between_iff (a y : List ℕ) : (a ++ [0] ≤ y ∧ y < a ++ [1]) ↔ a ++ [0] <+: y := by
  rw [← not_lt]
  induction a generalizing y with
  | nil =>
    cases y with
    | nil => simp
    | cons c y =>
      simp only [List.nil_append, List.cons_lt_cons_iff, List.not_lt_nil, List.cons_prefix_cons,
        List.nil_prefix, and_true, and_false, or_false]
      omega
  | cons x a ih =>
    cases y with
    | nil => simp
    | cons c y =>
      have hrec := ih y
      simp only [List.cons_append, List.cons_lt_cons_iff, List.cons_prefix_cons, ← hrec]
      constructor
      · rintro ⟨h1, h2⟩
        obtain rfl : x = c := by omega
        simp_all
      · rintro ⟨rfl, h1, h2⟩
        simp_all

/-- The key is in the range from `lo` to before `hi`. -/
def InRange (lo hi k : Str) : Prop := lo.nums ≤ k.nums ∧ k.nums < hi.nums

instance (lo hi k : Str) : Decidable (InRange lo hi k) :=
  inferInstanceAs (Decidable (lo.nums ≤ k.nums ∧ k.nums < hi.nums))

/-- The keys of a prefix are a range. -/
theorem take_eq_iff (pfx k : Str) :
    k.take (encodeKey pfx []).length = encodeKey pfx [] ↔
      InRange (encodeKey pfx []) (endOfKeys pfx) k := by
  have hstart : (encodeKey pfx []).nums = pfx.nums ++ [0] := List.map_append
  have hend : (endOfKeys pfx).nums = pfx.nums ++ [1] := List.map_append
  have hlen : (encodeKey pfx []).nums.length = (encodeKey pfx []).length := List.length_map _
  have htake : k.nums.take (encodeKey pfx []).length =
      Str.nums (k.take (encodeKey pfx []).length) :=
    List.map_take.symm
  unfold InRange
  rw [hend, hstart, between_iff, ← hstart, List.prefix_iff_eq_take, hlen, htake]
  exact ⟨fun h => by rw [h], fun h => (Str.nums_inj h).symm⟩

namespace MemDB

variable {m : MemDB}

/-- The keys between those of the prefix and their end have gone, and the others stay. -/
theorem lookup_rmkeysByPrefix (pfx k : Str) :
    SortedMap.lookup (m.rmkeysByPrefix pfx) k =
      if InRange (encodeKey pfx []) (endOfKeys pfx) k then none else SortedMap.lookup m k := by
  unfold rmkeysByPrefix
  rw [SortedMap.lookup_eraseWhile nums_injective]
  · simp only [decide_eq_true_eq, take_eq_iff]
    exact if_congr ⟨And.right, fun h => ⟨h.1, h⟩⟩ rfl rfl
  · intro b _ c _ hlo hle hc
    simp only [decide_eq_true_eq, take_eq_iff] at hc ⊢
    exact ⟨hlo, hle.trans_lt hc.2⟩

/-- The keys of the range have gone, and the others stay. -/
theorem lookup_rmRangeKeys (pfx start stop k : Str) :
    SortedMap.lookup (m.rmRangeKeys pfx start stop) k =
      if InRange (encodeKey pfx start) (encodeKey pfx stop) k then none
      else SortedMap.lookup m k := by
  unfold rmRangeKeys
  rw [SortedMap.lookup_eraseWhile nums_injective]
  · simp only [decide_eq_true_eq]
    rfl
  · intro b _ c _ _ hle hc
    simp only [decide_eq_true_eq] at hc ⊢
    exact hle.trans_lt hc

end MemDB

end CxxLab.Kv
