import CxxLab.Kv.MemDb

/-!
# The store on RocksDB

`RocksDBStore` of `kv/rocksdb/rocksdb_store.cc`: a transaction builds a `WriteBatch`, which is
written when it is submitted. The merge adapter finds the operator of a key by the part of the key
before its first zero byte, and folds the operands of a key when it is asked to.

RocksDB itself is a parameter. `RocksDB.Lawful` is what the store relies on: a batch is applied in
its order and as a whole, a merge only puts its operand behind the others of its key until the
adapter folds them, and a new iterator reads what is committed.
-/

namespace CxxLab.Kv

open Common

/-! ## The merge adapter -/

/-- The loop of `FullMergeV2` over the operands behind the first. -/
def mergeRest (mop : MergeOperator) (value : Str) : List Str → Option Str
  | [] => some value
  | operand :: operands => (mop.merge value operand).bind fun v => mergeRest mop v operands

/-- `FullMergeV2`: the new value; `none` where it returns false or an assertion fails. -/
def fullMergeV2 (mops : MergeOps) (key : Str) (existing : Option Str) :
    List Str → Option Str :=
  fun operands =>
    if (0 : UInt8) ∉ key then none
    else
      match mops.find (key.takeWhile (· ≠ 0)) with
      | none => none
      | some mop =>
        match existing, operands with
        | _, [] => some []
        | none, operand :: operands => mergeRest mop (mop.mergeNonexistent operand) operands
        | some old, operand :: operands =>
          (mop.merge old operand).bind fun v => mergeRest mop v operands

/-! ## RocksDB -/

/-- An entry of a `WriteBatch`. -/
inductive BatchOp where
  | put (key value : Str)
  | delete (key : Str)
  | deleteRange (start stop : Str)
  | merge (key value : Str)
  deriving DecidableEq

/-- What RocksDB has for a key: the value since the last `Put` or delete, and the operands of the
merges behind it. -/
structure Entry where
  base : Option Str := none
  operands : List Str := []
  deriving DecidableEq

namespace Entry

/-- An entry of a batch at the key `k`. -/
def apply (k : Str) (e : Entry) : BatchOp → Entry
  | .put key value => if k = key then ⟨some value, []⟩ else e
  | .delete key => if k = key then ⟨none, []⟩ else e
  | .deleteRange start stop => if InRange start stop k then ⟨none, []⟩ else e
  | .merge key value => if k = key then ⟨e.base, e.operands ++ [value]⟩ else e

/-- What a read of the key gives. -/
def value (mops : MergeOps) (k : Str) (e : Entry) : Option Str :=
  match e.operands with
  | [] => e.base
  | operands => fullMergeV2 mops k e.base operands

/-- RocksDB may fold the first operands of a key at any time. `PartialMergeMulti` returns false, so
operands are never folded without the base. -/
inductive Folded (mops : MergeOps) (k : Str) : Entry → Entry → Prop
  | same (e : Entry) : Folded mops k e e
  | fold {base : Option Str} {v : Str} (x : Str) (xs ys : List Str)
      (h : fullMergeV2 mops k base (x :: xs) = some v) :
      Folded mops k ⟨base, x :: xs ++ ys⟩ ⟨some v, ys⟩

end Entry

/-- RocksDB, with the states `σ`. -/
structure RocksDB (σ : Type*) where
  /-- `Write`. -/
  write : σ → List BatchOp → σ
  /-- What it has for a key. -/
  entry : σ → Str → Entry
  /-- The keys that a new iterator with a lower and an upper bound gives, from `Seek` to the lower
  bound on. -/
  scan : σ → Str → Str → List Str

namespace RocksDB

variable {σ : Type*} (db : RocksDB σ) (mops : MergeOps)

/-- A read of a key. -/
def get (s : σ) (k : Str) : Option Str := (db.entry s k).value mops k

/-- What the store relies on. -/
structure Lawful : Prop where
  /-- A batch is applied in its order. -/
  write : ∀ s batch k, Entry.Folded mops k (batch.foldl (Entry.apply k) (db.entry s k))
    (db.entry (db.write s batch) k)
  /-- An iterator gives the keys between its bounds that can be read, in their order. -/
  scan_sorted : ∀ s lo hi, (db.scan s lo hi).Pairwise fun a b => a.nums < b.nums
  mem_scan : ∀ s lo hi k, k ∈ db.scan s lo hi ↔ InRange lo hi k ∧ db.get mops s k ≠ none

end RocksDB

/-! ## `RDBTransactionImpl` -/

/-- The loop of `rmkeys_by_prefix` and `rm_range_keys`: the deletes, and `cnt` after it. -/
def scanDelete (stop : Str) : ℕ → List Str → List BatchOp × ℕ
  | cnt, [] => ([], cnt)
  | cnt, key :: keys =>
    if key.nums < stop.nums then
      if cnt - 1 = 0 then ([], 0)
      else
        let (deletes, cnt) := scanDelete stop (cnt - 1) keys
        (.delete key :: deletes, cnt)
    else ([], cnt)

namespace RocksDB

variable {σ : Type*} (db : RocksDB σ)

/-- What `rmkeys_by_prefix` and `rm_range_keys` add to the batch. When there are `threshold` keys or
more, the deletes are rolled back to the savepoint and the range is deleted. -/
def rmRange (s : σ) (threshold : ℕ) (start stop : Str) (batch : List BatchOp) : List BatchOp :=
  if threshold = 0 then batch ++ [.deleteRange start stop]
  else
    let (deletes, cnt) := scanDelete stop threshold (db.scan s start stop)
    if cnt = 0 then batch ++ [.deleteRange start stop] else batch ++ deletes

/-- What a call on the transaction adds to the batch; `s` is what is committed then. -/
def addOp (s : σ) (threshold : ℕ) (batch : List BatchOp) : Op → List BatchOp
  | .set pfx key bl => batch ++ [.put (encodeKey pfx key) bl]
  | .rmkey pfx key => batch ++ [.delete (encodeKey pfx key)]
  | .rmkeysByPrefix pfx => db.rmRange s threshold (encodeKey pfx []) (endOfKeys pfx) batch
  | .rmRangeKeys pfx start stop =>
    db.rmRange s threshold (encodeKey pfx start) (encodeKey pfx stop) batch
  | .merge pfx key value => batch ++ [.merge (encodeKey pfx key) value]

/-- A transaction is built and submitted. -/
def submitTransaction (threshold : ℕ) (s : σ) (ops : List Op) : σ :=
  db.write s (ops.foldl (db.addOp s threshold) [])

/-- One transaction after the other. -/
def run (threshold : ℕ) (s : σ) (txns : List (List Op)) : σ :=
  txns.foldl (db.submitTransaction threshold) s

end RocksDB

end CxxLab.Kv
