import CxxLab.Btier.Journal
import Mathlib.Data.List.AList

/-!
# The tiering engine

`btier/btier.cc` over `btier/extent_map.cc`, `btier/key_map.cc` and `btier/migration_engine.cc`: a
key/value store on two devices. A value is found through two maps, from its key to a slot of an
extent and from the extent to a tier and an offset; puts, overwrites, deletes, migrations and
compactions rewrite both.

Every call is one step: the runs are sequential. The FAST device is the journal's device, since the
journal lives at its start. What the code leaves open is the environment `Env`: what the allocators
answer, the iteration order of the unordered containers, and the outcome of the comparisons of
doubles. A migration cycle is a `processDeferredFree` followed by `migrateTier` and `compact` tasks;
which ones depends on scores in floating point, so each task is a step of its own. The access
metrics, which only the scores read, are left out. Lengths on the devices are natural numbers; the
fields that the source declares with 32 and 64 bits keep their width.
-/

namespace CxxLab.Btier

open Codec

/-- A key, as bytes. -/
abbrev Key := List UInt8

/-- A value, as bytes. -/
abbrev Value := List UInt8

/-- `ExtentHeader::HEADER_SIZE`. -/
def headerSize : UInt32 := 4096

/-- `pextent_t`, as an allocator returns it. -/
structure Fragment where
  /-- The start on the device. -/
  offset : UInt64
  /-- The length. -/
  length : UInt32
  deriving DecidableEq, Repr

/-- The configuration, the sizes of the devices, and what the code leaves open. -/
structure Env where
  /-- `block_size`. -/
  blockSize : ℕ
  /-- `extent_size`. -/
  extentSize : ℕ
  /-- `large_value_threshold`. -/
  largeValueThreshold : ℕ
  /-- `journal_size`, as `init` has cut it to the device. -/
  journalSize : ℕ
  /-- The size of the FAST device. -/
  fastSize : ℕ
  /-- The size of the SLOW device. -/
  slowSize : ℕ
  /-- What an allocator answers: the number of the call, the tier, which bytes are free, and how
  many are wanted. -/
  allocate : ℕ → Tier → (ℕ → Bool) → ℕ → List Fragment
  /-- The iteration order of a set of keys. -/
  orderKeys : ℕ → List Key → List Key
  /-- The iteration order of the extents. -/
  orderIds : ℕ → List UInt64 → List UInt64
  /-- `is_near_full`, from the used bytes and the size of the data area. -/
  isNearFull : ℕ → ℕ → Bool
  /-- `needs_checkpoint`, from the used bytes and the size of the data area. -/
  needsCheckpoint : ℕ → ℕ → Bool

/-- `ExtentEntry`. -/
structure ExtentEntry where
  /-- Where the extent is. -/
  location : DiskLocation
  /-- How much of it is taken. -/
  usedBytes : UInt32 := 0
  /-- How much of it belongs to live keys. -/
  liveBytes : UInt32 := 0
  /-- The state: `MIGRATING` or `ACTIVE`. -/
  migrating : Bool := false
  /-- The generation. -/
  generation : UInt32 := 0
  deriving DecidableEq, Repr

/-- The bytes of an extent behind its header. -/
def ExtentEntry.capacity (x : ExtentEntry) : UInt32 := x.location.length - headerSize

/-- A device write, for the history that a crash cuts. -/
inductive DevWrite where
  /-- Bytes on a tier. -/
  | data (tier : Tier) (offset : ℕ) (bytes : List UInt8)
  /-- The superblock of the journal. -/
  | superblock (sb : JournalSuperBlock)

/-- The state of the engine and of its devices. -/
structure Engine where
  /-- The journal, and the FAST device under it. -/
  journal : Journal
  /-- The bytes of the SLOW device. -/
  slow : ℕ → UInt8
  /-- `entries_`. -/
  entries : AList fun _ : UInt64 => ExtentEntry
  /-- `next_extent_id`. -/
  nextExtentId : UInt64
  /-- `free_lists_`: pairs of free bytes and extent, in order. -/
  freeLists : Tier → List (UInt32 × UInt64)
  /-- The free bytes of the allocators. -/
  free : Tier → ℕ → Bool
  /-- How many times an allocator was called. -/
  allocCalls : ℕ
  /-- `deferred_free_`: locations, with the sequence number at which they were added. -/
  deferredFree : List (DiskLocation × ℕ)
  /-- `seqno_`. -/
  seqno : ℕ
  /-- The key map. -/
  keyMap : Key → Option KeyLocation
  /-- `reverse_index_`. -/
  reverseIndex : UInt64 → List Key
  /-- The device writes so far, in order. -/
  log : List DevWrite

namespace Engine

/-! ## Devices -/

/-- A byte of a tier. The FAST device is seen from `kDataStart` on. -/
def byteAt (e : Engine) (t : Tier) (i : ℕ) : UInt8 :=
  if t = .fast then e.journal.dev.data (i - kSuperblockSize) else e.slow i

/-- `BlockDevice::read`. -/
def devRead (e : Engine) (t : Tier) (off len : ℕ) : List UInt8 :=
  (List.range len).map fun i => e.byteAt t (off + i)

/-- `BlockDevice::write`; `none` is a negative return value. -/
def devWrite (env : Env) (e : Engine) (t : Tier) (off : ℕ) (bs : List UInt8) : Option Engine :=
  if t = .fast then
    (e.journal.dev.write (off - kSuperblockSize) bs).map fun dev =>
      { e with journal := { e.journal with dev := dev }, log := e.log ++ [.data t off bs] }
  else if off + bs.length ≤ env.slowSize then
    some { e with slow := Ring.splice e.slow off bs, log := e.log ++ [.data t off bs] }
  else none

/-! ## The key map -/

/-- `KeyMap::put`, and one update of `KeyMap::batch_update`. -/
def keyPut (e : Engine) (k : Key) (loc : KeyLocation) : Engine :=
  let rev :=
    match e.keyMap k with
    | some old =>
      if old.extentId ≠ loc.extentId then
        Function.update e.reverseIndex old.extentId ((e.reverseIndex old.extentId).erase k)
      else e.reverseIndex
    | none => e.reverseIndex
  { e with
    keyMap := Function.update e.keyMap k (some loc)
    reverseIndex := Function.update rev loc.extentId ((rev loc.extentId).insert k) }

/-- `KeyMap::erase`. -/
def keyErase (e : Engine) (k : Key) : Engine :=
  match e.keyMap k with
  | none => e
  | some old =>
    { e with
      keyMap := Function.update e.keyMap k none
      reverseIndex :=
        Function.update e.reverseIndex old.extentId ((e.reverseIndex old.extentId).erase k) }

/-- `KeyMap::keys_in_extent`, in the order in which the set is iterated. -/
def keysInExtent (env : Env) (e : Engine) (id : UInt64) : List Key :=
  env.orderKeys e.log.length (e.reverseIndex id)

/-! ## The extent map -/

/-- The insertion into a `std::set` of free-list entries. -/
def freeInsert (p : UInt32 × UInt64) : List (UInt32 × UInt64) → List (UInt32 × UInt64)
  | [] => [p]
  | q :: qs =>
    if p.1 < q.1 ∨ (p.1 = q.1 ∧ p.2 < q.2) then p :: q :: qs
    else if p = q then q :: qs
    else q :: freeInsert p qs

/-- `update_free_list`. -/
def updateFreeList (e : Engine) (id : UInt64) (t : Tier) (oldFree newFree : UInt32) : Engine :=
  { e with
    freeLists := Function.update e.freeLists t
      (freeInsert (newFree, id) ((e.freeLists t).erase (oldFree, id))) }

/-- What `UINT64_MAX` and `UINT32_MAX` say: no extent, no slot. -/
def noExtent : UInt64 := 0xFFFFFFFFFFFFFFFF

/-- No slot. -/
def noSlot : UInt32 := 0xFFFFFFFF

/-- `find_extent_with_space`. -/
def findExtentWithSpace (e : Engine) (t : Tier) (needed : UInt32) : UInt64 :=
  match ((e.freeLists t).dropWhile (·.1 < needed)).find? fun p =>
      match e.entries.lookup p.2 with
      | some x => !x.migrating
      | none => false with
  | some p => p.2
  | none => noExtent

/-- `append_slot`. -/
def appendSlot (e : Engine) (id : UInt64) (size : UInt32) : UInt32 × Engine :=
  match e.entries.lookup id with
  | none => (noSlot, e)
  | some x =>
    if x.migrating ∨ x.usedBytes + size > x.capacity then (noSlot, e)
    else
      let x' := { x with
        usedBytes := x.usedBytes + size
        liveBytes := x.liveBytes + size
        generation := x.generation + 1 }
      (x.usedBytes, { e with entries := e.entries.insert id x' }.updateFreeList id x.location.tier
        (x.capacity - x.usedBytes) (x.capacity - x'.usedBytes))

/-- `mark_dead_slot`. -/
def markDeadSlot (e : Engine) (id : UInt64) (length : UInt32) : Engine :=
  match e.entries.lookup id with
  | none => e
  | some x =>
    let x' := { x with
      liveBytes := if x.liveBytes ≥ length then x.liveBytes - length else 0
      generation := x.generation + 1 }
    { e with entries := e.entries.insert id x' }.updateFreeList id x.location.tier
      (x.capacity - x.usedBytes) (x.capacity - x'.usedBytes)

/-- `get_live_bytes`. -/
def getLiveBytes (e : Engine) (id : UInt64) : UInt32 :=
  ((e.entries.lookup id).map ExtentEntry.liveBytes).getD 0

/-- `free`. -/
def freeExtent (e : Engine) (id : UInt64) : Engine :=
  match e.entries.lookup id with
  | none => e
  | some x =>
    { e with
      entries := e.entries.erase id
      freeLists := Function.update e.freeLists x.location.tier
        ((e.freeLists x.location.tier).erase (x.capacity - x.usedBytes, id))
      deferredFree := e.deferredFree ++ [(x.location, e.seqno)] }

/-- `release_source`. -/
def releaseSource (e : Engine) (loc : DiskLocation) : Engine :=
  { e with deferredFree := e.deferredFree ++ [(loc, e.seqno)] }

/-- The bytes of a range. -/
def inRange (off len i : ℕ) : Bool := off ≤ i ∧ i < off + len

/-- `Allocator::allocate`. What it returns is no longer free, also when it is less than wanted. -/
def allocate (env : Env) (e : Engine) (t : Tier) (want : ℕ) : List Fragment × Engine :=
  let frags := env.allocate e.allocCalls t (e.free t) want
  (frags, { e with
    allocCalls := e.allocCalls + 1
    free := Function.update e.free t fun i =>
      e.free t i && !frags.any fun f => inRange f.offset.toNat f.length.toNat i })

/-- The size that is asked of the allocator: rounded up to blocks, at least one. -/
def alignedSize (env : Env) (size : ℕ) : ℕ :=
  let aligned := if size % env.blockSize = 0 then size
    else size + (env.blockSize - size % env.blockSize)
  if aligned = 0 then env.blockSize else aligned

/-- `allocate_raw` on one tier: the first fragment, when there is enough. -/
def allocateOn (env : Env) (e : Engine) (t : Tier) (size : ℕ) : Option DiskLocation × Engine :=
  let want := alignedSize env size
  match e.allocate env t want with
  | (frags, e) =>
    match frags with
    | [] => (none, e)
    | f :: _ =>
      if (frags.map fun g => g.length.toNat).sum < want then (none, e)
      else (some ⟨f.offset, f.length, t⟩, e)

/-- `allocate_raw`: from FAST it falls back to SLOW. -/
def allocateRaw (env : Env) (e : Engine) (t : Tier) (size : ℕ) : Option DiskLocation × Engine :=
  match e.allocateOn env t size with
  | (some loc, e) => (some loc, e)
  | (none, e) => if t = .fast then e.allocateOn env .slow size else (none, e)

/-- The bytes of an `ExtentHeader` before its checksum. -/
def headerFields (id : UInt64) (length used live : UInt32) (generation : UInt64) : List UInt8 :=
  putU64 0x4254494552535445 ++ putU64 id ++ putU32 length ++ putU32 used ++ putU32 live ++
    putU32 0 ++ putU64 generation

/-- An `ExtentHeader`, as `write_extent_header` makes it. -/
def headerBytes (id : UInt64) (length : UInt32) : List UInt8 :=
  let fields := headerFields id length 0 0 0
  fields ++ putU32 (Common.calcCrc32 fields 0) ++ List.replicate 4052 0

/-- `write_extent_header`; a failed write is not noticed. -/
def writeExtentHeader (env : Env) (e : Engine) (id : UInt64) (loc : DiskLocation) : Engine :=
  (e.devWrite env loc.tier loc.offset.toNat (headerBytes id loc.length)).getD e

/-- `allocate_extent`: an allocation with an entry and a header. -/
def allocateExtent (env : Env) (e : Engine) (t : Tier) (size : ℕ) :
    Option (UInt64 × DiskLocation) × Engine :=
  match e.allocateRaw env t size with
  | (none, e) => (none, e)
  | (some loc, e) =>
    let id := e.nextExtentId
    let e := { e with
      nextExtentId := id + 1
      entries := e.entries.insert id { location := loc }
      freeLists := Function.update e.freeLists loc.tier
        (freeInsert (loc.length - headerSize, id) (e.freeLists loc.tier)) }
    (some (id, loc), e.writeExtentHeader env id loc)

/-- `process_deferred_free`: what was retired two cycles ago is given back. -/
def processDeferredFree (e : Engine) : Engine :=
  let due := e.deferredFree.filter fun d => e.seqno - d.2 ≥ 2
  { e with
    seqno := e.seqno + 1
    deferredFree := e.deferredFree.filter fun d => ¬ e.seqno - d.2 ≥ 2
    free := fun t i => e.free t i || due.any fun d =>
      d.1.tier = t && inRange d.1.offset.toNat d.1.length.toNat i }

/-! ## The journal -/

/-- The writes of a journal operation that wrote `bl`. -/
def journalWrites (j : Journal) (bl : List UInt8) (r : Status × Journal) : List DevWrite :=
  if r.1 = .ok then
    [.data .fast (kSuperblockSize + j.writeStart (Journal.pad bl).length) (Journal.pad bl),
      .superblock r.2.superblock]
  else []

/-- A transaction: `begin_txn`, `append` of each record, `commit_txn`. -/
def journalTxn (e : Engine) (rs : List JournalRecord) : Status × Engine :=
  let id := e.journal.nextTxnId
  let j := rs.foldl (fun j r => (j.append id r).2) e.journal.beginTxn
  let body := ((j.activeTxns id).map TxnBuffer.serialized).getD []
  let r := j.commitTxn id
  (r.1, { e with
    journal := r.2
    log := e.log ++ journalWrites j (Journal.txnBytes id body) r })

/-- The records of one extent in a checkpoint. -/
def extentRecords (env : Env) (e : Engine) (id : UInt64) : List JournalRecord :=
  match e.entries.lookup id with
  | none => []
  | some x =>
    { op := .extentNew, extentId := id, extentLoc := x.location } ::
      (e.keysInExtent env id).map fun k =>
        { op := .keyPut, key := k, keyLoc := (e.keyMap k).getD {} }

/-- `build_checkpoint_state`. -/
def buildCheckpointState (env : Env) (e : Engine) : List JournalRecord :=
  (env.orderIds e.log.length e.entries.keys).flatMap (e.extentRecords env)

/-- A checkpoint of the engine's state. -/
def checkpoint (env : Env) (e : Engine) : Engine :=
  let state := e.buildCheckpointState env
  let r := e.journal.checkpoint state
  { e with
    journal := r.2
    log := e.log ++
      journalWrites e.journal (Journal.checkpointBytes (serializeRecords state)) r }

/-! ## Put, get and del -/

/-- `put_pre_transaction_extent`. -/
def putPreTransactionExtent (e : Engine) (id : UInt64) (loc : DiskLocation) : Status × Engine :=
  match e.journalTxn [{ op := .extentNew, extentId := id, extentLoc := loc }] with
  | (.ok, e) => (.ok, e)
  | (st, e) => (st, e.freeExtent id)

/-- `put_allocate_new_extent`. -/
def putAllocateNewExtent (env : Env) (e : Engine) (t : Tier) (size : ℕ) :
    Status × UInt64 × DiskLocation × Engine :=
  match e.allocateExtent env t size with
  | (none, e) => (.enospc, 0, {}, e)
  | (some (id, loc), e) =>
    match e.putPreTransactionExtent id loc with
    | (st, e) => (st, id, loc, e)

/-- `PutWriteResult`: where the value went. -/
structure PutWriteResult where
  /-- `target_extent_id`. -/
  target : UInt64
  /-- The offset in the extent. -/
  offset : UInt32
  /-- `extent_loc`. -/
  extentLoc : DiskLocation
  /-- `new_extent_created`. -/
  newExtentCreated : Bool

/-- The data write of `put_write_data`, into a slot that is reserved. -/
def putWriteSlot (env : Env) (e : Engine) (value : Value) (ctx : PutWriteResult) :
    Status × PutWriteResult × Engine :=
  match e.devWrite env ctx.extentLoc.tier
      (ctx.extentLoc.offset.toNat + headerSize.toNat + ctx.offset.toNat) value with
  | some e => (.ok, ctx, e)
  | none =>
    (.eio, ctx,
      if ctx.newExtentCreated then e.freeExtent ctx.target
      else e.markDeadSlot ctx.target (UInt32.ofNat value.length))

/-- A fresh extent and a slot in it: what `put_write_data` does for a large value, and for a small
value when there is no other room. -/
def putNewExtent (env : Env) (e : Engine) (value : Value) (size : ℕ) :
    Status × PutWriteResult × Engine :=
  match e.putAllocateNewExtent env .fast size with
  | (.ok, id, loc, e) =>
    match e.appendSlot id (UInt32.ofNat value.length) with
    | (offset, e) =>
      let ctx := ⟨id, offset, loc, true⟩
      if offset = noSlot then (.eio, ctx, e.freeExtent id) else e.putWriteSlot env value ctx
  | (st, id, loc, e) => (st, ⟨id, 0, loc, true⟩, e)

/-- `put_write_data`. -/
def putWriteData (env : Env) (e : Engine) (value : Value) : Status × PutWriteResult × Engine :=
  let size := UInt32.ofNat value.length
  if size.toNat ≥ env.largeValueThreshold then
    e.putNewExtent env value (size + headerSize).toNat
  else
    let id := e.findExtentWithSpace .fast size
    if id = noExtent then
      -- A fresh extent, and when the value does not fit in it, another one.
      match e.putAllocateNewExtent env .fast env.extentSize with
      | (.ok, id, loc, e) =>
        match e.appendSlot id size with
        | (offset, e) =>
          if offset = noSlot then (e.freeExtent id).putNewExtent env value env.extentSize
          else e.putWriteSlot env value ⟨id, offset, loc, true⟩
      | (st, id, loc, e) => (st, ⟨id, 0, loc, true⟩, e)
    else
      match e.entries.lookup id with
      | none => (.eio, ⟨id, 0, {}, false⟩, e)
      | some x =>
        match e.appendSlot id size with
        | (offset, e) =>
          if offset = noSlot then e.putNewExtent env value env.extentSize
          else e.putWriteSlot env value ⟨id, offset, x.location, false⟩

/-- The records of `put_journal_transaction`. -/
def putRecords (k : Key) (old : Option KeyLocation) (new : KeyLocation) : List JournalRecord :=
  (match old with
    | some o => [{ op := .markDead, extentId := o.extentId, deadLength := o.length }]
    | none => []) ++ [{ op := .keyPut, key := k, keyLoc := new }]

/-- `put_cleanup_on_failure`. -/
def putCleanupOnFailure (e : Engine) (ctx : PutWriteResult) (size : UInt32) : Engine :=
  if ctx.newExtentCreated then e.freeExtent ctx.target else e.markDeadSlot ctx.target size

/-- What a key leaves behind: its slot is dead, and an extent without live bytes goes. -/
def retireSlot (e : Engine) (old : KeyLocation) : Engine :=
  let e := e.markDeadSlot old.extentId old.length
  if e.getLiveBytes old.extentId = 0 then e.freeExtent old.extentId else e

/-- `put_commit_memory_state`. -/
def putCommitMemoryState (e : Engine) (k : Key) (old : Option KeyLocation) (new : KeyLocation) :
    Engine :=
  let e := e.keyPut k new
  match old with
  | some o => e.retireSlot o
  | none => e

/-- The checkpoint of `put`'s first and fourth phase, when the journal is full enough. -/
def checkpointIf (env : Env) (full : ℕ → ℕ → Bool) (e : Engine) : Engine :=
  if full e.journal.getUsedBytes e.journal.dataSize then e.checkpoint env else e

/-- `BtierEngine::put`. -/
def put (env : Env) (e : Engine) (k : Key) (value : Value) : Status × Engine :=
  let e := e.checkpointIf env env.isNearFull
  let size := UInt32.ofNat value.length
  let old := e.keyMap k
  match e.putWriteData env value with
  | (.ok, ctx, e) =>
    let new : KeyLocation := ⟨ctx.target, ctx.offset, size⟩
    match e.journalTxn (putRecords k old new) with
    | (.ok, e) => (.ok, (e.checkpointIf env env.needsCheckpoint).putCommitMemoryState k old new)
    | (st, e) => (st, e.putCleanupOnFailure ctx size)
  | (st, _, e) => (st, e)

/-- `BtierEngine::get`. -/
def get (e : Engine) (k : Key) : Except Status Value :=
  match e.keyMap k with
  | none => .error .enoent
  | some kl =>
    match e.entries.lookup kl.extentId with
    | none => .error .enoent
    | some x => .ok (e.devRead x.location.tier
        (x.location.offset.toNat + headerSize.toNat + kl.offset.toNat) kl.length.toNat)

/-- `BtierEngine::del`. -/
def del (e : Engine) (k : Key) : Status × Engine :=
  match e.keyMap k with
  | none => (.enoent, e)
  | some kl =>
    match e.journalTxn [{ op := .keyDel, key := k },
        { op := .markDead, extentId := kl.extentId, deadLength := kl.length }] with
    | (.ok, e) => (.ok, (e.keyErase k).retireSlot kl)
    | (st, e) => (st, e)

/-! ## Migration and compaction -/

/-- `MigrationResult`. -/
inductive MigrationResult where
  | committed
  | interrupted
  | failed
  deriving DecidableEq, Repr

/-- `begin_migration`: the extent is claimed; its generation and location are the handle. -/
def beginMigration (e : Engine) (id : UInt64) : Option (ExtentEntry × Engine) :=
  match e.entries.lookup id with
  | none => none
  | some x =>
    if x.migrating then none
    else some (x, { e with entries := e.entries.insert id { x with migrating := true } })

/-- `commit_migration`. -/
def commitMigration (e : Engine) (id : UInt64) (gen : UInt32) (loc : DiskLocation) :
    Bool × Engine :=
  match e.entries.lookup id with
  | none => (false, e)
  | some x =>
    if x.generation ≠ gen then (false, e)
    else
      (true, { e with
        entries := e.entries.insert id
          { x with location := loc, migrating := false, generation := gen + 1 }
        deferredFree := e.deferredFree ++ [(x.location, e.seqno)] })

/-- `abort_migration`. -/
def abortMigration (e : Engine) (id : UInt64) : Engine :=
  match e.entries.lookup id with
  | none => e
  | some x =>
    if x.migrating then { e with entries := e.entries.insert id { x with migrating := false } }
    else e

/-- `check_migration`. -/
def checkMigration (e : Engine) (id : UInt64) (gen : UInt32) : Bool :=
  match e.entries.lookup id with
  | none => false
  | some x => x.generation = gen

/-- `migrate_tier`. The data is written to the device of `to`, wherever the destination was
allocated. -/
def migrateTier (env : Env) (e : Engine) (id : UInt64) (src dst : Tier) :
    MigrationResult × Engine :=
  match e.beginMigration id with
  | none => (.interrupted, e)
  | some (x, e) =>
    let data := e.devRead src x.location.offset.toNat x.location.length.toNat
    match e.allocateRaw env dst x.location.length.toNat with
    | (none, e) => (.failed, e.abortMigration id)
    | (some loc, e) =>
      match e.devWrite env dst loc.offset.toNat data with
      | none => (.failed, (e.abortMigration id).releaseSource loc)
      | some e =>
        match e.commitMigration id x.generation loc with
        | (true, e) => (.committed, e)
        | (false, e) => (.interrupted, (e.abortMigration id).releaseSource loc)

/-- The copy loop of `compact`: the new locations of the keys, or `none` when a copy failed. -/
def compactCopy (env : Env) (src new : DiskLocation) (newId : UInt64) :
    List Key → Engine → Option (List (Key × KeyLocation)) × Engine
  | [], e => (some [], e)
  | k :: ks, e =>
    let kl := (e.keyMap k).getD {}
    let value := e.devRead src.tier (src.offset.toNat + headerSize.toNat + kl.offset.toNat)
      kl.length.toNat
    match e.appendSlot newId kl.length with
    | (offset, e) =>
      if offset = noSlot then (none, e)
      else
        -- The device is that of the source's tier, wherever the new extent was allocated.
        match e.devWrite env src.tier (new.offset.toNat + headerSize.toNat + offset.toNat) value with
        | none => (none, e)
        | some e =>
          match compactCopy env src new newId ks e with
          | (none, e) => (none, e)
          | (some us, e) => (some ((k, ⟨newId, offset, kl.length⟩) :: us), e)

/-- `KeyMap::batch_update`. -/
def batchUpdate (e : Engine) (us : List (Key × KeyLocation)) : Engine :=
  us.foldl (fun e u => e.keyPut u.1 u.2) e

/-- `compact`. -/
def compact (env : Env) (e : Engine) (id : UInt64) : MigrationResult × Engine :=
  match e.beginMigration id with
  | none => (.interrupted, e)
  | some (x, e) =>
    let keys := e.keysInExtent env id
    if keys = [] then (.committed, e.freeExtent id)
    else
      match e.allocateExtent env x.location.tier x.location.length.toNat with
      | (none, e) => (.failed, e.abortMigration id)
      | (some (newId, newLoc), e) =>
        match compactCopy env x.location newLoc newId keys e with
        | (none, e) => (.failed, (e.abortMigration id).freeExtent newId)
        | (some us, e) =>
          if e.checkMigration id x.generation then (.committed, (e.batchUpdate us).freeExtent id)
          else (.interrupted, (e.abortMigration id).freeExtent newId)

/-! ## Runs -/

/-- The engine of `init` before recovery: the journal is open, the maps are empty, and everything
behind the journal is free. -/
def opened (env : Env) (journal : Journal) (slow : ℕ → UInt8) : Engine :=
  { journal := journal
    slow := slow
    entries := ∅
    nextExtentId := 1
    freeLists := fun _ => []
    free := fun t i =>
      match t with
      | .fast => env.journalSize ≤ i ∧ i < env.fastSize
      | .slow => i < env.slowSize
      | .invalid _ => false
    allocCalls := 0
    deferredFree := []
    seqno := 0
    keyMap := fun _ => none
    reverseIndex := fun _ => []
    log := [] }

/-- The engine after `init` on devices whose journal has no records. -/
def init (env : Env) (dev : Device) (slow : ℕ → UInt8) : Engine :=
  opened env ((Journal.create dev env.journalSize).checkpoint []).2 slow

/-- The tier to which a cycle moves an extent. -/
def otherTier (t : Tier) : Tier := if t = .slow then .fast else .slow

/-- A call with what it returned, or a task of a migration cycle. -/
inductive Action where
  /-- `put`. -/
  | put (k : Key) (value : Value) (st : Status)
  /-- `del`. -/
  | del (k : Key) (st : Status)
  /-- The first step of a migration cycle. -/
  | processDeferredFree
  /-- The migration of an extent to the other tier. -/
  | migrateTier (id : UInt64)
  /-- The compaction of an extent, in a cycle or by `compact_extent`. -/
  | compact (id : UInt64)
  /-- A checkpoint, as `shutdown` makes it. -/
  | checkpoint

/-- One step; `none` when the call does not return what the action says. -/
def step (env : Env) (e : Engine) : Action → Option Engine
  | .put k value st =>
    match e.put env k value with
    | (st', e') => if st' = st then some e' else none
  | .del k st =>
    match e.del k with
    | (st', e') => if st' = st then some e' else none
  | .processDeferredFree => some e.processDeferredFree
  | .migrateTier id =>
    match e.entries.lookup id with
    | none => some e
    | some x => some (e.migrateTier env id x.location.tier (otherTier x.location.tier)).2
  | .compact id => some (e.compact env id).2
  | .checkpoint => some (e.checkpoint env)

end Engine

end CxxLab.Btier
