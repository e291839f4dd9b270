import CxxLab.Lib.Codec
import CxxLab.Lib.Ring
import CxxLab.Common.Crc32
import CxxLab.Btier.Types
import Mathlib.Logic.Function.Basic

/-!
# The journal

`btier/journal.cc`: a ring of transactions on a device. A transaction is buffered in memory and
written as BEGIN, records, COMMIT with a checksum, padded with zeros to `kTxnAlignment`. A
checkpoint is written the same way and moves `checkpoint_offset`. `recover` reads from
`checkpoint_offset` to `write_offset` and returns the records of the transactions whose checksum
matches.

Offsets are those of the data area, relative to `kDataStart`. The device is the superblock and the
bytes of the data area and what lies behind it; `capacity` is the number of those bytes. The lock
makes every call one step. Lengths are natural numbers: a `bufferlist` of 4 GiB or more is outside
the model.
-/

namespace CxxLab.Btier

open Codec

/-! ## Records -/

/-- `JournalOp`. A byte read from the device may be no operation at all. -/
inductive JournalOp where
  | txnBegin | keyPut | keyDel | markDead | extentNew | extentFree | txnCommit | checkpoint
  | unknown (code : UInt8)
  deriving DecidableEq, Repr

/-- The value of an operation. -/
def JournalOp.code : JournalOp → UInt8
  | .txnBegin => 1
  | .keyPut => 2
  | .keyDel => 3
  | .markDead => 4
  | .extentNew => 5
  | .extentFree => 6
  | .txnCommit => 7
  | .checkpoint => 8
  | .unknown c => c

/-- The cast of a byte to an operation. -/
def JournalOp.ofCode (c : UInt8) : JournalOp :=
  match c.toNat with
  | 1 => .txnBegin
  | 2 => .keyPut
  | 3 => .keyDel
  | 4 => .markDead
  | 5 => .extentNew
  | 6 => .extentFree
  | 7 => .txnCommit
  | 8 => .checkpoint
  | _ => .unknown c

/-- `JournalRecord`. Each operation uses some of the fields. -/
structure JournalRecord where
  /-- The operation. -/
  op : JournalOp
  /-- The transaction. -/
  txnId : UInt64 := 0
  /-- The key. -/
  key : List UInt8 := []
  /-- Where the value of the key is. -/
  keyLoc : KeyLocation := {}
  /-- The extent. -/
  extentId : UInt64 := 0
  /-- Where the extent is. -/
  extentLoc : DiskLocation := {}
  /-- How much of the extent died. -/
  deadLength : UInt32 := 0
  /-- The checksum of a transaction. -/
  crc : UInt32 := 0
  deriving DecidableEq, Repr

/-- `put_string`: the length is cut to 32 bits. So are the bytes, by the `unsigned` of `append`, which
is left out: a key of 4 GiB or more is outside the model as such a `bufferlist` is. -/
def putString (s : List UInt8) : List UInt8 := putU32 (UInt32.ofNat s.length) ++ s

/-- `get_string`. -/
def getString (p : List UInt8) : Option (List UInt8 × List UInt8) := do
  let (len, p) ← getU32 p
  getBytes len.toNat p

/-- `put_key_location`. -/
def putKeyLocation (kl : KeyLocation) : List UInt8 :=
  putU64 kl.extentId ++ putU32 kl.offset ++ putU32 kl.length

/-- `get_key_location`. -/
def getKeyLocation (p : List UInt8) : Option (KeyLocation × List UInt8) := do
  let (extentId, p) ← getU64 p
  let (offset, p) ← getU32 p
  let (length, p) ← getU32 p
  some (⟨extentId, offset, length⟩, p)

/-- `put_disk_location`. -/
def putDiskLocation (dl : DiskLocation) : List UInt8 :=
  putU64 dl.offset ++ putU32 dl.length ++ putU8 dl.tier.code

/-- `get_disk_location`. -/
def getDiskLocation (p : List UInt8) : Option (DiskLocation × List UInt8) := do
  let (offset, p) ← getU64 p
  let (length, p) ← getU32 p
  let (tier, p) ← getU8 p
  some (⟨offset, length, .ofCode tier⟩, p)

/-- The fields that `serialize_record` writes after the operation and the transaction. -/
def serializeFields (r : JournalRecord) : List UInt8 :=
  match r.op with
  | .keyPut => putString r.key ++ putKeyLocation r.keyLoc
  | .keyDel => putString r.key
  | .markDead => putU64 r.extentId ++ putU32 r.deadLength
  | .extentNew => putU64 r.extentId ++ putDiskLocation r.extentLoc
  | .extentFree => putU64 r.extentId
  | .txnCommit => putU32 r.crc
  | _ => []

/-- `serialize_record`. -/
def serializeRecord (r : JournalRecord) : List UInt8 :=
  putU8 r.op.code ++ putU64 r.txnId ++ serializeFields r

/-- The serialized records of a list. -/
def serializeRecords (rs : List JournalRecord) : List UInt8 := rs.flatMap serializeRecord

/-- The fields that `deserialize_record` reads after the operation and the transaction. -/
def deserializeFields (op : JournalOp) (txnId : UInt64) (p : List UInt8) :
    Option (JournalRecord × List UInt8) :=
  match op with
  | .keyPut => do
    let (key, p) ← getString p
    let (keyLoc, p) ← getKeyLocation p
    some ({ op, txnId, key, keyLoc }, p)
  | .keyDel => do
    let (key, p) ← getString p
    some ({ op, txnId, key }, p)
  | .markDead => do
    let (extentId, p) ← getU64 p
    let (deadLength, p) ← getU32 p
    some ({ op, txnId, extentId, deadLength }, p)
  | .extentNew => do
    let (extentId, p) ← getU64 p
    let (extentLoc, p) ← getDiskLocation p
    some ({ op, txnId, extentId, extentLoc }, p)
  | .extentFree => do
    let (extentId, p) ← getU64 p
    some ({ op, txnId, extentId }, p)
  | .txnCommit => do
    let (crc, p) ← getU32 p
    some ({ op, txnId, crc }, p)
  | _ => some ({ op, txnId }, p)

/-- `deserialize_record`; `none` is the `end_of_buffer` exception. -/
def deserializeRecord (p : List UInt8) : Option (JournalRecord × List UInt8) := do
  let (op, p) ← getU8 p
  let (txnId, p) ← getU64 p
  deserializeFields (.ofCode op) txnId p

/-- The checksum of serialized records, as `commit_txn`, `checkpoint` and `recover` compute it. -/
def recordsCrc (bs : List UInt8) : UInt32 := if bs.length > 0 then Common.calcCrc32 bs 0 else 0

/-! ## The ring -/

/-- `kSuperblockSize`, which is also `kDataStart`. -/
def kSuperblockSize : ℕ := 4096

/-- `kTxnAlignment`. -/
def kTxnAlignment : ℕ := 4096

/-- `JournalSuperBlock::MAGIC`. -/
def superBlockMagic : UInt64 := 0x42544A5350423031

/-- `JournalSuperBlock`. -/
structure JournalSuperBlock where
  /-- Tells an initialized journal. -/
  magic : UInt64 := 0
  /-- Where the last checkpoint starts. -/
  checkpointOffset : ℕ := 0
  /-- How many checkpoints there were. -/
  checkpointSeqno : UInt64 := 0
  /-- The write head. -/
  writeOffset : ℕ := 0
  deriving DecidableEq, Repr

/-- The device: the superblock, and the bytes from `kDataStart` on. -/
structure Device where
  /-- The first block. -/
  superblock : JournalSuperBlock
  /-- The bytes from `kDataStart` on. -/
  data : ℕ → UInt8
  /-- How many bytes there are from `kDataStart` on. -/
  capacity : ℕ

/-- `BlockDevice::write` of the data area: the range must be on the device. -/
def Device.write (d : Device) (off : ℕ) (bs : List UInt8) : Option Device :=
  if off + bs.length ≤ d.capacity then
    some { d with data := Ring.splice d.data off bs }
  else none

/-- `BlockDevice::read` of the data area. -/
def Device.read (d : Device) (off len : ℕ) : List UInt8 :=
  (List.range len).map fun i => d.data (off + i)

/-- `TxnBuffer`. -/
structure TxnBuffer where
  /-- The records. -/
  records : List JournalRecord
  /-- The records, serialized. -/
  serialized : List UInt8

/-- `Journal::Impl`, with the device it writes to. -/
structure Journal where
  /-- `dev_size`: the size that the journal was given. -/
  devSize : ℕ
  /-- `data_size`: what of it is behind the superblock. -/
  dataSize : ℕ
  /-- `next_txn_id`. -/
  nextTxnId : UInt64
  /-- `active_txns_`. -/
  activeTxns : UInt64 → Option TxnBuffer
  /-- `superblock_`. -/
  superblock : JournalSuperBlock
  /-- `write_offset`. -/
  writeOffset : ℕ
  /-- The device. -/
  dev : Device

namespace Journal

/-- `write_superblock`. -/
def writeSuperblock (j : Journal) : Journal :=
  { j with dev := { j.dev with superblock := j.superblock } }

/-- `read_superblock`. -/
def readSuperblock (j : Journal) : Journal :=
  if j.dev.superblock.magic ≠ superBlockMagic then
    { j with superblock := { magic := superBlockMagic }, writeOffset := 0 }.writeSuperblock
  else { j with superblock := j.dev.superblock, writeOffset := j.dev.superblock.writeOffset }

/-- The constructor: it reads the superblock, or makes one. -/
def create (dev : Device) (devSize : ℕ) : Journal :=
  { devSize := devSize, dataSize := devSize - kSuperblockSize, nextTxnId := 1,
    activeTxns := fun _ => none, superblock := {}, writeOffset := 0, dev := dev :
    Journal }.readSuperblock

/-- The length of a transaction on the device: rounded up to `kTxnAlignment`, at least one. -/
def padded (len : ℕ) : ℕ :=
  let p := (len + kTxnAlignment - 1) / kTxnAlignment * kTxnAlignment
  if p = 0 then kTxnAlignment else p

/-- A transaction with its padding. -/
def pad (bl : List UInt8) : List UInt8 := bl ++ List.replicate (padded bl.length - bl.length) 0

/-- Where `pad_and_write` writes: at the write head, or at the start when it does not fit. -/
def writeStart (j : Journal) (n : ℕ) : ℕ :=
  if j.writeOffset + n > j.dataSize then 0 else j.writeOffset

/-- The device write of `pad_and_write` and the move of the write head. -/
def writeAt (j : Journal) (start : ℕ) (bl : List UInt8) : Bool × Journal :=
  match j.dev.write start bl with
  | none => (false, { j with writeOffset := start })
  | some dev =>
    let head := start + bl.length
    (true, { j with dev := dev, writeOffset := if head ≥ j.dataSize then 0 else head })

/-- `pad_and_write`: whether the write succeeded, and the journal after it. -/
def padAndWrite (j : Journal) (bl : List UInt8) : Bool × Journal :=
  j.writeAt (j.writeStart (pad bl).length) (pad bl)

/-- What `commit_txn` and `checkpoint` do with the outcome of `pad_and_write`: after a success
they write the superblock. -/
def afterWrite (superblock : Journal → Journal) (r : Bool × Journal) : Status × Journal :=
  if r.1 then (.ok, superblock r.2) else (.eio, r.2)

/-- `begin_txn`. -/
def beginTxn (j : Journal) : Journal :=
  { j with
    nextTxnId := j.nextTxnId + 1
    activeTxns := Function.update j.activeTxns j.nextTxnId
      (some ((j.activeTxns j.nextTxnId).getD ⟨[], []⟩)) }

/-- `append`. -/
def append (j : Journal) (id : UInt64) (r : JournalRecord) : Status × Journal :=
  match j.activeTxns id with
  | none => (.enoent, j)
  | some tb =>
    let r := { r with txnId := id }
    (.ok, { j with
      activeTxns := Function.update j.activeTxns id
        (some ⟨tb.records ++ [r], tb.serialized ++ serializeRecord r⟩) })

/-- BEGIN, what `commit_txn` or `checkpoint` puts between, and COMMIT with the checksum of the
records. -/
def frame (id : UInt64) (mark body : List UInt8) : List UInt8 :=
  serializeRecord { op := .txnBegin, txnId := id } ++ mark ++ body ++
    serializeRecord { op := .txnCommit, txnId := id, crc := recordsCrc body }

/-- The bytes of a committed transaction. -/
def txnBytes (id : UInt64) (body : List UInt8) : List UInt8 := frame id [] body

/-- The bytes of a checkpoint. -/
def checkpointBytes (body : List UInt8) : List UInt8 :=
  frame 0 (serializeRecord { op := .checkpoint }) body

/-- The superblock of `commit_txn`, written after the transaction. -/
def afterCommit (j : Journal) : Journal :=
  { j with superblock := { j.superblock with writeOffset := j.writeOffset } }.writeSuperblock

/-- `commit_txn`. -/
def commitTxn (j : Journal) (id : UInt64) : Status × Journal :=
  match j.activeTxns id with
  | none => (.enoent, j)
  | some tb =>
    afterWrite afterCommit
      ({ j with activeTxns := Function.update j.activeTxns id none }.padAndWrite
        (txnBytes id tb.serialized))

/-- The superblock of `checkpoint`, written after the checkpoint that starts at `ckptStart`. -/
def afterCheckpoint (ckptStart : ℕ) (j : Journal) : Journal :=
  { j with superblock := { j.superblock with
    checkpointOffset := ckptStart
    writeOffset := j.writeOffset
    checkpointSeqno := j.superblock.checkpointSeqno + 1 } }.writeSuperblock

/-- `checkpoint`. -/
def checkpoint (j : Journal) (fullState : List JournalRecord) : Status × Journal :=
  afterWrite (afterCheckpoint j.writeOffset)
    (j.padAndWrite (checkpointBytes (serializeRecords fullState)))

/-- `get_used_bytes`. -/
def getUsedBytes (j : Journal) : ℕ :=
  if j.writeOffset ≥ j.superblock.checkpointOffset then
    j.writeOffset - j.superblock.checkpointOffset
  else j.dataSize - j.superblock.checkpointOffset + j.writeOffset

/-! ## Recovery -/

/-- The loop of `recover` that reads the scan range in chunks. Every chunk but an empty one
shortens what remains, so `remaining` rounds are enough. -/
def readRange (j : Journal) : ℕ → ℕ → ℕ → List UInt8
  | 0, _, _ => []
  | fuel + 1, remaining, pos =>
    if remaining = 0 then []
    else
      let toRead := min kTxnAlignment remaining
      let toRead := if pos + toRead > j.dataSize then j.dataSize - pos else toRead
      if toRead = 0 then []
      else
        let pos' := pos + toRead
        j.dev.read pos toRead ++
          readRange j fuel (remaining - toRead) (if pos' ≥ j.dataSize then 0 else pos')

/-- The locals of the loop of `recover` that parses records. -/
structure Scan where
  /-- `result`. -/
  result : List JournalRecord := []
  /-- `current_txn`. -/
  currentTxn : List JournalRecord := []
  /-- `in_txn`. -/
  inTxn : Bool := false
  /-- `current_txn_id`. -/
  currentTxnId : UInt64 := 0
  deriving DecidableEq

/-- What the loop does with a record that is not padding. -/
def Scan.feed (st : Scan) (r : JournalRecord) : Scan :=
  match r.op with
  | .txnBegin => { st with inTxn := true, currentTxnId := r.txnId, currentTxn := [] }
  | .txnCommit =>
    { st with
      inTxn := false
      currentTxn := []
      result :=
        if st.inTxn ∧ r.txnId = st.currentTxnId ∧
            recordsCrc (serializeRecords st.currentTxn) = r.crc then st.result ++ st.currentTxn
        else st.result }
  | .checkpoint => st
  | _ => if st.inTxn then { st with currentTxn := st.currentTxn ++ [r] } else st

/-- The loop of `recover` over the buffer `full`, of which `p` is left; `none` is an exception.
Every round consumes something, so `full.length` rounds are enough. The offsets of a `bufferlist`
have 32 bits: this is the loop on less than 4 GiB. -/
def scan (full : List UInt8) : ℕ → List UInt8 → Scan → Option Scan
  | 0, _, st => some st
  | fuel + 1, p, st =>
    if p.length < 9 then some st
    else
      match deserializeRecord p with
      | none => none
      | some (r, rest) =>
        if r.op.code = 0 then
          let next := ((full.length - p.length) / kTxnAlignment + 1) * kTxnAlignment
          if next ≥ full.length then some st else scan full fuel (full.drop next) st
        else scan full fuel rest (st.feed r)

/-- `recover`; `none` is an exception. -/
def recover (j : Journal) : Option (List JournalRecord) :=
  let j := j.readSuperblock
  let start := j.superblock.checkpointOffset
  let stop := j.writeOffset
  if start = stop ∧ (stop ≠ 0 ∨ (j.dev.read 0 kTxnAlignment).all (· = 0)) then some []
  else
    let len := if stop ≥ start then stop - start else j.dataSize - start + stop
    let full := j.readRange len len start
    (scan full full.length full {}).map Scan.result

/-- The calls. -/
inductive Call where
  /-- `begin_txn`. -/
  | beginTxn
  /-- `append`. -/
  | append (id : UInt64) (r : JournalRecord)
  /-- `commit_txn`. -/
  | commitTxn (id : UInt64)
  /-- `checkpoint`. -/
  | checkpoint (fullState : List JournalRecord)

/-- The journal after a call that returns 0, or `none` when it does not. -/
def returned : Status × Journal → Option Journal
  | (.ok, j) => some j
  | _ => none

/-- A call that returns 0 (or, for `begin_txn`, an id). -/
def step (j : Journal) : Call → Option Journal
  | .beginTxn => some j.beginTxn
  | .append id r => returned (j.append id r)
  | .commitTxn id => returned (j.commitTxn id)
  | .checkpoint fullState => returned (j.checkpoint fullState)

end Journal

end CxxLab.Btier
