import CxxLab.Bluefs.Namespace
import CxxLab.Bluefs.Fnodes

/-!
# The log

`_flush_and_sync_log` of `bluefs/bluefs.cc` with the parts that it calls, and the loop of `_replay`
over the transactions. The log file is a list of transactions, one after the other, from its
beginning to `pos`; what a failed write has left behind `pos` is written over by the next one.
`_replay` reads up to the size that the superblock has for the log: a flush does not write it, only
`mkfs`, `sync_metadata` and `umount` do. The file operations are here as far as they change nodes:
what `_flush_range_F` writes to the devices is left out.
-/

namespace CxxLab.Bluefs

open Common

/-- A part of the log file, in whole blocks. -/
inductive Piece where
  /-- A transaction, of `length` bytes. -/
  | txn (length seq : ℕ) (ops : List LogOp)
  /-- The beginning of a transaction whose end is missing: its checksum does not match. -/
  | torn (length : ℕ)

/-- The bytes of a part of the log file. -/
def Piece.length : Piece → ℕ
  | .txn length _ _ => length
  | .torn length => length

/-- `log_seq` behind the records of a transaction, before it is incremented, and the size of the
log's node, which its own updates set; `none` where `_replay` gives an error. Nothing writes
`OP_JUMP`. -/
def seqAfter : ℕ → ℕ → List LogOp → Option (ℕ × ℕ)
  | logSeq, size, [] => some (logSeq, size)
  | _, _, .jump _ _ :: _ => none
  | logSeq, size, .jumpSeq nextSeq :: ops =>
    if nextSeq ≤ logSeq then none else seqAfter (nextSeq - 1) size ops
  | logSeq, size, .fileUpdate fnode :: ops =>
    seqAfter logSeq (if fnode.ino = 1 then fnode.size else size) ops
  | logSeq, size, .fileUpdateInc delta :: ops =>
    seqAfter logSeq (if delta.ino = 1 then delta.size else size) ops
  | logSeq, size, _ :: ops => seqAfter logSeq size ops

/-- The records have no jump, and none of the log itself. -/
def Plain (ops : List LogOp) : Prop :=
  ∀ logSeq size, seqAfter logSeq size ops = some (logSeq, size)

/-- The loop of `_replay` from `pos` on, where the log's node has the given size: the records of the
transactions that it reads, or its error. -/
def scan (seenRecs : Bool) : ℕ → ℕ → ℕ → List Piece → Except ℤ (List LogOp)
  | _, _, _, [] => .ok []
  | size, pos, logSeq, p :: rest =>
    if size ≤ pos then .ok []
    else
      match p with
      | .torn _ => if seenRecs then .ok [] else .error (-5)
      | .txn length seq ops =>
        if seq ≠ logSeq + 1 then if seq = logSeq then .ok [] else .error (-5)
        else
          match seqAfter logSeq size ops with
          | none => .error (-5)
          | some (logSeq, size) =>
            (scan true size (pos + length) (logSeq + 1) rest).map (ops ++ ·)

/-- The file system with its log. -/
structure LogFs where
  fs : Fs
  /-- `log_.seq_live`. -/
  seqLive : ℕ
  /-- `log_.writer->pos`. -/
  pos : ℕ
  /-- The log file up to `pos`. -/
  disk : List Piece

/-- The settings that the log depends on, and the lengths of records. -/
structure LogConfig where
  /-- `min_log_runway`. -/
  minLogRunway : ℕ
  /-- `max_log_runway`. -/
  maxLogRunway : ℕ
  /-- The length of encoded records. -/
  opsLength : List LogOp → ℕ
  /-- No records have no length. -/
  opsLength_nil : opsLength [] = 0

/-- The length of an encoded transaction: the frame, the identity, the number, the count of the
bytes of the records, and the checksum. -/
def LogConfig.encodedLength (c : LogConfig) (ops : List LogOp) : ℕ := 38 + c.opsLength ops

/-- What the devices do during a flush. -/
structure FlushEnv where
  /-- What `_allocate` gives for the log, if anything. -/
  alloc : Option (List Extent)
  /-- The writes to the devices succeed. -/
  writes : Bool

/-- A length with its padding to whole blocks. -/
def padded (length : ℕ) : ℕ := (length + 4095) / 4096 * 4096

namespace LogFs

/-- The node of the log file. -/
def logNode (b : LogFs) : Fnode := (b.fs.nodes.file 1).fnode

/-- `_consume_dirty`. -/
def consumeDirty (fs : Fs) (seq : ℕ) : Fs := (fs.dirty.files seq).foldl Fs.opFileUpdateInc fs

/-- The beginning of `_flush_and_sync_log`: the number is taken, and the dirty files are logged. -/
def takeSeq (b : LogFs) : LogFs :=
  { b with
    seqLive := b.seqLive + 1
    fs := consumeDirty { b.fs with dirty := { b.fs.dirty with seqLive := b.seqLive + 1 } } b.seqLive }

/-- Whether `_maybe_extend_log` finds enough room. -/
def HasRunway (c : LogConfig) (b : LogFs) : Prop :=
  b.pos + c.encodedLength b.fs.t + c.minLogRunway < b.logNode.allocated

instance (c : LogConfig) (b : LogFs) : Decidable (b.HasRunway c) :=
  inferInstanceAs (Decidable (_ < _))

/-- `_maybe_extend_log`; `none` when there is no space. -/
def maybeExtendLog (c : LogConfig) (env : FlushEnv) (b : LogFs) : Option LogFs :=
  if b.HasRunway c then some b
  else env.alloc.map fun es =>
    let f := b.fs.nodes.file 1
    let n := b.fs.nodes.setFile 1 { f with fnode := f.fnode.claimExtents es }
    { b with fs := { b.fs with nodes := n }.opFileUpdateInc 1 }

/-- `_flush_log_data` with the transaction that it is given: its code, and what is left. -/
def flushLogData (env : FlushEnv) (length seq : ℕ) (ops : List LogOp) (b : LogFs) : ℤ × LogFs :=
  let room := b.logNode.allocated - b.pos
  if 0 < room ∧ env.writes = false then (-5, b)
  else
    let pos := b.pos + min room length
    let f := b.fs.nodes.file 1
    let n := b.fs.nodes.setFile 1 { f with fnode := { f.fnode with size := max f.fnode.size pos } }
    let b := { b with fs := { b.fs with nodes := n }, pos := pos }
    if length ≤ room then (0, { b with disk := b.disk ++ [.txn length seq ops] })
    else (-28, { b with disk := if room = 0 then b.disk else b.disk ++ [.torn room] })

/-- The end of `_flush_and_sync_log`: the files of the number are stable. -/
def stabilize (b : LogFs) (seq : ℕ) : LogFs :=
  let d := b.fs.dirty
  let file ino :=
    let f := b.fs.nodes.file ino
    if ino ∈ d.files seq then { f with dirtySeq := 0 } else f
  { b with fs := { b.fs with
      nodes := { b.fs.nodes with file := file }
      dirty := { d with
        seqStable := seq, files := Function.update d.files seq [], pendingRelease := [] } } }

/-- `_flush_and_sync_log`: its code, or `none` where the assertion fails. -/
def flushAndSyncLog (c : LogConfig) (wantSeq : ℕ) (env : FlushEnv) (b : LogFs) :
    Option (ℤ × LogFs) :=
  if wantSeq ≠ 0 ∧ wantSeq ≤ b.fs.dirty.seqStable then some (0, b)
  else if b.fs.dirty.seqLive < wantSeq then none
  else
    let seq := b.seqLive
    match b.takeSeq.maybeExtendLog c env with
    | none => some (-28, b.takeSeq)
    | some b =>
      let ops := b.fs.t
      let b := { b with fs := { b.fs with t := [] } }
      let r := b.flushLogData env (padded (c.encodedLength ops)) seq ops
      if r.1 < 0 then some r else some (0, r.2.stabilize seq)

/-- The records that `_replay` reads, or its error, where the superblock has the given node of the
log. -/
def readLog (b : LogFs) (superLog : Fnode) : Except ℤ (List LogOp) :=
  scan false superLog.size 0 0 b.disk

end LogFs

/-! ## Files -/

namespace Fs

/-- What `_flush_range_F` does to the node of a file that it writes up to `stop`, where `_allocate`
has given `es`. -/
def flushRange (fs : Fs) (ino : ℕ) (es : List Extent) (stop : ℕ) : Fs :=
  let f := fs.nodes.file ino
  if f.deleted then fs
  else
    let fnode := f.fnode.claimExtents es
    let f' := { f with
      fnode := { fnode with size := max fnode.size stop }
      isDirty := f.isDirty || !es.isEmpty || decide (fnode.size < stop) }
    { fs with nodes := fs.nodes.setFile ino f' }

/-- The extents that `truncate` keeps, and those that it frees; `pos` is where the first begins. -/
def cutExtents (offset : ℕ) : ℕ → List Extent → List Extent × List Extent
  | _, [] => ([], [])
  | pos, e :: es =>
    let r := cutExtents offset (pos + e.length) es
    if pos < offset then
      let keep := min e.length (offset - pos)
      (⟨e.bdev, e.offset, keep⟩ :: r.1,
        if keep < e.length then ⟨e.bdev, e.offset + keep, e.length - keep⟩ :: r.2 else r.2)
    else (r.1, e :: r.2)

/-- `truncate`, of a file whose buffer is empty. -/
def truncate (fs : Fs) (ino offset : ℕ) : ℤ × Fs :=
  let f := fs.nodes.file ino
  if f.deleted then (0, fs)
  else if f.fnode.ino ≤ 1 then (-22, fs)
  else if f.fnode.size < offset then (-22, fs)
  else if offset = f.fnode.size then (0, fs)
  else
    let r := cutExtents offset 0 f.fnode.extents
    let fnode := { f.fnode with extents := [], extentsIndex := [], allocated := 0 }.claimExtents r.1
    let n := fs.nodes.setFile ino { f with fnode := { fnode with size := offset }, isDirty := true }
    (0, ({ fs with nodes := n }.release r.2).opFileUpdate ino)

/-- A file is among those of `dirty_.seq_live`. -/
def pushDirty (fs : Fs) (ino : ℕ) : Fs :=
  let d := fs.dirty
  { fs with
    nodes := fs.nodes.setFile ino { fs.nodes.file ino with dirtySeq := d.seqLive }
    dirty := { d with files := Function.update d.files d.seqLive (d.files d.seqLive ++ [ino]) } }

/-- `_signal_dirty_to_log`. -/
def signalDirtyToLog (fs : Fs) (ino : ℕ) : Fs :=
  let f := fs.nodes.file ino
  let d := fs.dirty
  if f.deleted then fs
  else
    let fs :=
      if d.seqStable < f.dirtySeq ∧ f.dirtySeq ≠ d.seqLive then
        let others := (d.files f.dirtySeq).filter (· ≠ ino)
        pushDirty { fs with dirty := { d with
          files := Function.update d.files f.dirtySeq others } } ino
      else if f.dirtySeq ≤ d.seqStable ∨ f.dirtySeq = 0 then fs.pushDirty ino
      else fs
    { fs with nodes := fs.nodes.setFile ino { fs.nodes.file ino with isDirty := false } }

/-- What `fsync` does between its flushes. -/
def fsyncDirty (fs : Fs) (ino : ℕ) : Fs :=
  if (fs.nodes.file ino).isDirty then
    let fs := fs.signalDirtyToLog ino
    { fs with nodes := fs.nodes.setFile ino { fs.nodes.file ino with isDirty := false } }
  else fs

end Fs

/-! ## Runs -/

/-- The operations on names and files, and the flushes of the log. -/
inductive LogAction where
  /-- An operation on names. -/
  | name (a : NameAction)
  /-- `_flush_range_F`. -/
  | flushRange (ino : ℕ) (es : List Extent) (stop : ℕ)
  /-- `truncate`. -/
  | truncate (ino offset : ℕ)
  /-- The middle of `fsync`. -/
  | fsync (ino : ℕ)
  /-- `_flush_and_sync_log`. -/
  | flush (wantSeq : ℕ) (env : FlushEnv)
  /-- `_write_super`, behind the flush of `sync_metadata` or `umount`. -/
  | writeSuper

/-- There can be a writer of a file: it is in `file_map`, or it was, and it is not the log. -/
def Fs.HasWriter (fs : Fs) (ino : ℕ) : Prop :=
  1 < ino ∧ (ino ∈ fs.nodes.fileMap ∨ (fs.nodes.file ino).deleted = true)

instance (fs : Fs) (ino : ℕ) : Decidable (fs.HasWriter ino) :=
  inferInstanceAs (Decidable (_ ∧ _))

/-- The file system, and what became of the flushes so far. -/
structure Flushed where
  bluefs : LogFs
  /-- `log_fnode` of the superblock. -/
  superLog : Fnode
  /-- A flush has failed. -/
  failed : Bool
  /-- A flush that failed has kept neither the records of `log_.t` nor their transaction. -/
  forgot : Bool

/-- A flush whose records are neither in `log_.t` nor in the log file afterwards. -/
def LogFs.forgets (c : LogConfig) (env : FlushEnv) (b b' : LogFs) : Bool :=
  match b.takeSeq.maybeExtendLog c env with
  | none => false
  | some b => b.fs.t ≠ [] ∧ b'.fs.t = []

namespace Flushed

/-- The same flushes, and other files. -/
def withFs (s : Flushed) (fs : Fs) : Flushed := { s with bluefs := { s.bluefs with fs := fs } }

/-- One operation; `none` where an assertion fails or there is no writer. -/
def step (c : LogConfig) (s : Flushed) : LogAction → Option Flushed
  | .name a => (s.bluefs.fs.nameStep a).map s.withFs
  | .flushRange ino es stop =>
    if s.bluefs.fs.HasWriter ino then some (s.withFs (s.bluefs.fs.flushRange ino es stop)) else none
  | .truncate ino offset =>
    if s.bluefs.fs.HasWriter ino then some (s.withFs (s.bluefs.fs.truncate ino offset).2) else none
  | .fsync ino =>
    if s.bluefs.fs.HasWriter ino then some (s.withFs (s.bluefs.fs.fsyncDirty ino)) else none
  | .writeSuper => some { s with superLog := s.bluefs.logNode }
  | .flush wantSeq env => (s.bluefs.flushAndSyncLog c wantSeq env).map fun r =>
    { s with
      bluefs := r.2
      failed := s.failed || decide (r.1 < (0 : ℤ))
      forgot := s.forgot || (decide (r.1 < (0 : ℤ)) && s.bluefs.forgets c env r.2) }

end Flushed

end CxxLab.Bluefs
