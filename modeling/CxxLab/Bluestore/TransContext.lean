import CxxLab.Lib.Runs
import Mathlib.Tactic

/-!
# The transaction state machine and the deferred writer

The threads of `bluestore/bluestore.cc` and `bluestore/deferred_writer.cc` that move a
`TransContext` from `queue_transactions` to `_txc_finish`, as a step function: every critical
section of the source is one action, and a run is any interleaving of them. The actions are the
client's `queueTransactions`, the completion of a transaction's own AIOs, the passes of
`_kv_sync_thread_main`, the two halves of `DeferredWriter::try_submit` (whoever calls it), the
completion of a deferred batch, the passes of `_kv_finalize_thread_main`, and crash and mount.

A `TransContext` is named by a number that is never reused, so that a record of the store and the
context that replays it can be traced to the client transaction they come from. What the state
machine does not read is left out: the onodes, the allocation sets, and the bytes of direct AIOs.
`kv_queue_` and `kv_queue_unsubmitted_` receive the same pushes and are swapped together under
`kv_lock_`, so they are one list here; `deferred_stable_queue_` is only used inside one pass of
the KV sync thread, so it is a local of that pass. AIOs and flushes of the device succeed: a run has
crashes, but no completion with an error.
-/

namespace CxxLab.Bluestore

/-- `TransContext::state_t`, in the order of the source. -/
inductive TxcState where
  | prepare | aioWait | ioDone | kvQueued | kvSubmitted | kvDone | deferredQueued
  | deferredCleanup | deferredDone | finishing | done
  deriving DecidableEq, Repr

/-- The numeric value of a state, by which `_txc_finish_io` compares states. -/
def TxcState.rank : TxcState → ℕ
  | .prepare => 0
  | .aioWait => 1
  | .ioDone => 2
  | .kvQueued => 3
  | .kvSubmitted => 4
  | .kvDone => 5
  | .deferredQueued => 6
  | .deferredCleanup => 7
  | .deferredDone => 8
  | .finishing => 9
  | .done => 10

/-- `pextent_t`: a range of the device, or a hole of a blob when the offset is invalid. -/
structure PExtent where
  /-- The start on the device; `none` is `INVALID_OFFSET`. -/
  offset : Option ℕ
  /-- The length in bytes. -/
  length : ℕ
  deriving DecidableEq, Repr

/-- The `prepare_write` calls of one deferred operation: each valid extent takes its bytes from
the operation's data in order, until the data is used up. -/
def opWrites : List PExtent → List UInt8 → List (ℕ × List UInt8)
  | [], _ => []
  | e :: es, data =>
    match e.offset with
    | none => opWrites es data
    | some off =>
      if min e.length data.length = 0 then []
      else (off, data.take e.length) :: opWrites es (data.drop e.length)

/-- `bluestore_deferred_op_t`, as the write paths build it: some byte is to be written. -/
structure DeferredOp where
  /-- Where the data goes. -/
  extents : List PExtent
  /-- The bytes. -/
  data : List UInt8
  /-- The write paths make an operation only for data that goes somewhere. -/
  writes_ne : opWrites extents data ≠ []

/-- The operations of a `bluestore_deferred_transaction_t`. `_get_deferred_op` makes the
transaction together with its first operation, so there is always one. -/
structure DeferredOps where
  /-- The first operation. -/
  first : DeferredOp
  /-- The later operations, in the order in which they were added. -/
  rest : List DeferredOp

/-- The `prepare_write` calls that `DeferredWriter::queue` makes for a transaction. -/
def DeferredOps.writes (d : DeferredOps) : List (ℕ × List UInt8) :=
  (d.first :: d.rest).flatMap fun op => opWrites op.extents op.data

/-- `bluestore_deferred_transaction_t`: its sequence number and its operations. -/
structure DeferredTxn where
  /-- The number under which the record is stored. -/
  seq : ℕ
  /-- What is to be written. -/
  ops : DeferredOps

/-- `TransContext`: the fields that the state machine reads. -/
structure TransContext where
  /-- The sequencer, named by its collection. -/
  osr : ℕ
  /-- `state_`. -/
  state : TxcState
  /-- Whether the context has AIOs of its own that are not complete. -/
  pendingAios : Bool
  /-- `deferred_txn`. -/
  deferredTxn : Option DeferredTxn

/-- `DeferredBatch`: its transactions and the writes prepared for it, in the order of the
`prepare_write` calls. -/
structure DeferredBatch where
  /-- The transactions of the batch. -/
  txcs : List ℕ
  /-- The prepared writes. -/
  writes : List (ℕ × List UInt8)

/-- `OpSequencer`. -/
structure OpSequencer where
  /-- The transactions in submission order. -/
  q : List ℕ
  /-- `deferred_pending`. -/
  deferredPending : Option DeferredBatch
  /-- `deferred_running`. -/
  deferredRunning : Option DeferredBatch

/-- A sequencer as `Collection` creates it. -/
def OpSequencer.empty : OpSequencer := ⟨[], none, none⟩

/-- A record under `PREFIX_DEFERRED`: the encoded transaction, and the client transaction that
wrote it. -/
structure DeferredRecord where
  /-- The client transaction. -/
  owner : ℕ
  /-- The value of the record. -/
  txn : DeferredTxn

/-- Where the KV sync thread is in its pass, with its locals `committing` and `submitting`. -/
inductive KvThread where
  /-- Waiting for work. -/
  | idle
  /-- In the submit loop. -/
  | submit (committing submitting : List ℕ)
  /-- After `bdev_->flush()`. -/
  | flushed (committing : List ℕ)
  /-- After `try_submit`. -/
  | submitted (committing : List ℕ)
  /-- With the stable batches taken, before their records are removed. -/
  | stable (committing : List ℕ) (batches : List DeferredBatch)

/-- Whether the store is down, replaying the records it found, or serving. -/
inductive Phase where
  /-- Not mounted. -/
  | down
  /-- In `_deferred_replay`, with the records still to be replayed. -/
  | replaying (rest : List DeferredRecord)
  /-- Mounted. -/
  | up

/-- What happened, in order: the history that the properties of the deferred log speak about. -/
inductive Event where
  /-- The KV transaction of a deferred transaction was committed. -/
  | commit (txn : ℕ)
  /-- The device writes of the batch of a deferred transaction completed. -/
  | written (txn : ℕ)
  /-- `bdev_->flush()`. -/
  | flush
  /-- The record of a deferred transaction was removed from the store. -/
  | remove (txn : ℕ)
  /-- The process died. -/
  | crash
  deriving DecidableEq, Repr

/-- The state of the store's transaction pipeline. -/
structure Store where
  /-- `mounted_` and the progress of the replay. -/
  phase : Phase
  /-- The name of the next client transaction. -/
  nextTxn : ℕ
  /-- `deferred_seq_`. -/
  deferredSeq : ℕ
  /-- The contexts. -/
  txc : ℕ → TransContext
  /-- The sequencers. -/
  osr : ℕ → OpSequencer
  /-- `kv_queue_`. -/
  kvQueue : List ℕ
  /-- The KV sync thread. -/
  kvThread : KvThread
  /-- `deferred_queue_`. -/
  deferredQueue : List ℕ
  /-- The sequencers that callers of `try_submit` have taken and not yet looked at. -/
  submitting : List ℕ
  /-- `deferred_done_queue_`. -/
  doneQueue : List DeferredBatch
  /-- `kv_committing_to_finalize_`. -/
  committingToFinalize : List ℕ
  /-- `deferred_stable_to_finalize_`. -/
  stableToFinalize : List DeferredBatch
  /-- The finalize thread's local `committed`. -/
  finCommitted : List ℕ
  /-- The finalize thread's local `deferred_stable`. -/
  finStable : List DeferredBatch
  /-- The records under `PREFIX_DEFERRED`, in the order of their keys. -/
  kv : List (ℕ × DeferredRecord)
  /-- The deferred transactions that are outstanding: queued, and their record not yet removed. -/
  outstanding : List ℕ
  /-- The history. -/
  log : List Event
  /-- The history at the last mount. -/
  mountLog : List Event
  /-- The transactions that the last mount has re-applied, in order. -/
  replayed : List ℕ

/-- A context that no action has touched. -/
def TransContext.blank : TransContext := ⟨0, .prepare, false, none⟩

/-- The store after `mkfs` and the first mount. -/
def Store.init : Store where
  phase := .up
  nextTxn := 0
  deferredSeq := 0
  txc := fun _ => .blank
  osr := fun _ => .empty
  kvQueue := []
  kvThread := .idle
  deferredQueue := []
  submitting := []
  doneQueue := []
  committingToFinalize := []
  stableToFinalize := []
  finCommitted := []
  finStable := []
  kv := []
  outstanding := []
  log := []
  mountLog := []
  replayed := []

namespace Store

/-- The sequence number of a deferred transaction. -/
def seqOf (s : Store) (x : ℕ) : ℕ := ((s.txc x).deferredTxn.map DeferredTxn.seq).getD 0

/-- `set_state`. -/
def setState (s : Store) (x : ℕ) (st : TxcState) : Store :=
  { s with txc := Function.update s.txc x { s.txc x with state := st } }

/-- The context is in the given state. -/
def inState (s : Store) (st : TxcState) (x : ℕ) : Bool := (s.txc x).state = st

/-- `KeyValueDB` `set` under `PREFIX_DEFERRED`: the key is the big-endian sequence number, so keys
are ordered as numbers, and an equal key is overwritten. -/
def kvSet (k : ℕ) (r : DeferredRecord) : List (ℕ × DeferredRecord) → List (ℕ × DeferredRecord)
  | [] => [(k, r)]
  | e :: es =>
    if k < e.1 then (k, r) :: e :: es
    else if k = e.1 then (k, r) :: es
    else e :: kvSet k r es

/-- The walk of `_txc_finish_io` from `x` towards the front of its sequencer's queue: the
contexts in `IO_DONE` directly before `x`, or `none` when an earlier context still waits for IO.
The argument is the part of the queue before `x`, nearest first. -/
def walkBack (s : Store) : List ℕ → Option (List ℕ)
  | [] => some []
  | p :: ps =>
    if (s.txc p).state.rank < TxcState.ioDone.rank then none
    else if (s.txc p).state.rank > TxcState.ioDone.rank then some []
    else (walkBack s ps).map (p :: ·)

/-- The contexts that `_txc_finish_io` passes on to the KV queue, front first. -/
def ready (s : Store) (x : ℕ) : List ℕ :=
  let q := (s.osr (s.txc x).osr).q
  match s.walkBack (q.takeWhile (· ≠ x)).reverse with
  | none => []
  | some back => (back.reverse ++ q.dropWhile (· ≠ x)).takeWhile (s.inState .ioDone)

/-- `STATE_IO_DONE` of `_txc_state_proc`, for each context that is ready. -/
def kvEnqueue (s : Store) (xs : List ℕ) : Store :=
  { xs.foldl (fun s x => s.setState x .kvQueued) s with kvQueue := s.kvQueue ++ xs }

/-- The start of `_txc_finish_io`: the context's AIOs are released, and it is in `IO_DONE`. -/
def ioDone (s : Store) (x : ℕ) : Store :=
  { s with
    txc := Function.update s.txc x { s.txc x with state := .ioDone, pendingAios := false } }

/-- `_txc_finish_io`. -/
def finishIo (s : Store) (x : ℕ) : Store := (s.ioDone x).kvEnqueue ((s.ioDone x).ready x)

/-- `_txc_finish`: the context is done, and the done contexts at the front of the queue go. -/
def txcFinish (s : Store) (x : ℕ) : Store :=
  let s := s.setState x .done
  let o := (s.txc x).osr
  { s with
    osr := Function.update s.osr o
      { s.osr o with q := (s.osr o).q.dropWhile (s.inState .done) } }

/-- `DeferredWriter::queue`, up to its call of `try_submit`. -/
def deferredEnqueue (s : Store) (x : ℕ) (d : DeferredTxn) : Store :=
  let o := (s.txc x).osr
  let b := ((s.osr o).deferredPending).getD ⟨[], []⟩
  { s with
    osr := Function.update s.osr o
      { s.osr o with deferredPending := some ⟨b.txcs ++ [x], b.writes ++ d.ops.writes⟩ }
    deferredQueue :=
      if (s.osr o).deferredRunning.isNone then s.deferredQueue ++ [o] else s.deferredQueue }

/-- `DeferredWriter::flush_done` for the running batch `b` of sequencer `o`. -/
def flushDone (s : Store) (o : ℕ) (b : DeferredBatch) : Store :=
  { s with
    osr := Function.update s.osr o { s.osr o with deferredRunning := none }
    doneQueue := s.doneQueue ++ [b]
    deferredQueue :=
      if (s.osr o).deferredPending.isSome then s.deferredQueue ++ [o] else s.deferredQueue
    log := s.log ++ b.txcs.map .written }

/-- `STATE_KV_DONE` of `_txc_state_proc`. -/
def procKvDone (s : Store) (x : ℕ) : Store :=
  match (s.txc x).deferredTxn with
  | some d => (s.setState x .deferredQueued).deferredEnqueue x d
  | none => (s.setState x .finishing).txcFinish x

/-- `_txc_apply_kv`: the KV transaction is committed. A deferred transaction's record is part of
it. -/
def applyKv (s : Store) (x : ℕ) : Store :=
  let s := s.setState x .kvSubmitted
  match (s.txc x).deferredTxn with
  | some d => { s with kv := kvSet d.seq ⟨x, d⟩ s.kv, log := s.log ++ [.commit x] }
  | none => s

/-- The removal of the record of `x` by the KV sync thread: whatever record is stored under its
key goes. -/
def removeRecord (s : Store) (x : ℕ) : Store :=
  { s with
    kv := s.kv.filter (·.1 ≠ s.seqOf x)
    outstanding := s.outstanding.filter (· ≠ x)
    log := s.log ++ (s.kv.filter (·.1 = s.seqOf x)).map fun e => .remove e.2.owner }

/-- A context in `_kv_finalize_thread_main`'s loop over a stable batch. -/
def cleanup (s : Store) (x : ℕ) : Store :=
  ((s.setState x .deferredCleanup).setState x .finishing).txcFinish x

end Store

/-- The critical sections of the threads. -/
inductive Action where
  /-- `queue_transactions` on a collection, for a transaction with or without AIOs of its own and
  with or without deferred operations. -/
  | queueTransactions (osr : ℕ) (aios : Bool) (ops : Option DeferredOps)
  /-- The AIOs of a context complete (`txc_aio_finish`). -/
  | aioFinish (x : ℕ)
  /-- The KV sync thread takes the queue. -/
  | kvStart
  /-- It submits the next KV transaction. -/
  | kvSubmit
  /-- It flushes the device. -/
  | kvFlush
  /-- It calls `try_submit`. -/
  | kvTrySubmit
  /-- It takes the completed batches as stable. -/
  | kvStable
  /-- It removes the records of the stable batches and hands over to the finalize thread. -/
  | kvRemove
  /-- A caller of `try_submit` takes the queued sequencers. -/
  | trySubmitSwap
  /-- A caller of `try_submit` looks at one sequencer that it took. -/
  | trySubmitOne (osr : ℕ)
  /-- The AIOs of the running batch of a sequencer complete. -/
  | batchAioFinish (osr : ℕ)
  /-- The finalize thread takes its queues. -/
  | finStart
  /-- It processes the next committed context. -/
  | finCommit
  /-- It cleans up the next stable batch. -/
  | finStable
  /-- The process dies. -/
  | crash
  /-- `mount` up to the replay. -/
  | mount
  /-- The replay of the next record. -/
  | replayNext
  /-- The end of `mount`. -/
  | mountDone

namespace Store

/-- `queue_transactions`. -/
def queueTransactions (s : Store) (o : ℕ) (aios : Bool) (ops : Option DeferredOps) : Store :=
  let x := s.nextTxn
  let seq := (s.deferredSeq + 1) % 2 ^ 64
  let d := ops.map fun ops => ⟨seq, ops⟩
  let s := { s with
    nextTxn := x + 1
    deferredSeq := if ops.isSome then seq else s.deferredSeq
    txc := Function.update s.txc x ⟨o, .prepare, aios, d⟩
    osr := Function.update s.osr o { s.osr o with q := (s.osr o).q ++ [x] }
    outstanding := if ops.isSome then s.outstanding ++ [x] else s.outstanding }
  if aios then
    { s with txc := Function.update s.txc x ⟨o, .aioWait, true, d⟩ }
  else s.finishIo x

/-- `_deferred_replay` of one record: a context of collection 0 in `STATE_KV_DONE`. -/
def replay (s : Store) (r : DeferredRecord) : Store :=
  let s := { s with
    txc := Function.update s.txc r.owner ⟨0, .kvDone, false, some r.txn⟩
    osr := Function.update s.osr 0 { s.osr 0 with q := (s.osr 0).q ++ [r.owner] }
    replayed := s.replayed ++ [r.owner] }
  s.procKvDone r.owner

/-- The death of the process: the KV store survives, the memory does not. -/
def crash (s : Store) : Store :=
  { Store.init with
    phase := .down
    nextTxn := s.nextTxn
    txc := s.txc
    kv := s.kv
    outstanding := s.kv.map fun e => e.2.owner
    log := s.log ++ [.crash]
    mountLog := s.mountLog
    replayed := s.replayed }

/-- One step of the pipeline. -/
def step (s : Store) : Action → Option Store
  | .queueTransactions o aios ops =>
    match s.phase with
    | .up => some (s.queueTransactions o aios ops)
    | _ => none
  | .aioFinish x =>
    if (s.txc x).state = .aioWait ∧ x ∈ (s.osr (s.txc x).osr).q then some (s.finishIo x) else none
  | .kvStart =>
    match s.kvThread with
    | .idle =>
      if s.kvQueue = [] ∧ s.doneQueue.isEmpty then none
      else some { s with kvQueue := [], kvThread := .submit s.kvQueue s.kvQueue }
    | _ => none
  | .kvSubmit =>
    match s.kvThread with
    | .submit committing (x :: rest) =>
      let s' := if (s.txc x).state = .kvQueued then s.applyKv x else s
      some { s' with kvThread := .submit committing rest }
    | _ => none
  | .kvFlush =>
    match s.kvThread with
    | .submit committing [] =>
      some { s with kvThread := .flushed committing, log := s.log ++ [.flush] }
    | _ => none
  | .kvTrySubmit =>
    match s.kvThread with
    | .flushed committing =>
      some { s with
        kvThread := .submitted committing
        submitting := s.submitting ++ s.deferredQueue
        deferredQueue := [] }
    | _ => none
  | .kvStable =>
    match s.kvThread with
    | .submitted committing =>
      some { s with kvThread := .stable committing s.doneQueue, doneQueue := [] }
    | _ => none
  | .kvRemove =>
    match s.kvThread with
    | .stable committing batches =>
      let s' := (batches.flatMap DeferredBatch.txcs).foldl removeRecord s
      some { s' with
        kvThread := .idle
        committingToFinalize := s'.committingToFinalize ++ committing
        stableToFinalize := s'.stableToFinalize ++ batches }
    | _ => none
  | .trySubmitSwap =>
    some { s with submitting := s.submitting ++ s.deferredQueue, deferredQueue := [] }
  | .trySubmitOne o =>
    if o ∈ s.submitting then
      let s := { s with submitting := s.submitting.erase o }
      match (s.osr o).deferredPending, (s.osr o).deferredRunning with
      | some b, none =>
        let s := { s with
          osr := Function.update s.osr o
            { s.osr o with deferredPending := none, deferredRunning := some b } }
        some (if b.writes.isEmpty then s.flushDone o b else s)
      | _, _ => some s
    else none
  | .batchAioFinish o =>
    match (s.osr o).deferredRunning with
    | some b => some (s.flushDone o b)
    | none => none
  | .finStart =>
    if s.finCommitted = [] ∧ s.finStable.isEmpty then
      some { s with
        finCommitted := s.committingToFinalize
        finStable := s.stableToFinalize
        committingToFinalize := []
        stableToFinalize := [] }
    else none
  | .finCommit =>
    match s.finCommitted with
    | x :: xs =>
      let s := { s with finCommitted := xs }
      some (if (s.txc x).state = .kvSubmitted then (s.setState x .kvDone).procKvDone x else s)
    | [] => none
  | .finStable =>
    match s.finCommitted, s.finStable with
    | [], b :: bs => some (b.txcs.foldl cleanup { s with finStable := bs })
    | _, _ => none
  | .crash => some s.crash
  | .mount =>
    match s.phase with
    | .down =>
      some { s with
        phase := .replaying (s.kv.map Prod.snd)
        mountLog := s.log
        replayed := [] }
    | _ => none
  | .replayNext =>
    match s.phase with
    | .replaying (r :: rest) => some { s.replay r with phase := .replaying rest }
    | _ => none
  | .mountDone =>
    match s.phase with
    | .replaying [] => some { s with phase := .up }
    | _ => none

end Store

end CxxLab.Bluestore
