import CxxLab.Bluestore.DeferredLog

/-!
# One mount, with what its threads hand on

The pipeline of `TransContext.lean` over one mount, in smaller steps and with a record of what the
threads hand on. `queue_transactions` is two steps, since `_txc_create` puts the context on its
sequencer long before `_txc_state_proc` looks at it; each AIO of a context completes on its own,
and the last one runs the callback; and the finalize thread cleans up one context at a time.

The record is what the properties of the pipeline speak about: the contexts in the order of
`queue_new`, in the order of their pushes on `kv_queue_`, of their KV transactions, of
`_txc_committed_kv`, which hands their callbacks to the finisher, and of `_txc_release_alloc`,
which gives their space to the allocator before they are deleted.
-/

namespace CxxLab.Bluestore

/-- The pipeline of one mount. -/
structure Mount where
  /-- The state of the pipeline. -/
  store : Store
  /-- The number of AIOs that `aio_submit` started for a context. -/
  started : ℕ → ℕ
  /-- The number of them that have completed: `num_running` is the difference. -/
  finished : ℕ → ℕ
  /-- The contexts that `_deferred_replay` made, in the order of `queue_new`. -/
  restored : List ℕ
  /-- The contexts of client transactions, in the order of `queue_new`. -/
  submitted : List ℕ
  /-- The pushes on `kv_queue_`. -/
  entered : List ℕ
  /-- The KV transactions that were submitted. -/
  committed : List ℕ
  /-- The contexts whose `on_commits` were handed to the finisher. -/
  acked : List ℕ
  /-- The contexts whose space was given to the allocator. -/
  released : List ℕ

namespace Mount

/-- `mount` on the records that the store holds, up to the replay. -/
def start (kv : List (ℕ × DeferredRecord)) : Mount where
  store := { Store.init with phase := .replaying (kv.map Prod.snd), kv := kv }
  started := fun _ => 0
  finished := fun _ => 0
  restored := []
  submitted := []
  entered := []
  committed := []
  acked := []
  released := []

/-- `set_state`. -/
def setState (m : Mount) (x : ℕ) (st : TxcState) : Mount :=
  { m with store := m.store.setState x st }

/-- `_txc_finish_io`. -/
def finishIo (m : Mount) (x : ℕ) : Mount :=
  { m with
    store := m.store.finishIo x
    entered := m.entered ++ (m.store.ioDone x).ready x }

/-- `releasing` in `_txc_finish`: the done contexts at the front of the queue of `x`. -/
def releasing (s : Store) (x : ℕ) : List ℕ :=
  (s.osr (s.txc x).osr).q.takeWhile ((s.setState x .done).inState .done)

/-- `_txc_finish`, with `_txc_release_alloc` of what it takes off the queue. -/
def txcFinish (m : Mount) (x : ℕ) : Mount :=
  { m with
    store := m.store.txcFinish x
    released := m.released ++ releasing m.store x }

/-- `_txc_committed_kv`. -/
def txcCommittedKv (m : Mount) (x : ℕ) : Mount :=
  { m.setState x .kvDone with acked := m.acked ++ [x] }

/-- `STATE_KV_DONE` of `_txc_state_proc`. -/
def procKvDone (m : Mount) (x : ℕ) : Mount :=
  match (m.store.txc x).deferredTxn with
  | some d => { m with store := (m.store.setState x .deferredQueued).deferredEnqueue x d }
  | none => (m.setState x .finishing).txcFinish x

/-- `_txc_state_proc`. In `STATE_PREPARE` a context with AIOs starts them. -/
def txcStateProc (m : Mount) (x : ℕ) : Mount :=
  match (m.store.txc x).state with
  | .prepare => if 0 < m.started x then m.setState x .aioWait else m.finishIo x
  | .aioWait => m.finishIo x
  | .ioDone =>
    { m with store := m.store.kvEnqueue [x], entered := m.entered ++ [x] }
  | .kvSubmitted => (m.txcCommittedKv x).procKvDone x
  | .kvDone => m.procKvDone x
  | .deferredCleanup => (m.setState x .finishing).txcFinish x
  | .finishing => m.txcFinish x
  | .kvQueued | .deferredQueued | .deferredDone | .done => m

/-- A new context at the end of its sequencer's queue. -/
def queueNew (s : Store) (o : ℕ) (st : TxcState) (d : Option DeferredTxn) : Store :=
  { s with
    nextTxn := s.nextTxn + 1
    txc := Function.update s.txc s.nextTxn ⟨o, st, false, d⟩
    osr := Function.update s.osr o { s.osr o with q := (s.osr o).q ++ [s.nextTxn] } }

/-- `queue_transactions` after the context has its operations: a deferred transaction takes the
next sequence number, and the AIOs that the operations prepared are counted. -/
def prepared (m : Mount) (x aios : ℕ) (ops : Option DeferredOps) : Mount :=
  let seq := (m.store.deferredSeq + 1) % 2 ^ 64
  { m with
    store := { m.store with
      deferredSeq := if ops.isSome then seq else m.store.deferredSeq
      txc := Function.update m.store.txc x
        { m.store.txc x with
          pendingAios := 0 < aios
          deferredTxn := ops.map fun ops => ⟨seq, ops⟩ }
      outstanding := if ops.isSome then m.store.outstanding ++ [x] else m.store.outstanding }
    started := Function.update m.started x aios }

/-- The finalize thread takes the next context off the first stable batch. -/
def takeStable (s : Store) : Option (ℕ × Store) :=
  match s.finStable with
  | ⟨x :: xs, w⟩ :: bs => some (x, { s with finStable := ⟨xs, w⟩ :: bs })
  | _ => none

/-- The passes that hand nothing on. -/
def isPass : Action → Bool
  | .kvStart | .kvFlush | .kvTrySubmit | .kvStable | .kvRemove | .trySubmitSwap
  | .trySubmitOne _ | .batchAioFinish _ | .finStart => true
  | _ => false

end Mount

/-- The steps of the threads during one mount. -/
inductive MountAction where
  /-- `_deferred_replay` of the next record. -/
  | replayNext
  /-- The end of `mount`. -/
  | mountDone
  /-- `_txc_create` on a collection. -/
  | txcCreate (osr : ℕ)
  /-- The rest of `queue_transactions`, with the AIOs and the deferred operations that the
  transaction's operations prepared. -/
  | queueTransactions (x aios : ℕ) (ops : Option DeferredOps)
  /-- An AIO of a context completes. -/
  | aioDone (x : ℕ)
  /-- A pass of `TransContext.lean` that hands nothing on. -/
  | pass (a : Action)
  /-- The KV sync thread submits the next KV transaction. -/
  | kvSubmit
  /-- The finalize thread processes the next committed context. -/
  | finCommit
  /-- The finalize thread cleans up the next context of a stable batch. -/
  | finCleanup
  /-- The finalize thread deletes a stable batch that has no context left. -/
  | finDelete

namespace Mount

/-- One step of a mount. -/
def step (m : Mount) : MountAction → Option Mount
  | .replayNext =>
    match m.store.phase with
    | .replaying (r :: rest) =>
      let x := m.store.nextTxn
      let s := queueNew { m.store with phase := .replaying rest } 0 .kvDone (some r.txn)
      some ({ m with store := s, restored := m.restored ++ [x] }.txcStateProc x)
    | _ => none
  | .mountDone =>
    match m.store.phase with
    | .replaying [] => some { m with store := { m.store with phase := .up } }
    | _ => none
  | .txcCreate o =>
    match m.store.phase with
    | .up => some { m with
        store := queueNew m.store o .prepare none
        submitted := m.submitted ++ [m.store.nextTxn] }
    | _ => none
  | .queueTransactions x aios ops =>
    if x ∈ m.submitted ∧ (m.store.txc x).state = .prepare then
      some ((m.prepared x aios ops).txcStateProc x)
    else none
  | .aioDone x =>
    if m.finished x < m.started x then
      let m' := { m with finished := Function.update m.finished x (m.finished x + 1) }
      -- `num_running` reaches zero with the last AIO, and only that one runs the callback.
      some (if m'.finished x = m'.started x then m'.txcStateProc x else m')
    else none
  | .pass a =>
    if isPass a then (m.store.step a).map fun s => { m with store := s } else none
  | .kvSubmit =>
    match m.store.kvThread with
    | .submit committing (x :: rest) =>
      let m' := if (m.store.txc x).state = .kvQueued then
          { m with store := m.store.applyKv x, committed := m.committed ++ [x] }
        else m
      some { m' with store := { m'.store with kvThread := .submit committing rest } }
    | _ => none
  | .finCommit =>
    match m.store.finCommitted with
    | x :: xs => some ({ m with store := { m.store with finCommitted := xs } }.txcStateProc x)
    | [] => none
  | .finCleanup =>
    match m.store.finCommitted, takeStable m.store with
    | [], some (x, s) => some (({ m with store := s }.setState x .deferredCleanup).txcStateProc x)
    | _, _ => none
  | .finDelete =>
    match m.store.finCommitted, m.store.finStable with
    | [], ⟨[], _⟩ :: bs => some { m with store := { m.store with finStable := bs } }
    | _, _ => none

end Mount

end CxxLab.Bluestore
