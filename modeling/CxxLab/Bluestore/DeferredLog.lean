import CxxLab.Bluestore.TransContext
import Mathlib.Data.List.Nodup
import Mathlib.Data.List.TakeWhile
import Mathlib.Tactic

/-!
# The deferred write log

What the `PREFIX_DEFERRED` records are for: an acknowledged overwrite whose data is only in the KV
store must survive a crash until the data is on the device. `DeferredLogSafe` says it for one
state: a record was only removed after its transaction's writes completed and a later flush
covered them, the outstanding transactions have distinct keys, and a finished mount has re-applied
exactly the records that were committed and not removed, in commit order.

The code does not keep this in every run: the counter of the keys restarts after a crash, a batch
that completes between the flush and `flush_done_to_stable` is taken for flushed, and keys are
given out before the order of commits is known. `DeferredLogOk` names the three situations on the
state before a step, and `deferred_log_safe` proves that every run that avoids them is safe. As in the
state machine, AIOs and flushes of the device succeed.
-/

namespace CxxLab.Bluestore

/-! ## The history -/

/-- The transaction that an event commits. -/
def Event.committed? : Event → Option ℕ
  | .commit x => some x
  | _ => none

/-- The deferred transactions committed and not removed, in commit order. -/
def present (log : List Event) : List ℕ :=
  (log.filterMap Event.committed?).filter fun x => .remove x ∉ log

/-- The writes of `x` completed, and the process has not died since. -/
def WrittenSince (x : ℕ) (log : List Event) : Prop :=
  ∃ a b, log = a ++ .written x :: b ∧ .crash ∉ b

/-- The writes of `x` completed, and a flush came after them in the same life of the process. -/
def FlushedAfter (x : ℕ) (log : List Event) : Prop :=
  ∃ a b c, log = a ++ .written x :: (b ++ .flush :: c) ∧ .crash ∉ b

/-- Every removal of a record came after the flush of its transaction's data. -/
def RemovedAfterFlush (log : List Event) : Prop :=
  ∀ a x b, log = a ++ .remove x :: b → FlushedAfter x a

/-- No two outstanding deferred transactions share a key. -/
def KeysDistinct (s : Store) : Prop :=
  ∀ x ∈ s.outstanding, ∀ y ∈ s.outstanding, s.seqOf x = s.seqOf y → x = y

/-- A finished mount has re-applied the records that it found, all of them and in commit order. -/
def ReplayedInOrder (s : Store) : Prop :=
  s.phase = .up → s.replayed = present s.mountLog

/-- The deferred log does its work. -/
structure DeferredLogSafe (s : Store) : Prop where
  /-- Records go only after the data is durable. -/
  removed : RemovedAfterFlush s.log
  /-- Keys of outstanding transactions are distinct. -/
  keys : KeysDistinct s
  /-- A mount re-applies what is there, in commit order. -/
  replayed : ReplayedInOrder s

/-- A transaction whose KV transaction is not committed yet. -/
def Store.uncommitted (s : Store) (x : ℕ) : Prop := (s.txc x).state.rank ≤ TxcState.kvQueued.rank

/-- The KV sync thread is between its flush and `flush_done_to_stable`. -/
def KvThread.afterFlush : KvThread → Prop
  | .flushed _ => True
  | .submitted _ => True
  | _ => False

/-- The situations in which the code keeps the deferred log safe: a deferred transaction is queued
only while the counter is past every outstanding key, deferred transactions are committed in the
order of their keys, and no batch completes between the flush of a KV sync pass and its
`flush_done_to_stable`. -/
def DeferredLogOk (s : Store) : Action → Prop
  | .queueTransactions _ _ (some _) =>
    ∀ x ∈ s.outstanding, s.seqOf x < (s.deferredSeq + 1) % 2 ^ 64
  | .kvSubmit =>
    match s.kvThread with
    | .submit _ (x :: _) => (s.txc x).deferredTxn.isSome →
      ∀ y ∈ s.outstanding, s.uncommitted y → y ≠ x → s.seqOf x < s.seqOf y
    | _ => True
  | .batchAioFinish _ => ¬ s.kvThread.afterFlush
  | _ => True

instance (s : Store) (x : ℕ) : Decidable (s.uncommitted x) :=
  inferInstanceAs (Decidable (_ ≤ _))

instance (k : KvThread) : Decidable k.afterFlush :=
  match k with
  | .flushed _ | .submitted _ => isTrue trivial
  | .idle | .submit _ _ | .stable _ _ => isFalse not_false

instance (s : Store) (a : Action) : Decidable (DeferredLogOk s a) := by
  unfold DeferredLogOk
  split
  · infer_instance
  · split <;> infer_instance
  · infer_instance
  · infer_instance

/-! ## Facts about the history -/

/-- Without a history no record is present. -/
@[simp] theorem present_nil : present [] = [] := rfl

/-- A commit of a transaction whose record was never removed comes last. -/
theorem present_commit {log : List Event} {x : ℕ} (h : .remove x ∉ log) :
    present (log ++ [.commit x]) = present log ++ [x] := by
  simp [present, Event.committed?, List.filterMap_append, h]

/-- Events that neither commit nor remove leave the present records as they are. -/
theorem present_append_of {log es : List Event} (h : ∀ e ∈ es, (∀ x, e ≠ .commit x) ∧
    ∀ x, e ≠ .remove x) : present (log ++ es) = present log := by
  have hc : es.filterMap Event.committed? = [] := by
    rw [List.filterMap_eq_nil_iff]
    intro e he
    cases e with
    | commit x => exact absurd rfl ((h _ he).1 x)
    | _ => rfl
  have hr : ∀ x, Event.remove x ∉ es := fun x hx => (h _ hx).2 x rfl
  simp [present, hc, hr]

/-- A removal takes its transaction out of the present records. -/
theorem present_remove (log : List Event) (x : ℕ) :
    present (log ++ [.remove x]) = (present log).filter (· ≠ x) := by
  have hc : (log ++ [Event.remove x]).filterMap Event.committed? =
      log.filterMap Event.committed? := by
    simp [Event.committed?]
  unfold present
  rw [hc, List.filter_filter]
  apply List.filter_congr
  intro y _
  by_cases hy : y = x <;> simp [hy]

/-- A completed write stays one while the process lives. -/
theorem WrittenSince.append {x : ℕ} {log es : List Event} (h : WrittenSince x log)
    (he : .crash ∉ es) : WrittenSince x (log ++ es) := by
  obtain ⟨a, b, rfl, hb⟩ := h
  exact ⟨a, b ++ es, by simp, by simp [hb, he]⟩

/-- A flushed write stays one. -/
theorem FlushedAfter.append {x : ℕ} {log : List Event} (h : FlushedAfter x log)
    (es : List Event) : FlushedAfter x (log ++ es) := by
  obtain ⟨a, b, c, rfl, hb⟩ := h
  exact ⟨a, b, c ++ es, by simp, hb⟩

/-- A flush covers the writes completed before it. -/
theorem WrittenSince.flush {x : ℕ} {log : List Event} (h : WrittenSince x log) :
    FlushedAfter x (log ++ [.flush]) := by
  obtain ⟨a, b, rfl, hb⟩ := h
  exact ⟨a, b, [], by simp, hb⟩

/-- A batch's completion writes each of its transactions. -/
theorem writtenSince_map {x : ℕ} {xs : List ℕ} (log : List Event) (hx : x ∈ xs) :
    WrittenSince x (log ++ xs.map .written) := by
  obtain ⟨a, b, rfl⟩ := List.append_of_mem hx
  exact ⟨log ++ a.map .written, b.map .written, by simp, by simp⟩

/-- Appending one event keeps the order of removals, when a removal finds its data flushed. -/
theorem RemovedAfterFlush.snoc {log : List Event} {e : Event} (h : RemovedAfterFlush log)
    (he : ∀ x, e = .remove x → FlushedAfter x log) : RemovedAfterFlush (log ++ [e]) := by
  intro a x b hab
  rcases List.eq_nil_or_concat b with rfl | ⟨b', e', rfl⟩
  · have := List.append_inj' (hab.trans (by simp : _ = a ++ [Event.remove x])) rfl
    obtain ⟨rfl, h1⟩ := this
    exact he x (by simpa using h1)
  · have hab' : log ++ [e] = (a ++ .remove x :: b') ++ [e'] := by rw [hab]; simp
    obtain ⟨hl, -⟩ := List.append_inj' hab' rfl
    exact h a x b' hl

/-- Appending events that are not removals keeps the order of removals. -/
theorem RemovedAfterFlush.append {log es : List Event} (h : RemovedAfterFlush log)
    (he : ∀ e ∈ es, ∀ x, e ≠ .remove x) : RemovedAfterFlush (log ++ es) := by
  induction es generalizing log with
  | nil => simpa using h
  | cons e es ih =>
    have hs := h.snoc (e := e) fun x hx => absurd hx (he e (by simp) x)
    have := ih hs fun e' he' => he e' (List.mem_cons_of_mem _ he')
    simpa using this

/-- Appending removals of one transaction keeps the order of removals, when its data is
flushed. -/
theorem RemovedAfterFlush.append_removes {log es : List Event} {x : ℕ}
    (h : RemovedAfterFlush log) (he : ∀ e ∈ es, e = .remove x) (hf : FlushedAfter x log) :
    RemovedAfterFlush (log ++ es) := by
  induction es generalizing log with
  | nil => simpa using h
  | cons e es ih =>
    have hs := h.snoc (e := e) fun y hy => by
      have := (he e (by simp)).symm.trans hy
      simp only [Event.remove.injEq] at this
      exact this ▸ hf
    have := ih hs (fun e' he' => he e' (List.mem_cons_of_mem _ he')) (hf.append _)
    simpa using this

/-- Removals of one transaction, if there are any, take it out of the present records. -/
theorem present_removes {log es : List Event} {x : ℕ} (he : ∀ e ∈ es, e = .remove x)
    (hnil : es = [] → x ∉ present log) :
    present (log ++ es) = (present log).filter (· ≠ x) := by
  induction es generalizing log with
  | nil =>
    rw [List.append_nil, eq_comm, List.filter_eq_self]
    intro y hy
    simpa using fun hyx : y = x => hnil rfl (hyx ▸ hy)
  | cons e es ih =>
    obtain rfl := he e (by simp)
    rw [List.append_cons, ih (fun e' he' => he e' (List.mem_cons_of_mem _ he')),
      present_remove, List.filter_filter]
    · simp
    · intro _ hx
      rw [present_remove] at hx
      simpa using (List.mem_filter.mp hx).2

/-! ## The invariant -/

/-- The transactions that the KV sync thread has taken. -/
def KvThread.committing : KvThread → List ℕ
  | .idle => []
  | .submit c _ => c
  | .flushed c => c
  | .submitted c => c
  | .stable c _ => c

/-- The transactions that the KV sync thread has taken and not submitted. -/
def KvThread.unsubmitted : KvThread → List ℕ
  | .submit _ r => r
  | _ => []

/-- The batches that the KV sync thread holds as stable. -/
def KvThread.batches : KvThread → List DeferredBatch
  | .stable _ b => b
  | _ => []

/-- The transactions of a batch that may be absent. -/
def batchTxcs (b : Option DeferredBatch) : List ℕ := (b.map DeferredBatch.txcs).getD []

/-- The transactions of a list of batches. -/
def allTxcs (bs : List DeferredBatch) : List ℕ := bs.flatMap DeferredBatch.txcs

namespace Store

/-- The transactions between `IO_DONE` and the finalize thread. -/
def commitPipe (s : Store) : List ℕ :=
  s.kvQueue ++ s.kvThread.committing ++ s.committingToFinalize ++ s.finCommitted

/-- The transactions of the batches of sequencer `o` and of the completed batches whose records
are still in the store. -/
def activeBatches (s : Store) (o : ℕ) : List ℕ :=
  batchTxcs (s.osr o).deferredPending ++ batchTxcs (s.osr o).deferredRunning ++
    allTxcs s.doneQueue ++ allTxcs s.kvThread.batches

/-- The transactions of all batches that sequencer `o` may meet. -/
def batchPipe (s : Store) (o : ℕ) : List ℕ :=
  s.activeBatches o ++ allTxcs s.stableToFinalize ++ allTxcs s.finStable

/-- The records that a running replay has not re-applied yet. -/
def toReplay (s : Store) : List DeferredRecord :=
  match s.phase with
  | .replaying rest => rest
  | _ => []

end Store

/-- The invariant of the pipeline: where a transaction is decides its state, no transaction is in
two places, and the store holds exactly the records of the present transactions. -/
structure PipeInv (s : Store) : Prop where
  /-- A sequencer's queue has no transaction twice. -/
  q_nodup : ∀ o, (s.osr o).q.Nodup
  /-- A queued transaction exists, and is queued on its own sequencer. -/
  q_mem : ∀ o, ∀ x ∈ (s.osr o).q, x < s.nextTxn ∧ (s.txc x).osr = o
  /-- A deferred transaction that has not reached the KV queue is outstanding. -/
  q_outstanding : ∀ o, ∀ x ∈ (s.osr o).q, (s.txc x).state.rank ≤ TxcState.ioDone.rank →
    (s.txc x).deferredTxn.isSome → x ∈ s.outstanding
  /-- What the KV sync thread has not submitted is the rest of what it took. -/
  unsubmitted : s.kvThread.unsubmitted <:+ s.kvThread.committing
  /-- No transaction is twice on the way through the KV threads. -/
  commit_nodup : s.commitPipe.Nodup
  /-- A transaction waiting for its KV transaction is in `KV_QUEUED`. -/
  commit_queued : ∀ x ∈ s.kvQueue ++ s.kvThread.unsubmitted, (s.txc x).state = .kvQueued
  /-- The other transactions on the way through the KV threads are in `KV_SUBMITTED`. -/
  commit_state : ∀ x ∈ s.commitPipe, x ∉ s.kvQueue ++ s.kvThread.unsubmitted →
    (s.txc x).state = .kvSubmitted
  /-- It exists, and is outstanding when it is deferred. -/
  commit_mem : ∀ x ∈ s.commitPipe, x < s.nextTxn ∧
    ((s.txc x).deferredTxn.isSome → x ∈ s.outstanding)
  /-- No transaction is in two batches. -/
  batch_nodup : ∀ o, (s.batchPipe o).Nodup
  /-- A transaction in a batch is a deferred one in `DEFERRED_QUEUED`. -/
  batch_state : ∀ o, ∀ x ∈ s.batchPipe o, (s.txc x).state = .deferredQueued ∧ x < s.nextTxn
  /-- Pending and running batches hold transactions of their own sequencer. -/
  batch_osr : ∀ o, ∀ x ∈ batchTxcs (s.osr o).deferredPending ++
    batchTxcs (s.osr o).deferredRunning, (s.txc x).osr = o
  /-- While its record is in the store, a transaction in a batch is outstanding. -/
  batch_outstanding : ∀ o, ∀ x ∈ s.activeBatches o, x ∈ s.outstanding
  /-- A pending or running batch has something to write. -/
  batch_writes : ∀ o b, (s.osr o).deferredPending = some b ∨ (s.osr o).deferredRunning = some b →
    b.writes ≠ []
  /-- Outstanding transactions exist. -/
  outstanding_lt : ∀ x ∈ s.outstanding, x < s.nextTxn
  /-- A stored record is that of an outstanding, committed transaction, under its own key. -/
  kv_mem : ∀ e ∈ s.kv, e.2.owner ∈ s.outstanding ∧
    (s.txc e.2.owner).deferredTxn = some e.2.txn ∧ e.2.txn.seq = e.1 ∧
    TxcState.kvSubmitted.rank ≤ (s.txc e.2.owner).state.rank
  /-- The store is ordered by key. -/
  kv_sorted : s.kv.Pairwise fun e f => e.1 < f.1
  /-- Stored keys are below those of the transactions that are still to be committed. -/
  kv_lt : ∀ e ∈ s.kv, ∀ y ∈ s.outstanding, s.uncommitted y → e.1 < s.seqOf y
  /-- The store holds the present records, in commit order. -/
  kv_present : s.kv.map (fun e => e.2.owner) = present s.log
  /-- A removed transaction is not outstanding. -/
  removed_mem : ∀ x, .remove x ∈ s.log → x ∉ s.outstanding ∧ x < s.nextTxn
  /-- Completed batches are written. -/
  done_written : ∀ x ∈ allTxcs s.doneQueue, WrittenSince x s.log
  /-- After the flush of a pass, completed batches are flushed. -/
  done_flushed : s.kvThread.afterFlush → ∀ x ∈ allTxcs s.doneQueue, FlushedAfter x s.log
  /-- Stable batches are flushed. -/
  stable_flushed : ∀ x ∈ allTxcs s.kvThread.batches, FlushedAfter x s.log
  /-- The re-applied records and those still to be re-applied are what the mount found. -/
  replay_present : s.phase ≠ .down →
    s.replayed ++ s.toReplay.map DeferredRecord.owner = present s.mountLog
  /-- A record to be re-applied is in the store, and its transaction is nowhere in memory. -/
  replay_mem : ∀ r ∈ s.toReplay, (∃ k, (k, r) ∈ s.kv) ∧ r.owner ∉ s.commitPipe ∧
    ∀ o, r.owner ∉ (s.osr o).q ∧ r.owner ∉ s.batchPipe o
  /-- No record is to be re-applied twice. -/
  replay_nodup : (s.toReplay.map DeferredRecord.owner).Nodup
  /-- While the store is down, nothing is in memory. -/
  down : s.phase = .down → s.commitPipe = [] ∧ ∀ o, (s.osr o).q = [] ∧ s.batchPipe o = []
  /-- The properties of the deferred log. -/
  keys : KeysDistinct s
  /-- Records go only after the data is durable. -/
  removed : RemovedAfterFlush s.log

/-- The invariant gives the properties of the deferred log. -/
theorem PipeInv.safe {s : Store} (h : PipeInv s) : DeferredLogSafe s where
  removed := h.removed
  keys := h.keys
  replayed hup := by
    have := h.replay_present (by rw [hup]; simp)
    simpa [Store.toReplay, hup] using this

/-- The invariant holds after the first mount. -/
theorem pipeInv_init : PipeInv Store.init := by
  constructor <;>
    simp [Store.init, OpSequencer.empty, Store.commitPipe, Store.batchPipe, Store.activeBatches,
      KvThread.committing, KvThread.unsubmitted, KvThread.batches, batchTxcs, allTxcs,
      Store.toReplay, KeysDistinct, RemovedAfterFlush, KvThread.afterFlush]

/-! ## The passes that only move queues -/

/-- `s'` differs from `s` in its queues only, and `es` is what the move logged. -/
def MovedQueues (s s' : Store) (es : List Event) : Prop :=
  s' = { s with
    kvQueue := s'.kvQueue
    kvThread := s'.kvThread
    deferredQueue := s'.deferredQueue
    submitting := s'.submitting
    doneQueue := s'.doneQueue
    committingToFinalize := s'.committingToFinalize
    stableToFinalize := s'.stableToFinalize
    finCommitted := s'.finCommitted
    finStable := s'.finStable
    log := s.log ++ es }

/-- A part of a list without duplicates, in any order, has none. -/
theorem nodup_of_subperm {α : Type*} {l l' : List α} (h : l.Subperm l') (hn : l'.Nodup) :
    l.Nodup := by
  obtain ⟨m, hp, hs⟩ := h
  exact hp.nodup_iff.mp (hn.sublist hs)

/-- A move of queues keeps the invariant when it doubles nothing, submits nothing, and takes
batches as stable only when they are flushed. -/
theorem PipeInv.move {s s' : Store} (h : PipeInv s) (es : List Event) (hs : MovedQueues s s' es)
    (hes : ∀ e ∈ es, e = .flush)
    (hsuf : s'.kvThread.unsubmitted <:+ s'.kvThread.committing)
    (hq : s'.kvQueue ++ s'.kvThread.unsubmitted = s.kvQueue ++ s.kvThread.unsubmitted)
    (hc : s'.commitPipe.Subperm s.commitPipe) (hb : ∀ o, (s'.batchPipe o).Subperm (s.batchPipe o))
    (ha : ∀ o, ∀ x ∈ s'.activeBatches o, x ∈ s.activeBatches o)
    (hd : ∀ x ∈ allTxcs s'.doneQueue, x ∈ allTxcs s.doneQueue)
    (hf : s'.kvThread.afterFlush → ∀ x ∈ allTxcs s'.doneQueue, FlushedAfter x s'.log)
    (hst : ∀ x ∈ allTxcs s'.kvThread.batches, FlushedAfter x s'.log) : PipeInv s' := by
  -- The events add neither a crash nor a removal.
  have hcrash : Event.crash ∉ es := fun he => by simpa using hes _ he
  have hlog : s'.log = s.log ++ es := by rw [hs]
  have hpres : present s'.log = present s.log := by
    rw [hlog]
    exact present_append_of fun e he => by simp [hes e he]
  have hrem : ∀ x, Event.remove x ∈ s'.log → Event.remove x ∈ s.log := by
    intro x hx
    rw [hlog, List.mem_append] at hx
    rcases hx with hx | hx
    · exact hx
    · simpa using hes _ hx
  -- Nothing but the queues has moved.
  have hosr : s'.osr = s.osr := by rw [hs]
  have htxc : s'.txc = s.txc := by rw [hs]
  have hkv : s'.kv = s.kv := by rw [hs]
  have hout : s'.outstanding = s.outstanding := by rw [hs]
  have hnext : s'.nextTxn = s.nextTxn := by rw [hs]
  have hphase : s'.phase = s.phase := by rw [hs]
  have hml : s'.mountLog = s.mountLog := by rw [hs]
  have hrp : s'.replayed = s.replayed := by rw [hs]
  have hseq : ∀ x, s'.seqOf x = s.seqOf x := fun x => by rw [Store.seqOf, Store.seqOf, htxc]
  have hunc : ∀ x, s'.uncommitted x ↔ s.uncommitted x := fun x => by
    rw [Store.uncommitted, Store.uncommitted, htxc]
  have htr : s'.toReplay = s.toReplay := by rw [Store.toReplay, Store.toReplay, hphase]
  -- So of the invariant only what speaks of the queues has to be shown.
  constructor
  case q_nodup => rw [hosr]; exact h.q_nodup
  case q_mem => rw [hosr, hnext, htxc]; exact h.q_mem
  case q_outstanding => rw [hosr, htxc, hout]; exact h.q_outstanding
  case unsubmitted => exact hsuf
  case commit_nodup => exact nodup_of_subperm hc h.commit_nodup
  case commit_queued => rw [htxc, hq]; exact h.commit_queued
  case commit_state => rw [htxc, hq]; exact fun x hx => h.commit_state x (hc.subset hx)
  case commit_mem => rw [htxc, hnext, hout]; exact fun x hx => h.commit_mem x (hc.subset hx)
  case batch_nodup => exact fun o => nodup_of_subperm (hb o) (h.batch_nodup o)
  case batch_state => rw [htxc, hnext]; exact fun o x hx => h.batch_state o x ((hb o).subset hx)
  case batch_osr => rw [hosr, htxc]; exact h.batch_osr
  case batch_outstanding => rw [hout]; exact fun o x hx => h.batch_outstanding o x (ha o x hx)
  case batch_writes => rw [hosr]; exact h.batch_writes
  case outstanding_lt => rw [hout, hnext]; exact h.outstanding_lt
  case kv_mem => rw [hkv, hout, htxc]; exact h.kv_mem
  case kv_sorted => rw [hkv]; exact h.kv_sorted
  case kv_lt =>
    rw [hkv, hout]
    intro e he y hy hu
    rw [hseq]
    exact h.kv_lt e he y hy ((hunc y).mp hu)
  case kv_present => rw [hkv, hpres]; exact h.kv_present
  case removed_mem => rw [hout, hnext]; exact fun x hx => h.removed_mem x (hrem x hx)
  case done_written =>
    intro x hx
    rw [hlog]
    exact (h.done_written x (hd x hx)).append hcrash
  case done_flushed => exact hf
  case stable_flushed => exact hst
  case replay_present => rw [hphase, hrp, hml, htr]; exact h.replay_present
  case replay_mem =>
    rw [htr, hkv, hosr]
    intro r hr
    obtain ⟨h1, h2, h3⟩ := h.replay_mem r hr
    exact ⟨h1, fun hm => h2 (hc.subset hm),
      fun o => ⟨(h3 o).1, fun hm => (h3 o).2 ((hb o).subset hm)⟩⟩
  case replay_nodup => rw [htr]; exact h.replay_nodup
  case down =>
    rw [hphase, hosr]
    intro hp
    obtain ⟨h1, h2⟩ := h.down hp
    exact ⟨List.subset_nil.mp (h1 ▸ hc.subset),
      fun o => ⟨(h2 o).1, List.subset_nil.mp ((h2 o).2 ▸ (hb o).subset)⟩⟩
  case keys =>
    intro x hx y hy hxy
    rw [hseq, hseq] at hxy
    rw [hout] at hx hy
    exact h.keys x hx y hy hxy
  case removed =>
    rw [hlog]
    exact h.removed.append fun e he x hx => by simpa [hx] using hes e he

/-- The KV sync thread takes the queue. -/
theorem pipeInv_kvStart {s : Store} (h : PipeInv s) (hk : s.kvThread = .idle) :
    PipeInv { s with kvQueue := [], kvThread := .submit s.kvQueue s.kvQueue } := by
  apply h.move []
  · simp [MovedQueues]
  · simp
  · exact List.suffix_refl _
  · simp [KvThread.unsubmitted, hk]
  · simp [Store.commitPipe, KvThread.committing, hk, List.Subperm.refl]
  · simp [Store.batchPipe, Store.activeBatches, KvThread.batches, hk, List.Subperm.refl]
  · simp [Store.activeBatches, KvThread.batches, hk]
  · simp
  · simp [KvThread.afterFlush]
  · simp [KvThread.batches, allTxcs]

/-- The KV sync thread flushes the device: the completed batches are flushed. -/
theorem pipeInv_kvFlush {s : Store} (h : PipeInv s) {c : List ℕ} (hk : s.kvThread = .submit c []) :
    PipeInv { s with kvThread := .flushed c, log := s.log ++ [.flush] } := by
  apply h.move [.flush]
  · simp [MovedQueues]
  · simp
  · exact List.nil_suffix
  · simp [KvThread.unsubmitted, hk]
  · simp [Store.commitPipe, KvThread.committing, hk, List.Subperm.refl]
  · simp [Store.batchPipe, Store.activeBatches, KvThread.batches, hk, List.Subperm.refl]
  · simp [Store.activeBatches, KvThread.batches, hk]
  · simp
  · exact fun _ x hx => (h.done_written x hx).flush
  · simp [KvThread.batches, allTxcs]

/-- The KV sync thread calls `try_submit`. -/
theorem pipeInv_kvTrySubmit {s : Store} (h : PipeInv s) {c : List ℕ}
    (hk : s.kvThread = .flushed c) :
    PipeInv { s with
      kvThread := .submitted c
      submitting := s.submitting ++ s.deferredQueue
      deferredQueue := [] } := by
  apply h.move []
  · simp [MovedQueues]
  · simp
  · exact List.nil_suffix
  · simp [KvThread.unsubmitted, hk]
  · simp [Store.commitPipe, KvThread.committing, hk, List.Subperm.refl]
  · simp [Store.batchPipe, Store.activeBatches, KvThread.batches, hk, List.Subperm.refl]
  · simp [Store.activeBatches, KvThread.batches, hk]
  · simp
  · exact fun _ x hx => h.done_flushed (by simp [hk, KvThread.afterFlush]) x hx
  · simp [KvThread.batches, allTxcs]

/-- The KV sync thread takes the completed batches as stable. -/
theorem pipeInv_kvStable {s : Store} (h : PipeInv s) {c : List ℕ}
    (hk : s.kvThread = .submitted c) :
    PipeInv { s with kvThread := .stable c s.doneQueue, doneQueue := [] } := by
  apply h.move []
  · simp [MovedQueues]
  · simp
  · exact List.nil_suffix
  · simp [KvThread.unsubmitted, hk]
  · simp [Store.commitPipe, KvThread.committing, hk, List.Subperm.refl]
  · simp [Store.batchPipe, Store.activeBatches, KvThread.batches, hk, allTxcs, List.Subperm.refl]
  · simp [Store.activeBatches, KvThread.batches, hk, allTxcs]
  · simp [allTxcs]
  · simp [allTxcs]
  · exact fun x hx => h.done_flushed (by simp [hk, KvThread.afterFlush]) x hx

/-- A caller of `try_submit` takes the queued sequencers. -/
theorem pipeInv_trySubmitSwap {s : Store} (h : PipeInv s) :
    PipeInv { s with submitting := s.submitting ++ s.deferredQueue, deferredQueue := [] } := by
  apply h.move []
  · simp [MovedQueues]
  · simp
  · exact h.unsubmitted
  · simp
  · exact List.Subperm.refl _
  · exact fun o => List.Subperm.refl _
  · exact fun o x hx => hx
  · simp
  · simpa using h.done_flushed
  · simpa using h.stable_flushed

/-- The finalize thread takes its queues. -/
theorem pipeInv_finStart {s : Store} (h : PipeInv s) (hc : s.finCommitted = [])
    (hs : s.finStable = []) :
    PipeInv { s with
      finCommitted := s.committingToFinalize
      finStable := s.stableToFinalize
      committingToFinalize := []
      stableToFinalize := [] } := by
  apply h.move []
  · simp [MovedQueues]
  · simp
  · exact h.unsubmitted
  · simp
  · simp [Store.commitPipe, hc, List.Subperm.refl]
  · simp [Store.batchPipe, Store.activeBatches, hs, allTxcs, List.Subperm.refl]
  · exact fun o x hx => hx
  · simp
  · simpa using h.done_flushed
  · simpa using h.stable_flushed

/-! ## The KV sync thread -/

namespace Store

/-- The state of one context is set, and the others keep theirs. -/
@[simp] theorem setState_txc (s : Store) (x y : ℕ) (st : TxcState) :
    (s.setState x st).txc y = if y = x then { s.txc x with state := st } else s.txc y := by
  simp [setState, Function.update_apply]

/-- Setting a state leaves the sequencers. -/
@[simp] theorem setState_osr (s : Store) (x : ℕ) (st : TxcState) :
    (s.setState x st).osr = s.osr := rfl

/-- Setting a state leaves the outstanding contexts. -/
@[simp] theorem setState_outstanding (s : Store) (x : ℕ) (st : TxcState) :
    (s.setState x st).outstanding = s.outstanding := rfl

/-- Setting a state leaves the names. -/
@[simp] theorem setState_nextTxn (s : Store) (x : ℕ) (st : TxcState) :
    (s.setState x st).nextTxn = s.nextTxn := rfl

/-- `set_state` keeps the sequence numbers. -/
@[simp] theorem setState_seqOf (s : Store) (x y : ℕ) (st : TxcState) :
    (s.setState x st).seqOf y = s.seqOf y := by
  by_cases h : y = x <;> simp [seqOf, h]

/-- A key above all stored ones is stored last. -/
theorem kvSet_of_lt (k : ℕ) (r : DeferredRecord) :
    ∀ kv : List (ℕ × DeferredRecord), (∀ e ∈ kv, e.1 < k) → kvSet k r kv = kv ++ [(k, r)]
  | [], _ => rfl
  | e :: es, h => by
    have he : e.1 < k := h e (by simp)
    rw [kvSet, if_neg (by omega), if_neg (by omega),
      kvSet_of_lt k r es fun f hf => h f (List.mem_cons_of_mem _ hf)]
    rfl

end Store

/-- The next transaction of the submit loop leaves `KV_QUEUED`. -/
theorem PipeInv.submitState {s : Store} (h : PipeInv s) {c rest : List ℕ} {x : ℕ}
    (hk : s.kvThread = .submit c (x :: rest)) :
    PipeInv { s.setState x .kvSubmitted with kvThread := .submit c rest } := by
  -- The context is the first that the loop still has to submit, and it is in no other queue.
  have hsuf : (x :: rest) <:+ c := by
    simpa [hk, KvThread.unsubmitted, KvThread.committing] using h.unsubmitted
  have hx : (s.txc x).state = .kvQueued := h.commit_queued x (by simp [hk, KvThread.unsubmitted])
  have hxc : x ∈ c := hsuf.subset (by simp)
  have hnd : (s.kvQueue ++ c ++ s.committingToFinalize ++ s.finCommitted).Nodup := by
    simpa [Store.commitPipe, hk, KvThread.committing] using h.commit_nodup
  have hrest : ∀ y ∈ s.kvQueue ++ rest, y ≠ x := by
    have hqc : (s.kvQueue ++ c).Nodup := by
      rw [List.append_assoc] at hnd
      exact hnd.of_append_left
    have hqr : (s.kvQueue ++ (x :: rest)).Nodup :=
      hqc.sublist ((List.Sublist.refl _).append hsuf.sublist)
    intro y hy hyx
    subst hyx
    rw [List.nodup_append, List.nodup_cons] at hqr
    rcases List.mem_append.mp hy with hm | hm
    · exact hqr.2.2 y hm y (by simp) rfl
    · exact hqr.2.1.1 hm
  have hbatch : ∀ o, ∀ y ∈ s.batchPipe o, y ≠ x := by
    intro o y hy hyx
    have := (h.batch_state o y hy).1
    rw [hyx, hx] at this
    exact absurd this (by simp)
  -- The queues themselves are as before.
  have hcommit : Store.commitPipe { s.setState x .kvSubmitted with kvThread := .submit c rest } =
      s.commitPipe := by
    simp [Store.commitPipe, hk, KvThread.committing, Store.setState]
  have hbp : ∀ o, Store.batchPipe
      { s.setState x .kvSubmitted with kvThread := .submit c rest } o = s.batchPipe o := by
    simp [Store.batchPipe, Store.activeBatches, KvThread.batches, hk, Store.setState]
  have hab : ∀ o, Store.activeBatches
      { s.setState x .kvSubmitted with kvThread := .submit c rest } o = s.activeBatches o := by
    simp [Store.activeBatches, KvThread.batches, hk, Store.setState]
  -- Only its own state has changed, which has now been submitted.
  constructor
  case q_nodup => exact h.q_nodup
  case q_mem =>
    intro o y hy
    obtain ⟨h1, h2⟩ := h.q_mem o y hy
    refine ⟨h1, ?_⟩
    by_cases hyx : y = x
    · subst hyx; simpa using h2
    · simpa [hyx] using h2
  case q_outstanding =>
    intro o y hy hr hd
    by_cases hyx : y = x
    · subst hyx; simp [TxcState.rank] at hr
    · simp only [Store.setState_txc, if_neg hyx] at hr hd
      exact h.q_outstanding o y hy hr hd
  case unsubmitted => exact (List.suffix_cons x rest).trans hsuf
  case commit_nodup => rw [hcommit]; exact h.commit_nodup
  case commit_queued =>
    intro y hy
    have hyx : y ≠ x := hrest y hy
    have hy' : y ∈ s.kvQueue ++ s.kvThread.unsubmitted := by
      simp only [hk, KvThread.unsubmitted, List.mem_append, List.mem_cons] at hy ⊢
      tauto
    simpa [hyx] using h.commit_queued y hy'
  case commit_state =>
    rw [hcommit]
    intro y hy hn
    by_cases hyx : y = x
    · simp [hyx]
    · have hn' : y ∉ s.kvQueue ++ s.kvThread.unsubmitted := by
        simp only [hk, KvThread.unsubmitted, List.mem_append, List.mem_cons] at hn ⊢
        tauto
      simpa [hyx] using h.commit_state y hy hn'
  case commit_mem =>
    rw [hcommit]
    intro y hy
    obtain ⟨h1, h2⟩ := h.commit_mem y hy
    refine ⟨h1, ?_⟩
    by_cases hyx : y = x
    · subst hyx; simpa using h2
    · simpa [hyx] using h2
  case batch_nodup => simpa only [hbp] using h.batch_nodup
  case batch_state =>
    simp only [hbp]
    intro o y hy
    simpa [hbatch o y hy] using h.batch_state o y hy
  case batch_osr =>
    intro o y hy
    have hy' := h.batch_osr o y hy
    by_cases hyx : y = x
    · subst hyx; simpa using hy'
    · simpa [hyx] using hy'
  case batch_outstanding => simp only [hab]; exact h.batch_outstanding
  case batch_writes => exact h.batch_writes
  case outstanding_lt => exact h.outstanding_lt
  case kv_mem =>
    intro e he
    obtain ⟨h1, h2, h3, h4⟩ := h.kv_mem e he
    have hne : e.2.owner ≠ x := by
      intro hex
      rw [hex, hx] at h4
      simp [TxcState.rank] at h4
    exact ⟨h1, by simpa [hne] using h2, h3, by simpa [hne] using h4⟩
  case kv_sorted => exact h.kv_sorted
  case kv_lt =>
    intro e he y hy hu
    have hyx : y ≠ x := by
      intro hyx
      subst hyx
      simp [Store.uncommitted, TxcState.rank] at hu
    have hu' : s.uncommitted y := by simpa [Store.uncommitted, hyx] using hu
    exact (h.kv_lt e he y hy hu').trans_eq (Store.setState_seqOf s x y .kvSubmitted).symm
  case kv_present => exact h.kv_present
  case removed_mem => exact h.removed_mem
  case done_written => exact h.done_written
  case done_flushed => simp [KvThread.afterFlush]
  case stable_flushed => simp [KvThread.batches, allTxcs]
  case replay_present => exact h.replay_present
  case replay_mem =>
    simp only [hbp, hcommit]
    exact h.replay_mem
  case replay_nodup => exact h.replay_nodup
  case down =>
    simp only [hbp, hcommit]
    exact h.down
  case keys =>
    intro y hy z hz hyz
    have hyz' : s.seqOf y = s.seqOf z := by
      rw [← Store.setState_seqOf s x y .kvSubmitted, ← Store.setState_seqOf s x z .kvSubmitted]
      exact hyz
    exact h.keys y hy z hz hyz'
  case removed => exact h.removed

/-- The record of a committed transaction is stored last when its key is above the stored ones
and below those still to come. -/
theorem PipeInv.storeRecord {s : Store} (h : PipeInv s) {x : ℕ} {d : DeferredTxn}
    (hx : x ∈ s.outstanding) (hd : (s.txc x).deferredTxn = some d)
    (hst : TxcState.kvSubmitted.rank ≤ (s.txc x).state.rank)
    (hlt : ∀ e ∈ s.kv, e.1 < d.seq)
    (hgt : ∀ y ∈ s.outstanding, s.uncommitted y → d.seq < s.seqOf y) :
    PipeInv { s with kv := s.kv ++ [(d.seq, ⟨x, d⟩)], log := s.log ++ [.commit x] } where
  __ := h
  kv_mem e he := by
    rcases List.mem_append.mp he with he | he
    · exact h.kv_mem e he
    · rw [List.mem_singleton.mp he]
      exact ⟨hx, hd, rfl, hst⟩
  kv_sorted := by
    rw [List.pairwise_append]
    refine ⟨h.kv_sorted, List.pairwise_singleton _ _, ?_⟩
    intro e he f hf
    rw [List.mem_singleton.mp hf]
    exact hlt e he
  kv_lt e he y hy hu := by
    rcases List.mem_append.mp he with he | he
    · exact h.kv_lt e he y hy hu
    · rw [List.mem_singleton.mp he]
      exact hgt y hy hu
  kv_present := by
    have hrem : Event.remove x ∉ s.log := fun hr => (h.removed_mem x hr).1 hx
    rw [List.map_append, h.kv_present, present_commit hrem]
    rfl
  removed_mem y hy := by
    rcases List.mem_append.mp hy with hy | hy
    · exact h.removed_mem y hy
    · simp at hy
  done_written y hy := (h.done_written y hy).append (by simp)
  done_flushed hf y hy := (h.done_flushed hf y hy).append _
  stable_flushed y hy := (h.stable_flushed y hy).append _
  replay_mem r hr := by
    obtain ⟨⟨k, hk⟩, h2⟩ := h.replay_mem r hr
    exact ⟨⟨k, List.mem_append_left _ hk⟩, h2⟩
  removed := h.removed.append fun e he y => by simp [List.mem_singleton.mp he]

/-- The KV sync thread submits the next KV transaction. -/
theorem pipeInv_kvSubmit {s : Store} (h : PipeInv s) {c rest : List ℕ} {x : ℕ}
    (hk : s.kvThread = .submit c (x :: rest)) (hok : DeferredLogOk s .kvSubmit) :
    (s.txc x).state = .kvQueued ∧ PipeInv { s.applyKv x with kvThread := .submit c rest } := by
  simp only [DeferredLogOk, hk] at hok
  have hx : (s.txc x).state = .kvQueued := h.commit_queued x (by simp [hk, KvThread.unsubmitted])
  have hxc : x ∈ s.commitPipe := by
    have hxc : x ∈ s.kvThread.committing := h.unsubmitted.subset (by simp [hk, KvThread.unsubmitted])
    simp [Store.commitPipe, hxc]
  have h1 := h.submitState hk
  refine ⟨hx, ?_⟩
  unfold Store.applyKv
  cases hd : (s.txc x).deferredTxn with
  | none => simpa [hd] using h1
  | some d =>
    have hxo : x ∈ s.outstanding := (h.commit_mem x hxc).2 (by simp [hd])
    have hxd : s.seqOf x = d.seq := by simp [Store.seqOf, hd]
    have hlt : ∀ e ∈ s.kv, e.1 < d.seq := fun e he =>
      hxd ▸ h.kv_lt e he x hxo (by simp [Store.uncommitted, hx])
    have h2 := h1.storeRecord (x := x) (d := d) hxo (by simpa using hd) (by simp) hlt (by
      intro y hy hu
      have hyx : y ≠ x := by
        intro hyx
        subst hyx
        simp [Store.uncommitted, TxcState.rank] at hu
      have := hok (by simp [hd]) y hy (by simpa [Store.uncommitted, hyx] using hu) hyx
      rw [hxd] at this
      exact this.trans_eq (Store.setState_seqOf s x y .kvSubmitted).symm)
    have hset : Store.kvSet d.seq ⟨x, d⟩ s.kv = s.kv ++ [(d.seq, ⟨x, d⟩)] :=
      Store.kvSet_of_lt _ _ _ hlt
    have hkv : (s.setState x .kvSubmitted).kv = s.kv := rfl
    simpa [hd, hkv, hset] using h2

/-- The removal of the record of a flushed transaction that no active batch holds. -/
theorem PipeInv.removeRecord {s : Store} (h : PipeInv s) {x : ℕ} (hx : x ∈ s.outstanding)
    (hf : FlushedAfter x s.log) (hst : (s.txc x).state = .deferredQueued)
    (hact : ∀ o, x ∉ s.activeBatches o) (hrep : ∀ r ∈ s.toReplay, r.owner ≠ x) :
    PipeInv (s.removeRecord x) := by
  -- A stored record has the key of `x` exactly when it is the record of `x`.
  have hkey : ∀ e ∈ s.kv, e.1 = s.seqOf x ↔ e.2.owner = x := by
    intro e he
    obtain ⟨ho, hd, hs, -⟩ := h.kv_mem e he
    have hseq : s.seqOf e.2.owner = e.1 := by simp [Store.seqOf, hd, hs]
    constructor
    · intro hek
      exact h.keys _ ho _ hx (hseq.trans hek)
    · intro hox
      rw [← hseq, hox]
  have hev : ∀ e ∈ (s.kv.filter (·.1 = s.seqOf x)).map fun e => Event.remove e.2.owner,
      e = .remove x := by
    intro e he
    obtain ⟨f, hf, rfl⟩ := List.mem_map.mp he
    simp only [List.mem_filter, decide_eq_true_eq] at hf
    rw [(hkey f hf.1).mp hf.2]
  have hfilter : (s.kv.filter (·.1 ≠ s.seqOf x)).map (fun e => e.2.owner) =
      (s.kv.map fun e => e.2.owner).filter (· ≠ x) := by
    rw [List.filter_map]
    congr 1
    apply List.filter_congr
    intro e he
    simp [hkey e he]
  constructor
  case q_nodup => exact h.q_nodup
  case q_mem => exact h.q_mem
  case q_outstanding =>
    intro o y hy hr hd
    have hyx : y ≠ x := by
      rintro rfl
      change (s.txc y).state.rank ≤ _ at hr
      simp [hst, TxcState.rank] at hr
    exact List.mem_filter.mpr ⟨h.q_outstanding o y hy hr hd, by simpa using hyx⟩
  case unsubmitted => exact h.unsubmitted
  case commit_nodup => exact h.commit_nodup
  case commit_queued => exact h.commit_queued
  case commit_state => exact h.commit_state
  case commit_mem =>
    intro y hy
    obtain ⟨h1, h2⟩ := h.commit_mem y hy
    have hyx : y ≠ x := by
      rintro rfl
      by_cases hq : y ∈ s.kvQueue ++ s.kvThread.unsubmitted
      · simpa [hst] using h.commit_queued y hq
      · simpa [hst] using h.commit_state y hy hq
    exact ⟨h1, fun hd => List.mem_filter.mpr ⟨h2 hd, by simpa using hyx⟩⟩
  case batch_nodup => exact h.batch_nodup
  case batch_state => exact h.batch_state
  case batch_osr => exact h.batch_osr
  case batch_outstanding =>
    intro o y hy
    have hyx : y ≠ x := fun hyx => hact o (hyx ▸ hy)
    exact List.mem_filter.mpr ⟨h.batch_outstanding o y hy, by simpa using hyx⟩
  case batch_writes => exact h.batch_writes
  case outstanding_lt => exact fun y hy => h.outstanding_lt y (List.mem_filter.mp hy).1
  case kv_mem =>
    intro e he
    obtain ⟨hm, hne⟩ := List.mem_filter.mp he
    obtain ⟨h1, h2⟩ := h.kv_mem e hm
    refine ⟨List.mem_filter.mpr ⟨h1, ?_⟩, h2⟩
    simpa [← hkey e hm] using hne
  case kv_sorted => exact h.kv_sorted.filter _
  case kv_lt =>
    exact fun e he y hy hu =>
      h.kv_lt e (List.mem_filter.mp he).1 y (List.mem_filter.mp hy).1 hu
  case kv_present =>
    change (s.kv.filter _).map _ = present (s.log ++ _)
    rw [hfilter, h.kv_present]
    refine (present_removes hev ?_).symm
    intro hnil hxp
    rw [← h.kv_present] at hxp
    obtain ⟨e, he, hex⟩ := List.mem_map.mp hxp
    rw [List.map_eq_nil_iff, List.filter_eq_nil_iff] at hnil
    exact hnil e he (by simpa using (hkey e he).mpr hex)
  case removed_mem =>
    intro y hy
    rcases List.mem_append.mp hy with hy | hy
    · exact ⟨fun hm => (h.removed_mem y hy).1 (List.mem_filter.mp hm).1, (h.removed_mem y hy).2⟩
    · have hyx : y = x := by simpa using hev _ hy
      subst hyx
      exact ⟨by simp [Store.removeRecord], h.outstanding_lt y hx⟩
  case done_written =>
    exact fun y hy => (h.done_written y hy).append fun hc => by simpa using hev _ hc
  case done_flushed => exact fun ha y hy => (h.done_flushed ha y hy).append _
  case stable_flushed => exact fun y hy => (h.stable_flushed y hy).append _
  case replay_present => exact h.replay_present
  case replay_mem =>
    intro r hr
    obtain ⟨⟨k, hk⟩, h2⟩ := h.replay_mem r hr
    refine ⟨⟨k, List.mem_filter.mpr ⟨hk, ?_⟩⟩, h2⟩
    simpa [hkey _ hk] using hrep r hr
  case replay_nodup => exact h.replay_nodup
  case down => exact h.down
  case keys =>
    exact fun y hy z hz hyz =>
      h.keys y (List.mem_filter.mp hy).1 z (List.mem_filter.mp hz).1 hyz
  case removed => exact h.removed.append_removes hev hf

/-- The removal of the records of a list of flushed transactions. -/
theorem PipeInv.removeRecords {xs : List ℕ} {s : Store} (h : PipeInv s) (hnd : xs.Nodup)
    (hx : ∀ x ∈ xs, x ∈ s.outstanding) (hf : ∀ x ∈ xs, FlushedAfter x s.log)
    (hst : ∀ x ∈ xs, (s.txc x).state = .deferredQueued)
    (hact : ∀ x ∈ xs, ∀ o, x ∉ s.activeBatches o)
    (hrep : ∀ x ∈ xs, ∀ r ∈ s.toReplay, r.owner ≠ x) :
    PipeInv (xs.foldl Store.removeRecord s) := by
  induction xs generalizing s with
  | nil => exact h
  | cons x xs ih =>
    obtain ⟨hxn, hnd'⟩ := List.nodup_cons.mp hnd
    have h1 := h.removeRecord (hx x (by simp)) (hf x (by simp)) (hst x (by simp))
      (hact x (by simp)) (hrep x (by simp))
    refine ih h1 hnd' ?_ ?_ ?_ ?_ ?_
    · intro y hy
      have hyx : y ≠ x := fun hyx => hxn (hyx ▸ hy)
      exact List.mem_filter.mpr ⟨hx y (List.mem_cons_of_mem _ hy), by simpa using hyx⟩
    · exact fun y hy => (hf y (List.mem_cons_of_mem _ hy)).append _
    · exact fun y hy => hst y (List.mem_cons_of_mem _ hy)
    · exact fun y hy => hact y (List.mem_cons_of_mem _ hy)
    · exact fun y hy => hrep y (List.mem_cons_of_mem _ hy)

/-- Removing records commutes with the hand-over to the finalize thread. -/
theorem foldl_removeRecord_with (xs c : List ℕ) (bs : List DeferredBatch) (s : Store) :
    xs.foldl Store.removeRecord { s with
      kvThread := .idle
      committingToFinalize := s.committingToFinalize ++ c
      stableToFinalize := s.stableToFinalize ++ bs } =
    { xs.foldl Store.removeRecord s with
      kvThread := .idle
      committingToFinalize := (xs.foldl Store.removeRecord s).committingToFinalize ++ c
      stableToFinalize := (xs.foldl Store.removeRecord s).stableToFinalize ++ bs } := by
  induction xs generalizing s with
  | nil => rfl
  | cons x xs ih => exact ih (s.removeRecord x)

/-- The KV sync thread removes the records of the stable batches and hands over. -/
theorem pipeInv_kvRemove {s : Store} (h : PipeInv s) {c : List ℕ} {bs : List DeferredBatch}
    (hk : s.kvThread = .stable c bs) :
    PipeInv { (allTxcs bs).foldl Store.removeRecord s with
      kvThread := .idle
      committingToFinalize := ((allTxcs bs).foldl Store.removeRecord s).committingToFinalize ++ c
      stableToFinalize := ((allTxcs bs).foldl Store.removeRecord s).stableToFinalize ++ bs } := by
  rw [← foldl_removeRecord_with]
  have hbatch : ∀ o, ∀ x ∈ allTxcs bs, x ∈ s.activeBatches o ∧ x ∈ s.batchPipe o := by
    intro o x hx
    simp [Store.activeBatches, Store.batchPipe, hk, KvThread.batches, hx]
  have hnd : ∀ o, (batchTxcs (s.osr o).deferredPending ++ batchTxcs (s.osr o).deferredRunning ++
      allTxcs s.doneQueue ++ allTxcs bs).Nodup := by
    intro o
    have := h.batch_nodup o
    simp only [Store.batchPipe, Store.activeBatches, hk, KvThread.batches, List.append_assoc] at this
    refine this.sublist ?_
    simp
  -- First the batches leave the thread, and then their records go.
  have h1 : PipeInv { s with
      kvThread := .idle
      committingToFinalize := s.committingToFinalize ++ c
      stableToFinalize := s.stableToFinalize ++ bs } := by
    apply h.move []
    · simp [MovedQueues]
    · simp
    · exact List.suffix_refl _
    · simp [KvThread.unsubmitted, hk]
    · refine List.Perm.subperm ?_
      simp only [Store.commitPipe, KvThread.committing, hk, List.append_nil]
      grind
    · intro o
      refine List.Perm.subperm ?_
      simp only [Store.batchPipe, Store.activeBatches, KvThread.batches, hk, allTxcs,
        List.flatMap_append, List.flatMap_nil, List.append_nil]
      grind
    · intro o x hx
      simp only [Store.activeBatches, KvThread.batches, hk, List.mem_append] at hx ⊢
      simp only [allTxcs, List.flatMap_nil, List.not_mem_nil, or_false] at hx ⊢
      exact Or.inl hx
    · simp
    · simp [KvThread.afterFlush]
    · simp [KvThread.batches, allTxcs]
  -- The transactions of the batches are written, flushed and in no other queue.
  refine h1.removeRecords (hnd 0).of_append_right ?_ ?_ ?_ ?_ ?_
  · exact fun x hx => h.batch_outstanding 0 x (hbatch 0 x hx).1
  · exact fun x hx => h.stable_flushed x (by simpa [hk, KvThread.batches] using hx)
  · exact fun x hx => (h.batch_state 0 x (hbatch 0 x hx).2).1
  · intro x hx o hm
    have hdisj := List.nodup_append.mp (hnd o)
    refine hdisj.2.2 x ?_ x hx rfl
    simpa [Store.activeBatches, KvThread.batches, allTxcs] using hm
  · exact fun x hx r hr hrx => ((h.replay_mem r hr).2.2 0).2 (hrx ▸ (hbatch 0 x hx).2)

/-! ## The finalize thread -/

/-- A transaction in no queue may go to a state past its KV transaction. -/
theorem PipeInv.setStateLate {s : Store} (h : PipeInv s) {x : ℕ} (st : TxcState)
    (hc : x ∉ s.commitPipe) (hb : ∀ o, x ∉ s.batchPipe o)
    (hst : TxcState.kvSubmitted.rank ≤ st.rank) : PipeInv (s.setState x st) := by
  -- No queue and no record sees the state, except for being past the commit or not.
  have hosr : ∀ y, ((s.setState x st).txc y).osr = (s.txc y).osr := by
    intro y
    by_cases hyx : y = x
    · simp [hyx]
    · simp [hyx]
  have hdt : ∀ y, ((s.setState x st).txc y).deferredTxn = (s.txc y).deferredTxn := by
    intro y
    by_cases hyx : y = x
    · simp [hyx]
    · simp [hyx]
  have hunc : ∀ y, (s.setState x st).uncommitted y → s.uncommitted y := by
    intro y hu
    by_cases hyx : y = x
    · simp only [Store.uncommitted, Store.setState_txc, if_pos hyx] at hu
      simp only [TxcState.rank] at hu hst
      omega
    · simpa [Store.uncommitted, hyx] using hu
  -- The context is in no queue, so the clauses about queues are as before.
  constructor
  case q_nodup => exact h.q_nodup
  case q_mem =>
    intro o y hy
    rw [hosr]
    exact h.q_mem o y hy
  case q_outstanding =>
    intro o y hy hr hd
    rw [hdt] at hd
    by_cases hyx : y = x
    · simp only [Store.setState_txc, if_pos hyx, TxcState.rank] at hr hst
      omega
    · simp only [Store.setState_txc, if_neg hyx] at hr
      exact h.q_outstanding o y hy hr hd
  case unsubmitted => exact h.unsubmitted
  case commit_nodup => exact h.commit_nodup
  case commit_queued =>
    intro y hy
    -- What is queued to commit is in the pipe, and the context is not.
    have hyc : y ∈ s.commitPipe := by
      have hsub := h.unsubmitted.subset
      simp only [Store.commitPipe, List.mem_append] at hy ⊢
      rcases hy with hy | hy
      · exact .inl (.inl (.inl hy))
      · exact .inl (.inl (.inr (hsub hy)))
    have hyx : y ≠ x := fun hyx => hc (hyx ▸ hyc)
    simpa [hyx] using h.commit_queued y hy
  case commit_state =>
    intro y hy hn
    have hyx : y ≠ x := fun hyx => hc (hyx ▸ hy)
    simpa [hyx] using h.commit_state y hy hn
  case commit_mem =>
    intro y hy
    rw [hdt]
    exact h.commit_mem y hy
  case batch_nodup => exact h.batch_nodup
  case batch_state =>
    intro o y hy
    have hyx : y ≠ x := fun hyx => hb o (hyx ▸ hy)
    simpa [hyx] using h.batch_state o y hy
  case batch_osr =>
    intro o y hy
    rw [hosr]
    exact h.batch_osr o y hy
  case batch_outstanding => exact h.batch_outstanding
  case batch_writes => exact h.batch_writes
  case outstanding_lt => exact h.outstanding_lt
  case kv_mem =>
    intro e he
    obtain ⟨h1, h2, h3, h4⟩ := h.kv_mem e he
    refine ⟨h1, by rw [hdt]; exact h2, h3, ?_⟩
    by_cases hex : e.2.owner = x
    · simpa [hex] using hst
    · simpa [hex] using h4
  case kv_sorted => exact h.kv_sorted
  case kv_lt =>
    intro e he y hy hu
    rw [Store.setState_seqOf]
    exact h.kv_lt e he y hy (hunc y hu)
  case kv_present => exact h.kv_present
  case removed_mem => exact h.removed_mem
  case done_written => exact h.done_written
  case done_flushed => exact h.done_flushed
  case stable_flushed => exact h.stable_flushed
  case replay_present => exact h.replay_present
  case replay_mem => exact h.replay_mem
  case replay_nodup => exact h.replay_nodup
  case down => exact h.down
  case keys =>
    intro y hy z hz hyz
    rw [Store.setState_seqOf, Store.setState_seqOf] at hyz
    exact h.keys y hy z hz hyz
  case removed => exact h.removed

/-- A sequencer's queue may lose transactions. -/
theorem PipeInv.shrinkQueue {s : Store} (h : PipeInv s) {o : ℕ} {q : List ℕ}
    (hq : q.Sublist (s.osr o).q) :
    PipeInv { s with osr := Function.update s.osr o { s.osr o with q := q } } := by
  set s' : Store := { s with osr := Function.update s.osr o { s.osr o with q := q } } with hs'
  have hsub : ∀ o', (s'.osr o').q.Sublist (s.osr o').q := by
    intro o'
    by_cases ho : o' = o
    · subst ho; simpa [hs'] using hq
    · simp [hs', ho]
  have hp : ∀ o', (s'.osr o').deferredPending = (s.osr o').deferredPending := by
    intro o'
    by_cases ho : o' = o
    · subst ho; simp [hs']
    · simp [hs', ho]
  have hr : ∀ o', (s'.osr o').deferredRunning = (s.osr o').deferredRunning := by
    intro o'
    by_cases ho : o' = o
    · subst ho; simp [hs']
    · simp [hs', ho]
  have hab : ∀ o', s'.activeBatches o' = s.activeBatches o' := by
    intro o'
    rw [Store.activeBatches, Store.activeBatches, hp, hr]
  have hbp : ∀ o', s'.batchPipe o' = s.batchPipe o' := by
    intro o'
    rw [Store.batchPipe, Store.batchPipe, hab]
  exact {
    __ := h
    q_nodup := fun o' => (h.q_nodup o').sublist (hsub o')
    q_mem := fun o' x hx => h.q_mem o' x ((hsub o').subset hx)
    q_outstanding := fun o' x hx => h.q_outstanding o' x ((hsub o').subset hx)
    batch_nodup := fun o' => by rw [hbp]; exact h.batch_nodup o'
    batch_state := fun o' => by rw [hbp]; exact h.batch_state o'
    batch_osr := fun o' => by rw [hp, hr]; exact h.batch_osr o'
    batch_outstanding := fun o' => by rw [hab]; exact h.batch_outstanding o'
    batch_writes := fun o' => by rw [hp, hr]; exact h.batch_writes o'
    replay_mem := fun r hm => by
      obtain ⟨h1, h2, h3⟩ := h.replay_mem r hm
      exact ⟨h1, h2, fun o' => ⟨fun hq' => (h3 o').1 ((hsub o').subset hq'),
        by rw [hbp]; exact (h3 o').2⟩⟩
    down := fun hd => by
      obtain ⟨h1, h2⟩ := h.down hd
      exact ⟨h1, fun o' => ⟨List.sublist_nil.mp ((h2 o').1 ▸ hsub o'),
        by rw [hbp]; exact (h2 o').2⟩⟩ }

/-- `_txc_finish` of a transaction that is in no queue. -/
theorem PipeInv.txcFinish {s : Store} (h : PipeInv s) {x : ℕ} (hc : x ∉ s.commitPipe)
    (hb : ∀ o, x ∉ s.batchPipe o) : PipeInv (s.txcFinish x) :=
  (h.setStateLate .done hc hb (by simp [TxcState.rank])).shrinkQueue (List.dropWhile_sublist _)

/-- A committed deferred transaction joins the pending batch of its sequencer. -/
theorem PipeInv.deferredEnqueue {s : Store} (h : PipeInv s) {x : ℕ} {d : DeferredTxn}
    (hx : x ∈ s.outstanding) (hb : ∀ o, x ∉ s.batchPipe o) (hup : s.phase ≠ .down)
    (hst : (s.txc x).state = .deferredQueued) (hrep : ∀ r ∈ s.toReplay, r.owner ≠ x) :
    PipeInv (s.deferredEnqueue x d) := by
  -- Only the pending batch of its own sequencer grows.
  set o := (s.txc x).osr with ho
  have hw : d.ops.writes ≠ [] := by
    unfold DeferredOps.writes
    intro hnil
    exact d.ops.first.writes_ne (by simpa using (List.flatMap_eq_nil_iff.mp hnil) _ (by simp))
  have hq : ∀ o', ((s.deferredEnqueue x d).osr o').q = (s.osr o').q := by
    intro o'
    by_cases hoo : o' = o
    · subst hoo; simp [Store.deferredEnqueue, ← ho]
    · simp [Store.deferredEnqueue, ← ho, hoo]
  have hr : ∀ o', ((s.deferredEnqueue x d).osr o').deferredRunning =
      (s.osr o').deferredRunning := by
    intro o'
    by_cases hoo : o' = o
    · subst hoo; simp [Store.deferredEnqueue, ← ho]
    · simp [Store.deferredEnqueue, ← ho, hoo]
  have hp : ∀ o', batchTxcs ((s.deferredEnqueue x d).osr o').deferredPending =
      batchTxcs (s.osr o').deferredPending ++ if o' = o then [x] else [] := by
    intro o'
    by_cases hoo : o' = o
    · subst hoo
      cases hpend : (s.osr o).deferredPending <;>
        simp [Store.deferredEnqueue, ← ho, batchTxcs, hpend]
    · simp [Store.deferredEnqueue, ← ho, hoo]
  -- By the context alone.
  have hab : ∀ o', ((s.deferredEnqueue x d).activeBatches o').Perm
      (s.activeBatches o' ++ if o' = o then [x] else []) := by
    intro o'
    change (batchTxcs _ ++ batchTxcs _ ++ allTxcs s.doneQueue ++
      allTxcs s.kvThread.batches).Perm _
    rw [hp, hr, Store.activeBatches]
    grind
  have hbp : ∀ o', ((s.deferredEnqueue x d).batchPipe o').Perm
      (s.batchPipe o' ++ if o' = o then [x] else []) := by
    intro o'
    have := hab o'
    change (_ ++ allTxcs s.stableToFinalize ++ allTxcs s.finStable).Perm _
    rw [Store.batchPipe]
    grind
  have hmem : ∀ o', ∀ y ∈ (s.deferredEnqueue x d).batchPipe o', y ∈ s.batchPipe o' ∨ y = x := by
    intro o' y hy
    have := (hbp o').mem_iff.mp hy
    split_ifs at this <;> simp_all
  -- The clauses of the invariant, where the context is the only new member of a batch.
  exact {
    __ := h
    q_nodup := fun o' => by rw [hq]; exact h.q_nodup o'
    q_mem := fun o' => by rw [hq]; exact h.q_mem o'
    q_outstanding := fun o' => by rw [hq]; exact h.q_outstanding o'
    batch_nodup := fun o' => by
      rw [(hbp o').nodup_iff]
      split_ifs
      · exact List.nodup_append.mpr ⟨h.batch_nodup o', by simp, by
          intro a ha b hb'
          rw [List.mem_singleton.mp hb']
          exact fun hax => hb o' (hax ▸ ha)⟩
      · simpa using h.batch_nodup o'
    batch_state := fun o' y hy => by
      rcases hmem o' y hy with hy | rfl
      · exact h.batch_state o' y hy
      · exact ⟨hst, h.outstanding_lt y hx⟩
    batch_osr := fun o' y hy => by
      rw [hp, hr] at hy
      simp only [List.mem_append] at hy
      rcases hy with (hy | hy) | hy
      · exact h.batch_osr o' y (by simp [hy])
      · split_ifs at hy with hoo
        · rw [List.mem_singleton.mp hy, hoo]
          exact ho.symm
        · simp at hy
      · exact h.batch_osr o' y (by simp [hy])
    batch_outstanding := fun o' y hy => by
      have := (hab o').mem_iff.mp hy
      rcases List.mem_append.mp this with hy | hy
      · exact h.batch_outstanding o' y hy
      · split_ifs at hy
        · rw [List.mem_singleton.mp hy]; exact hx
        · simp at hy
    batch_writes := fun o' b hbw => by
      rw [hr] at hbw
      rcases hbw with hbw | hbw
      · by_cases hoo : o' = o
        · subst hoo
          simp only [Store.deferredEnqueue, ← ho, Function.update_self, Option.some.injEq] at hbw
          rw [← hbw]
          simp [hw]
        · exact h.batch_writes o' b (.inl (by
            simpa [Store.deferredEnqueue, ← ho, hoo] using hbw))
      · exact h.batch_writes o' b (.inr hbw)
    replay_mem := fun r hm => by
      obtain ⟨h1, h2, h3⟩ := h.replay_mem r hm
      refine ⟨h1, h2, fun o' => ⟨by rw [hq]; exact (h3 o').1, fun hb' => ?_⟩⟩
      rcases hmem o' _ hb' with hb' | hb'
      · exact (h3 o').2 hb'
      · exact hrep r hm hb'
    down := fun hd => absurd hd hup }

/-- `STATE_KV_DONE` of a transaction that has left the KV threads. -/
theorem PipeInv.procKvDone {s : Store} (h : PipeInv s) {x : ℕ} (hc : x ∉ s.commitPipe)
    (hb : ∀ o, x ∉ s.batchPipe o) (hup : s.phase ≠ .down)
    (hout : (s.txc x).deferredTxn.isSome → x ∈ s.outstanding)
    (hrep : ∀ r ∈ s.toReplay, r.owner ≠ x) : PipeInv (s.procKvDone x) := by
  unfold Store.procKvDone
  cases hd : (s.txc x).deferredTxn with
  | none =>
    have h1 := h.setStateLate .finishing hc hb (by simp [TxcState.rank])
    exact h1.txcFinish hc hb
  | some d =>
    have h1 := h.setStateLate .deferredQueued hc hb (by simp [TxcState.rank])
    exact h1.deferredEnqueue (hout (by simp [hd])) hb hup (by simp) hrep

/-- The finalize thread processes the next committed transaction. -/
theorem pipeInv_finCommit {s : Store} (h : PipeInv s) {x : ℕ} {xs : List ℕ}
    (hf : s.finCommitted = x :: xs) : (s.txc x).state = .kvSubmitted ∧
    PipeInv ((Store.setState { s with finCommitted := xs } x .kvDone).procKvDone x) := by
  have hpipe : s.commitPipe = s.kvQueue ++ s.kvThread.committing ++ s.committingToFinalize ++
      x :: xs := by rw [Store.commitPipe, hf]
  have hxm : x ∈ s.commitPipe := by simp [hpipe]
  have hnd := h.commit_nodup
  rw [hpipe] at hnd
  -- The context is where it is in the pipe once only.
  have hxn : x ∉ s.kvQueue ++ s.kvThread.committing ++ s.committingToFinalize ++ xs := by
    have := (List.perm_middle.nodup_iff.mp hnd)
    exact (List.nodup_cons.mp this).1
  have hxu : x ∉ s.kvQueue ++ s.kvThread.unsubmitted := by
    intro hm
    refine hxn ?_
    have hsub := h.unsubmitted.subset
    simp only [List.mem_append] at hm ⊢
    rcases hm with hm | hm
    · exact .inl (.inl (.inl hm))
    · exact .inl (.inl (.inr (hsub hm)))
  have hst : (s.txc x).state = .kvSubmitted := h.commit_state x hxm hxu
  have hb : ∀ o, x ∉ s.batchPipe o := by
    intro o hm
    have := (h.batch_state o x hm).1
    rw [hst] at this
    exact absurd this (by simp)
  have hup : s.phase ≠ .down := fun hd => by simp [(h.down hd).1] at hxm
  -- It leaves the queue before its state changes.
  have h1 : PipeInv { s with finCommitted := xs } := by
    apply h.move []
    · simp [MovedQueues]
    · simp
    · exact h.unsubmitted
    · rfl
    · refine List.Sublist.subperm ?_
      rw [hpipe]
      exact (List.Sublist.refl _).append (List.sublist_cons_self _ _)
    · exact fun o => List.Subperm.refl _
    · exact fun o y hy => hy
    · simp
    · simpa using h.done_flushed
    · simpa using h.stable_flushed
  have h2 := h1.setStateLate (x := x) .kvDone hxn hb (by simp [TxcState.rank])
  refine ⟨hst, h2.procKvDone hxn hb hup ?_ ?_⟩
  · intro hd
    exact (h.commit_mem x hxm).2 (by simpa using hd)
  · exact fun r hr hrx => (h.replay_mem r hr).2.1 (hrx ▸ hxm)

/-- The clean-up of the transactions of a batch that has left the queues. -/
theorem PipeInv.cleanups {xs : List ℕ} {s : Store} (h : PipeInv s)
    (hc : ∀ x ∈ xs, x ∉ s.commitPipe) (hb : ∀ x ∈ xs, ∀ o, x ∉ s.batchPipe o) :
    PipeInv (xs.foldl Store.cleanup s) := by
  induction xs generalizing s with
  | nil => exact h
  | cons x xs ih =>
    have hcx := hc x (by simp)
    have hbx := hb x (by simp)
    have h1 := h.setStateLate .deferredCleanup hcx hbx (by simp [TxcState.rank])
    have h2 := h1.setStateLate (x := x) .finishing hcx hbx (by simp [TxcState.rank])
    have h3 := h2.txcFinish (x := x) hcx hbx
    have hbp : ∀ o, (s.cleanup x).batchPipe o = s.batchPipe o := by
      intro o
      have hp : ∀ o', ((s.cleanup x).osr o').deferredPending = (s.osr o').deferredPending ∧
          ((s.cleanup x).osr o').deferredRunning = (s.osr o').deferredRunning := by
        intro o'
        by_cases ho : o' = (s.txc x).osr
        · subst ho; simp [Store.cleanup, Store.txcFinish]
        · simp [Store.cleanup, Store.txcFinish, ho]
      change (batchTxcs _ ++ batchTxcs _ ++ allTxcs s.doneQueue ++ allTxcs s.kvThread.batches) ++
        allTxcs s.stableToFinalize ++ allTxcs s.finStable = _
      rw [(hp o).1, (hp o).2]
      rfl
    refine ih h3 (fun y hy => hc y (List.mem_cons_of_mem _ hy)) ?_
    intro y hy o
    rw [hbp]
    exact hb y (List.mem_cons_of_mem _ hy) o

/-- The finalize thread cleans up the next stable batch. -/
theorem pipeInv_finStable {s : Store} (h : PipeInv s) {b : DeferredBatch} {bs : List DeferredBatch}
    (hf : s.finStable = b :: bs) :
    PipeInv (b.txcs.foldl Store.cleanup { s with finStable := bs }) := by
  have hpipe : ∀ o, s.batchPipe o = s.activeBatches o ++ allTxcs s.stableToFinalize ++
      (b.txcs ++ allTxcs bs) := by
    intro o
    rw [Store.batchPipe, hf]
    rfl
  have hmem : ∀ x ∈ b.txcs, ∀ o, x ∈ s.batchPipe o := by
    intro x hx o
    simp [hpipe, hx]
  have h1 : PipeInv { s with finStable := bs } := by
    apply h.move []
    · simp [MovedQueues]
    · simp
    · exact h.unsubmitted
    · rfl
    · exact List.Subperm.refl _
    · intro o
      refine List.Sublist.subperm ?_
      rw [hpipe]
      exact (List.Sublist.refl _).append (List.sublist_append_right _ _)
    · exact fun o y hy => hy
    · simp
    · simpa using h.done_flushed
    · simpa using h.stable_flushed
  refine h1.cleanups ?_ ?_
  · intro x hx hm
    have hst := (h.batch_state 0 x (hmem x hx 0)).1
    by_cases hq : x ∈ s.kvQueue ++ s.kvThread.unsubmitted
    · simpa [hst] using h.commit_queued x hq
    · simpa [hst] using h.commit_state x hm hq
  · intro x hx o hm
    have hnd := h.batch_nodup o
    rw [hpipe] at hnd
    have hm' : x ∈ s.activeBatches o ++ allTxcs s.stableToFinalize ++ allTxcs bs := hm
    obtain ⟨-, hbs, hdisj⟩ := List.nodup_append.mp hnd
    rcases List.mem_append.mp hm' with hm' | hm'
    · exact hdisj x hm' x (by simp [hx]) rfl
    · exact (List.nodup_append.mp hbs).2.2 x hx x hm' rfl

/-! ## The deferred writer -/

/-- The pending batch of a sequencer starts to run. -/
theorem PipeInv.startBatch {s : Store} (h : PipeInv s) {o : ℕ} {b : DeferredBatch}
    (hp : (s.osr o).deferredPending = some b) (hr : (s.osr o).deferredRunning = none) :
    PipeInv { s with
      osr := Function.update s.osr o
        { s.osr o with deferredPending := none, deferredRunning := some b } } := by
  set s' : Store := { s with
    osr := Function.update s.osr o
      { s.osr o with deferredPending := none, deferredRunning := some b } } with hs'
  have hq : ∀ o', (s'.osr o').q = (s.osr o').q := by
    intro o'
    by_cases ho : o' = o
    · subst ho; simp [hs']
    · simp [hs', ho]
  have hpr : ∀ o', batchTxcs (s'.osr o').deferredPending ++ batchTxcs (s'.osr o').deferredRunning =
      batchTxcs (s.osr o').deferredPending ++ batchTxcs (s.osr o').deferredRunning := by
    intro o'
    by_cases ho : o' = o
    · subst ho; simp [hs', hp, hr, batchTxcs]
    · simp [hs', ho]
  have hab : ∀ o', s'.activeBatches o' = s.activeBatches o' := by
    intro o'
    rw [Store.activeBatches, Store.activeBatches, hpr]
  have hbp : ∀ o', s'.batchPipe o' = s.batchPipe o' := by
    intro o'
    rw [Store.batchPipe, Store.batchPipe, hab]
  exact {
    __ := h
    q_nodup := fun o' => by rw [hq]; exact h.q_nodup o'
    q_mem := fun o' => by rw [hq]; exact h.q_mem o'
    q_outstanding := fun o' => by rw [hq]; exact h.q_outstanding o'
    batch_nodup := fun o' => by rw [hbp]; exact h.batch_nodup o'
    batch_state := fun o' => by rw [hbp]; exact h.batch_state o'
    batch_osr := fun o' => by rw [hpr]; exact h.batch_osr o'
    batch_outstanding := fun o' => by rw [hab]; exact h.batch_outstanding o'
    batch_writes := fun o' b' hb' => by
      by_cases ho : o' = o
      · subst ho
        have hbb : b = b' := by simpa [hs'] using hb'
        exact hbb ▸ h.batch_writes o' b (.inl hp)
      · exact h.batch_writes o' b' (by simpa [hs', ho] using hb')
    replay_mem := fun r hm => by simp only [hq, hbp]; exact h.replay_mem r hm
    down := fun hd => by simp only [hq, hbp]; exact h.down hd }

/-- The running batch of a sequencer completes, outside the window after a flush. -/
theorem PipeInv.flushDone {s : Store} (h : PipeInv s) {o : ℕ} {b : DeferredBatch}
    (hr : (s.osr o).deferredRunning = some b) (hw : ¬ s.kvThread.afterFlush) :
    PipeInv (s.flushDone o b) := by
  set s' := s.flushDone o b with hs'
  -- The log gets a note for each transaction of the batch.
  have hlog : s'.log = s.log ++ b.txcs.map .written := rfl
  have hcrash : Event.crash ∉ b.txcs.map Event.written := by simp
  have hq : ∀ o', (s'.osr o').q = (s.osr o').q := by
    intro o'
    by_cases ho : o' = o
    · subst ho; simp [hs', Store.flushDone]
    · simp [hs', Store.flushDone, ho]
  have hp : ∀ o', (s'.osr o').deferredPending = (s.osr o').deferredPending := by
    intro o'
    by_cases ho : o' = o
    · subst ho; simp [hs', Store.flushDone]
    · simp [hs', Store.flushDone, ho]
  have hrun : ∀ o', (s'.osr o').deferredRunning =
      if o' = o then none else (s.osr o').deferredRunning := by
    intro o'
    by_cases ho : o' = o
    · subst ho; simp [hs', Store.flushDone]
    · simp [hs', Store.flushDone, ho]
  -- The batch goes from its sequencer to the queue of what is done.
  have hdone : allTxcs s'.doneQueue = allTxcs s.doneQueue ++ b.txcs := by
    simp [hs', Store.flushDone, allTxcs]
  have hb : ∀ x ∈ b.txcs, (s.txc x).osr = o ∧ x ∈ s.activeBatches o ∧ x ∈ s.batchPipe o := by
    intro x hx
    refine ⟨h.batch_osr o x (by simp [hr, batchTxcs, hx]), ?_, ?_⟩
    · simp [Store.activeBatches, hr, batchTxcs, hx]
    · simp [Store.batchPipe, Store.activeBatches, hr, batchTxcs, hx]
  -- On the batch's own sequencer the batch moves; the others see it arrive in the done queue.
  have hab : ∀ o', (s'.activeBatches o').Perm
      (s.activeBatches o' ++ if o' = o then [] else b.txcs) := by
    intro o'
    change (batchTxcs _ ++ batchTxcs _ ++ allTxcs s'.doneQueue ++
      allTxcs s.kvThread.batches).Perm _
    rw [hp, hrun, hdone, Store.activeBatches]
    by_cases ho : o' = o
    · subst ho
      simp only [if_true, batchTxcs, hr, Option.map_none, Option.getD_none, Option.map_some,
        Option.getD_some]
      grind
    · simp only [if_neg ho]
      grind
  have hbp : ∀ o', (s'.batchPipe o').Perm (s.batchPipe o' ++ if o' = o then [] else b.txcs) := by
    intro o'
    have := hab o'
    change (_ ++ allTxcs s.stableToFinalize ++ allTxcs s.finStable).Perm _
    rw [Store.batchPipe]
    grind
  -- No other sequencer has one of its transactions.
  have hnew : ∀ o', o' ≠ o → ∀ x ∈ b.txcs, x ∉ s.batchPipe o' := by
    intro o' ho x hx hm
    have hnd := h.batch_nodup o
    rw [Store.batchPipe, Store.activeBatches, hr] at hnd
    -- `x` is not pending or running on `o'`, so it would be completed already.
    have hm' : x ∈ allTxcs s.doneQueue ++ allTxcs s.kvThread.batches ++
        allTxcs s.stableToFinalize ++ allTxcs s.finStable := by
      rw [Store.batchPipe, Store.activeBatches] at hm
      simp only [List.mem_append] at hm ⊢
      rcases hm with ((((hm | hm) | hm) | hm) | hm) | hm
      · exact absurd ((h.batch_osr o' x (by simp [hm])).symm.trans (hb x hx).1) ho
      · exact absurd ((h.batch_osr o' x (by simp [hm])).symm.trans (hb x hx).1) ho
      all_goals tauto
    have hx' : x ∈ batchTxcs (some b) := by simpa [batchTxcs] using hx
    simp only [List.append_assoc] at hnd hm'
    have h2 := (List.nodup_append.mp hnd).2.1
    exact (List.nodup_append.mp h2).2.2 x hx' x hm' rfl
  have hmem : ∀ o', ∀ x ∈ s'.batchPipe o', x ∈ s.batchPipe o' ∨ x ∈ b.txcs := by
    intro o' x hx
    have := (hbp o').mem_iff.mp hx
    split_ifs at this
    · simpa using Or.inl this
    · simpa using this
  -- What the done queue has got is written since, as the log now says.
  exact {
    __ := h
    q_nodup := fun o' => by rw [hq]; exact h.q_nodup o'
    q_mem := fun o' => by rw [hq]; exact h.q_mem o'
    q_outstanding := fun o' => by rw [hq]; exact h.q_outstanding o'
    batch_nodup := fun o' => by
      rw [(hbp o').nodup_iff]
      split_ifs with ho
      · simpa using h.batch_nodup o'
      · have hbn : b.txcs.Nodup := by
          have hnd := h.batch_nodup o
          rw [Store.batchPipe, Store.activeBatches, hr] at hnd
          simp only [List.append_assoc] at hnd
          have h2 := (List.nodup_append.mp hnd).2.1
          simpa [batchTxcs] using (List.nodup_append.mp h2).1
        refine List.nodup_append.mpr ⟨h.batch_nodup o', hbn, ?_⟩
        intro x hx y hy hxy
        exact hnew o' ho y hy (hxy ▸ hx)
    batch_state := fun o' x hx => by
      rcases hmem o' x hx with hx | hx
      · exact h.batch_state o' x hx
      · exact h.batch_state o x (hb x hx).2.2
    batch_osr := fun o' x hx => by
      rw [hp, hrun] at hx
      split_ifs at hx with ho
      · exact h.batch_osr o' x (by
          simp only [batchTxcs, Option.map_none, Option.getD_none, List.append_nil] at hx
          simp [batchTxcs, hx])
      · exact h.batch_osr o' x hx
    batch_outstanding := fun o' x hx => by
      have := (hab o').mem_iff.mp hx
      split_ifs at this
      · exact h.batch_outstanding o' x (by simpa using this)
      · rcases List.mem_append.mp this with hx | hx
        · exact h.batch_outstanding o' x hx
        · exact h.batch_outstanding o x (hb x hx).2.1
    batch_writes := fun o' b' hb' => by
      rw [hp, hrun] at hb'
      refine h.batch_writes o' b' ?_
      split_ifs at hb' with ho
      · simpa using Or.inl (hb'.resolve_right (by simp))
      · exact hb'
    kv_present := by
      rw [hlog, present_append_of]
      · exact h.kv_present
      · intro e he
        obtain ⟨x, -, rfl⟩ := List.mem_map.mp he
        simp
    removed_mem := fun x hx => by
      rw [hlog] at hx
      exact h.removed_mem x (by simpa using hx)
    done_written := fun x hx => by
      rw [hlog]
      rw [hdone] at hx
      rcases List.mem_append.mp hx with hx | hx
      · exact (h.done_written x hx).append hcrash
      · exact writtenSince_map _ hx
    done_flushed := fun hf => absurd hf hw
    stable_flushed := fun x hx => (h.stable_flushed x hx).append _
    replay_mem := fun r hm => by
      obtain ⟨h1, h2, h3⟩ := h.replay_mem r hm
      refine ⟨h1, h2, fun o' => ⟨by rw [hq]; exact (h3 o').1, fun hb' => ?_⟩⟩
      rcases hmem o' _ hb' with hb' | hb'
      · exact (h3 o').2 hb'
      · exact (h3 o).2 (hb _ hb').2.2
    down := fun hd => by
      obtain ⟨h1, h2⟩ := h.down hd
      have hbn : b.txcs = [] := by
        have := (h2 o).2
        rw [Store.batchPipe, Store.activeBatches, hr] at this
        simp only [List.append_eq_nil_iff] at this
        simpa [batchTxcs] using this.1.1.1.1.2
      refine ⟨h1, fun o' => ⟨by rw [hq]; exact (h2 o').1, ?_⟩⟩
      have := hbp o'
      rw [hbn, (h2 o').2] at this
      simpa using this
    removed := by
      rw [hlog]
      exact h.removed.append fun e he x hx => by
        obtain ⟨y, -, rfl⟩ := List.mem_map.mp he
        simp at hx }

/-! ## New transactions and their IO -/

/-- The walk towards the front returns contexts nearest first. -/
theorem walkBack_isPrefix (s : Store) :
    ∀ (l back : List ℕ), s.walkBack l = some back → back <+: l
  | [], back, h => by
    simp only [Store.walkBack, Option.some.injEq] at h
    exact h ▸ List.nil_prefix
  | p :: ps, back, h => by
    rw [Store.walkBack] at h
    split_ifs at h
    · obtain rfl : [] = back := by simpa using h
      exact List.nil_prefix
    · obtain ⟨b, hb, rfl⟩ := Option.map_eq_some_iff.mp h
      exact (List.cons_prefix_cons).mpr ⟨rfl, walkBack_isPrefix s ps b hb⟩

/-- The contexts that become ready are a part of the sequencer's queue. -/
theorem ready_sublist (s : Store) (x : ℕ) : (s.ready x).Sublist (s.osr (s.txc x).osr).q := by
  simp only [Store.ready]
  split
  · exact List.nil_sublist _
  · rename_i back hback
    refine (List.takeWhile_sublist _).trans ?_
    have hsub : back.reverse.Sublist ((s.osr (s.txc x).osr).q.takeWhile (· ≠ x)) := by
      have := (walkBack_isPrefix s _ _ hback).sublist.reverse
      simpa using this
    have hall := hsub.append (List.Sublist.refl ((s.osr (s.txc x).osr).q.dropWhile (· ≠ x)))
    rwa [List.takeWhile_append_dropWhile] at hall

/-- The contexts that become ready are in `IO_DONE`. -/
theorem ready_state (s : Store) (x : ℕ) : ∀ y ∈ s.ready x, (s.txc y).state = .ioDone := by
  intro y hy
  simp only [Store.ready] at hy
  split at hy
  · simp at hy
  · simpa [Store.inState] using List.mem_takeWhile_imp hy

/-- A context whose AIOs complete goes to `IO_DONE`. -/
theorem PipeInv.ioDone {s : Store} (h : PipeInv s) {x : ℕ}
    (hx : (s.txc x).state.rank ≤ TxcState.aioWait.rank) : PipeInv (s.ioDone x) := by
  -- Nothing that is queued to commit is this context.
  have hne : ∀ y, TxcState.kvQueued.rank ≤ (s.txc y).state.rank → y ≠ x := by
    rintro y hy rfl
    simp only [TxcState.rank] at hx hy
    omega
  have htxc : ∀ y, y ≠ x → (s.ioDone x).txc y = s.txc y := fun y hyx => by
    simp [Store.ioDone, hyx]
  have hosr : ∀ y, ((s.ioDone x).txc y).osr = (s.txc y).osr := by
    intro y
    by_cases hyx : y = x
    · subst hyx; simp [Store.ioDone]
    · rw [htxc y hyx]
  have hdt : ∀ y, ((s.ioDone x).txc y).deferredTxn = (s.txc y).deferredTxn := by
    intro y
    by_cases hyx : y = x
    · subst hyx; simp [Store.ioDone]
    · rw [htxc y hyx]
  have hseq : ∀ y, (s.ioDone x).seqOf y = s.seqOf y := fun y => by
    rw [Store.seqOf, Store.seqOf, hdt]
  -- No state goes back.
  have hrank : ∀ y, (s.txc y).state.rank ≤ ((s.ioDone x).txc y).state.rank := by
    intro y
    by_cases hyx : y = x
    · subst hyx
      simp only [Store.ioDone, Function.update_self, TxcState.rank] at hx ⊢
      omega
    · rw [htxc y hyx]
  exact {
    __ := h
    q_mem := fun o y hy => by rw [hosr]; exact h.q_mem o y hy
    q_outstanding := fun o y hy hr hd => by
      rw [hdt] at hd
      exact h.q_outstanding o y hy ((hrank y).trans hr) hd
    commit_queued := fun y hy => by
      have hq := h.commit_queued y hy
      rw [htxc y (hne y (by simp [hq]))]
      exact hq
    commit_state := fun y hy hn => by
      have hq := h.commit_state y hy hn
      rw [htxc y (hne y (by simp [hq, TxcState.rank]))]
      exact hq
    commit_mem := fun y hy => by rw [hdt]; exact h.commit_mem y hy
    batch_state := fun o y hy => by
      have hq := h.batch_state o y hy
      rw [htxc y (hne y (by simp [hq.1, TxcState.rank]))]
      exact hq
    batch_osr := fun o y hy => by rw [hosr]; exact h.batch_osr o y hy
    kv_mem := fun e he => by
      obtain ⟨h1, h2, h3, h4⟩ := h.kv_mem e he
      exact ⟨h1, by rw [hdt]; exact h2, h3, h4.trans (hrank _)⟩
    kv_lt := fun e he y hy hu => by
      rw [hseq]
      exact h.kv_lt e he y hy ((hrank y).trans hu)
    keys := fun y hy z hz hyz => by
      rw [hseq, hseq] at hyz
      exact h.keys y hy z hz hyz }

/-- What `kvEnqueue` does to a context. -/
theorem kvEnqueue_txc (s : Store) (xs : List ℕ) (y : ℕ) :
    (s.kvEnqueue xs).txc y = if y ∈ xs then { s.txc y with state := .kvQueued } else s.txc y := by
  have key : ∀ (xs : List ℕ) (s : Store), (xs.foldl (fun s x => s.setState x .kvQueued) s).txc y =
      if y ∈ xs then { s.txc y with state := .kvQueued } else s.txc y := by
    intro xs
    induction xs with
    | nil => simp
    | cons x xs ih =>
      intro s
      rw [List.foldl_cons, ih]
      by_cases hyx : y = x
      · subst hyx; by_cases hy : y ∈ xs <;> simp
      · simp [hyx]
  exact key xs s

/-- `kvEnqueue` changes contexts and the KV queue only. -/
theorem kvEnqueue_frame (s : Store) (xs : List ℕ) :
    s.kvEnqueue xs = { s with txc := (s.kvEnqueue xs).txc, kvQueue := s.kvQueue ++ xs } := by
  have key : ∀ (xs : List ℕ) (s : Store), xs.foldl (fun s x => s.setState x .kvQueued) s =
      { s with txc := (xs.foldl (fun s x => s.setState x .kvQueued) s).txc } := by
    intro xs
    induction xs with
    | nil => exact fun s => rfl
    | cons x xs ih =>
      intro s
      rw [List.foldl_cons, ih (s.setState x .kvQueued)]
      rfl
  unfold Store.kvEnqueue
  rw [key xs s]

/-- Contexts of one sequencer in `IO_DONE` go to the KV queue. -/
theorem PipeInv.kvEnqueue {s : Store} (h : PipeInv s) {xs : List ℕ} {o : ℕ}
    (hsub : xs.Sublist (s.osr o).q) (hst : ∀ x ∈ xs, (s.txc x).state = .ioDone) :
    PipeInv (s.kvEnqueue xs) := by
  -- The contexts have not been queued before.
  have hnx : ∀ y, TxcState.kvQueued.rank ≤ (s.txc y).state.rank → y ∉ xs := by
    intro y hy hm
    rw [hst y hm] at hy
    simp [TxcState.rank] at hy
  have hosr : ∀ y, ((s.kvEnqueue xs).txc y).osr = (s.txc y).osr := fun y => by
    rw [kvEnqueue_txc]; split_ifs <;> rfl
  have hdt : ∀ y, ((s.kvEnqueue xs).txc y).deferredTxn = (s.txc y).deferredTxn := fun y => by
    rw [kvEnqueue_txc]; split_ifs <;> rfl
  have hseq : ∀ y, (s.kvEnqueue xs).seqOf y = s.seqOf y := fun y => by
    rw [Store.seqOf, Store.seqOf, hdt]
  have hrank : ∀ y, (s.txc y).state.rank ≤ ((s.kvEnqueue xs).txc y).state.rank := by
    intro y
    rw [kvEnqueue_txc]
    split_ifs with hy
    · rw [hst y hy]; simp [TxcState.rank]
    · exact le_refl _
  have hout : ∀ x ∈ xs, (s.txc x).deferredTxn.isSome → x ∈ s.outstanding := fun x hx hd =>
    h.q_outstanding o x (hsub.subset hx) (by rw [hst x hx]) hd
  have hpipe : ∀ y ∈ s.commitPipe, y ∉ xs := by
    intro y hy
    by_cases hq : y ∈ s.kvQueue ++ s.kvThread.unsubmitted
    · exact hnx y (by simp [h.commit_queued y hq])
    · exact hnx y (by simp [h.commit_state y hy hq, TxcState.rank])
  -- They join those that wait for their commit.
  have hcp : (s.kvEnqueue xs).commitPipe.Perm (s.commitPipe ++ xs) := by
    rw [kvEnqueue_frame, Store.commitPipe, Store.commitPipe]
    grind
  have hkq : (s.kvEnqueue xs).kvQueue = s.kvQueue ++ xs := rfl
  have hkt : (s.kvEnqueue xs).kvThread = s.kvThread := by rw [kvEnqueue_frame]
  have hph : (s.kvEnqueue xs).phase = s.phase := by rw [kvEnqueue_frame]
  have hxq : xs ≠ [] → s.phase ≠ .down := by
    intro hne hd
    have := (h.down hd).2 o
    rw [this.1] at hsub
    exact hne (List.sublist_nil.mp hsub)
  have hframe := kvEnqueue_frame s xs
  -- The fields that the step writes are the queue and the states.
  constructor
  case q_nodup => rw [hframe]; exact h.q_nodup
  case q_mem =>
    intro o' y hy
    rw [hosr]
    rw [hframe] at hy ⊢
    exact h.q_mem o' y hy
  case q_outstanding =>
    intro o' y hy hr hd
    rw [hdt] at hd
    rw [hframe] at hy ⊢
    exact h.q_outstanding o' y hy ((hrank y).trans hr) hd
  case unsubmitted => rw [hkt]; exact h.unsubmitted
  case commit_nodup =>
    rw [hcp.nodup_iff]
    refine List.nodup_append.mpr ⟨h.commit_nodup, (h.q_nodup o).sublist hsub, ?_⟩
    intro y hy z hz hyz
    exact hpipe y hy (hyz ▸ hz)
  case commit_queued =>
    rw [hkt, hkq]
    intro y hy
    rw [kvEnqueue_txc]
    split_ifs with hm
    · rfl
    · refine h.commit_queued y ?_
      simp only [List.mem_append] at hy ⊢
      tauto
  case commit_state =>
    rw [hkt, hkq]
    intro y hy hn
    have hm : y ∉ xs := fun hm => hn (by simp [hm])
    rw [kvEnqueue_txc, if_neg hm]
    refine h.commit_state y ?_ ?_
    · simpa [hm] using hcp.mem_iff.mp hy
    · simp only [List.mem_append] at hn ⊢
      tauto
  case commit_mem =>
    intro y hy
    rw [hdt]
    have := hcp.mem_iff.mp hy
    rw [hframe]
    rcases List.mem_append.mp this with hy | hy
    · exact h.commit_mem y hy
    · exact ⟨(h.q_mem o y (hsub.subset hy)).1, hout y hy⟩
  case batch_nodup => rw [hframe]; exact h.batch_nodup
  case batch_state =>
    intro o' y hy
    rw [hframe] at hy
    have hq := h.batch_state o' y hy
    rw [kvEnqueue_txc, if_neg (hnx y (by simp [hq.1, TxcState.rank]))]
    rw [hframe]
    exact hq
  case batch_osr =>
    intro o' y hy
    rw [hosr]
    rw [hframe] at hy
    exact h.batch_osr o' y hy
  case batch_outstanding => rw [hframe]; exact h.batch_outstanding
  case batch_writes => rw [hframe]; exact h.batch_writes
  case outstanding_lt => rw [hframe]; exact h.outstanding_lt
  case kv_mem =>
    intro e he
    rw [hdt]
    rw [hframe] at he
    obtain ⟨h1, h2, h3, h4⟩ := h.kv_mem e he
    refine ⟨by rw [hframe]; exact h1, h2, h3, h4.trans (hrank _)⟩
  case kv_sorted => rw [hframe]; exact h.kv_sorted
  case kv_lt =>
    intro e he y hy hu
    rw [hseq]
    have hu' : s.uncommitted y := (hrank y).trans hu
    rw [hframe] at he hy
    exact h.kv_lt e he y hy hu'
  case kv_present => rw [hframe]; exact h.kv_present
  case removed_mem => rw [hframe]; exact h.removed_mem
  case done_written => rw [hframe]; exact h.done_written
  case done_flushed => rw [hframe]; exact h.done_flushed
  case stable_flushed => rw [hframe]; exact h.stable_flushed
  case replay_present => rw [hframe]; exact h.replay_present
  case replay_mem =>
    intro r hr
    have hr' : r ∈ s.toReplay := by rw [hframe] at hr; exact hr
    obtain ⟨h1, h2, h3⟩ := h.replay_mem r hr'
    refine ⟨by rw [hframe]; exact h1, fun hm => ?_, by rw [hframe]; exact h3⟩
    rcases List.mem_append.mp (hcp.mem_iff.mp hm) with hm | hm
    · exact h2 hm
    · exact (h3 o).1 (hsub.subset hm)
  case replay_nodup => rw [hframe]; exact h.replay_nodup
  case down =>
    rw [hph]
    intro hd
    obtain ⟨h1, h2⟩ := h.down hd
    refine ⟨?_, by rw [hframe]; exact h2⟩
    -- Nothing is queued when the store is down.
    have hnil : xs = [] := by
      by_contra hne
      exact hxq hne hd
    rw [h1, hnil] at hcp
    simpa [hnil] using hcp
  case keys =>
    intro y hy z hz hyz
    rw [hseq, hseq] at hyz
    rw [hframe] at hy hz
    exact h.keys y hy z hz hyz
  case removed => rw [hframe]; exact h.removed

/-- `_txc_finish_io`. -/
theorem PipeInv.finishIo {s : Store} (h : PipeInv s) {x : ℕ}
    (hx : (s.txc x).state.rank ≤ TxcState.aioWait.rank) : PipeInv (s.finishIo x) :=
  (h.ioDone hx).kvEnqueue (ready_sublist _ _) (ready_state _ _)

/-! ## New transactions -/

namespace Store

/-- The store with a new transaction on sequencer `o`, in the given state. -/
def newTxn (s : Store) (o : ℕ) (st : TxcState) (aios : Bool) (ops : Option DeferredOps) : Store :=
  let x := s.nextTxn
  let seq := (s.deferredSeq + 1) % 2 ^ 64
  { s with
    nextTxn := x + 1
    deferredSeq := if ops.isSome then seq else s.deferredSeq
    txc := Function.update s.txc x ⟨o, st, aios, ops.map fun ops => ⟨seq, ops⟩⟩
    osr := Function.update s.osr o { s.osr o with q := (s.osr o).q ++ [x] }
    outstanding := if ops.isSome then s.outstanding ++ [x] else s.outstanding }

/-- `queue_transactions` makes a new transaction, and finishes its IO when there is none. -/
theorem queueTransactions_eq (s : Store) (o : ℕ) (aios : Bool) (ops : Option DeferredOps) :
    s.queueTransactions o aios ops = if aios then s.newTxn o .aioWait true ops
      else (s.newTxn o .prepare false ops).finishIo s.nextTxn := by
  cases aios <;> simp [queueTransactions, newTxn]

end Store

/-- A new transaction keeps the invariant when its key is past those that are outstanding. -/
theorem PipeInv.newTxn {s : Store} (h : PipeInv s) {o : ℕ} (st : TxcState) {aios : Bool}
    {ops : Option DeferredOps} (hup : s.phase = .up)
    (hseq : ops.isSome → ∀ x ∈ s.outstanding, s.seqOf x < (s.deferredSeq + 1) % 2 ^ 64) :
    PipeInv (s.newTxn o st aios ops) := by
  set x := s.nextTxn with hx
  set s' := s.newTxn o st aios ops with hs'
  -- The new name is in no queue.
  have hold : ∀ y, y < x → s'.txc y = s.txc y := fun y hy => by
    simp [hs', Store.newTxn, ← hx, hy.ne]
  have hnew : s'.txc x = ⟨o, st, aios, ops.map fun ops => ⟨(s.deferredSeq + 1) % 2 ^ 64, ops⟩⟩ := by
    simp [hs', Store.newTxn, ← hx]
  have hseqOld : ∀ y, y < x → s'.seqOf y = s.seqOf y := fun y hy => by
    rw [Store.seqOf, Store.seqOf, hold y hy]
  have hq : ∀ o', ∀ y ∈ (s'.osr o').q, y ∈ (s.osr o').q ∨ (y = x ∧ o' = o) := by
    intro o' y hy
    by_cases hoo : o' = o
    · subst hoo; simpa [hs', Store.newTxn, ← hx] using hy
    · simp only [hs', Store.newTxn, Function.update_of_ne hoo] at hy
      exact .inl hy
  have hp : ∀ o', (s'.osr o').deferredPending = (s.osr o').deferredPending := by
    intro o'
    by_cases hoo : o' = o
    · subst hoo; simp [hs', Store.newTxn]
    · simp [hs', Store.newTxn, hoo]
  -- No batch has changed.
  have hr : ∀ o', (s'.osr o').deferredRunning = (s.osr o').deferredRunning := by
    intro o'
    by_cases hoo : o' = o
    · subst hoo; simp [hs', Store.newTxn]
    · simp [hs', Store.newTxn, hoo]
  have hab : ∀ o', s'.activeBatches o' = s.activeBatches o' := by
    intro o'
    rw [Store.activeBatches, Store.activeBatches, hp, hr]
    rfl
  have hbp : ∀ o', s'.batchPipe o' = s.batchPipe o' := by
    intro o'
    rw [Store.batchPipe, Store.batchPipe, hab]
    rfl
  -- The new transaction is outstanding when it has deferred writes.
  have hout : ∀ y, y ∈ s'.outstanding ↔ y ∈ s.outstanding ∨ (ops.isSome ∧ y = x) := by
    intro y
    cases ops <;> simp [hs', Store.newTxn, ← hx]
  have hltq : ∀ o', ∀ y ∈ (s.osr o').q, y < x := fun o' y hy => (h.q_mem o' y hy).1
  -- All names that are in use are smaller than the new one.
  have hlto : ∀ y ∈ s.outstanding, y < x := h.outstanding_lt
  have hnext : s'.nextTxn = x + 1 := rfl
  -- Its key is the next of the counter.
  have hseqNew : ops.isSome → s'.seqOf x = (s.deferredSeq + 1) % 2 ^ 64 := by
    intro hops
    obtain ⟨ops', rfl⟩ := Option.isSome_iff_exists.mp hops
    simp [Store.seqOf, hnew]
  -- The clauses of the invariant, of what is older and of the new one.
  exact {
    __ := h
    q_nodup := fun o' => by
      by_cases hoo : o' = o
      · subst hoo
        simp only [hs', Store.newTxn, Function.update_self, ← hx]
        refine List.nodup_append.mpr ⟨h.q_nodup o', by simp, ?_⟩
        intro a ha b hb hab'
        have := hltq o' a ha
        simp only [List.mem_singleton] at hb
        omega
      · simpa [hs', Store.newTxn, hoo] using h.q_nodup o'
    q_mem := fun o' y hy => by
      rcases hq o' y hy with hy | ⟨rfl, rfl⟩
      · have := h.q_mem o' y hy
        rw [hold y this.1, hnext]
        exact ⟨by omega, this.2⟩
      · rw [hnew, hnext]
        exact ⟨by omega, rfl⟩
    q_outstanding := fun o' y hy hrk hd => by
      rw [hout]
      rcases hq o' y hy with hy | ⟨rfl, rfl⟩
      · rw [hold y (hltq o' y hy)] at hrk hd
        exact .inl (h.q_outstanding o' y hy hrk hd)
      · rw [hnew] at hd
        exact .inr ⟨by simpa using hd, rfl⟩
    commit_queued := fun y hy => by
      have hmem : y ∈ s.commitPipe := by
        have hsub := h.unsubmitted.subset
        simp only [Store.commitPipe, List.mem_append]
        rcases List.mem_append.mp hy with hy | hy
        · exact .inl (.inl (.inl hy))
        · exact .inl (.inl (.inr (hsub hy)))
      rw [hold y (h.commit_mem y hmem).1]
      exact h.commit_queued y hy
    commit_state := fun y hy hn => by
      rw [hold y (h.commit_mem y hy).1]
      exact h.commit_state y hy hn
    commit_mem := fun y hy => by
      have := h.commit_mem y hy
      rw [hold y this.1, hnext, hout]
      exact ⟨by omega, fun hd => .inl (this.2 hd)⟩
    batch_nodup := fun o' => by rw [hbp]; exact h.batch_nodup o'
    batch_state := fun o' y hy => by
      rw [hbp] at hy
      have := h.batch_state o' y hy
      rw [hold y this.2, hnext]
      exact ⟨this.1, by omega⟩
    batch_osr := fun o' y hy => by
      rw [hp, hr] at hy
      have hm : y ∈ s.batchPipe o' := by
        rw [Store.batchPipe, Store.activeBatches]
        simp only [List.mem_append] at hy ⊢
        tauto
      rw [hold y (h.batch_state o' y hm).2]
      exact h.batch_osr o' y hy
    batch_outstanding := fun o' y hy => by
      rw [hab] at hy
      rw [hout]
      exact .inl (h.batch_outstanding o' y hy)
    batch_writes := fun o' b hb => by
      rw [hp, hr] at hb
      exact h.batch_writes o' b hb
    outstanding_lt := fun y hy => by
      rw [hnext]
      rcases (hout y).mp hy with hy | ⟨-, rfl⟩
      · have := hlto y hy
        omega
      · omega
    kv_mem := fun e he => by
      obtain ⟨h1, h2, h3, h4⟩ := h.kv_mem e he
      rw [hold _ (hlto _ h1), hout]
      exact ⟨.inl h1, h2, h3, h4⟩
    kv_lt := fun e he y hy hu => by
      rcases (hout y).mp hy with hy | ⟨hops, rfl⟩
      · rw [hseqOld y (hlto y hy)]
        refine h.kv_lt e he y hy ?_
        rwa [Store.uncommitted, hold y (hlto y hy)] at hu
      · obtain ⟨h1, h2, h3, -⟩ := h.kv_mem e he
        have := hseq hops _ h1
        rw [hseqNew hops]
        rwa [Store.seqOf, h2, Option.map_some, Option.getD_some, h3] at this
    removed_mem := fun y hy => by
      obtain ⟨h1, h2⟩ := h.removed_mem y hy
      rw [hout, hnext]
      refine ⟨?_, by omega⟩
      rintro (h3 | ⟨-, rfl⟩)
      · exact h1 h3
      · exact absurd h2 (lt_irrefl _)
    replay_mem := fun r hm => by
      simp [hs', Store.newTxn, Store.toReplay, hup] at hm
    down := fun hd => by
      simp [hs', Store.newTxn, hup] at hd
    keys := fun y hy z hz hyz => by
      rcases (hout y).mp hy with hy | ⟨hops, rfl⟩ <;> rcases (hout z).mp hz with hz | ⟨hops', rfl⟩
      · rw [hseqOld y (hlto y hy), hseqOld z (hlto z hz)] at hyz
        exact h.keys y hy z hz hyz
      · rw [hseqOld y (hlto y hy), hseqNew hops'] at hyz
        have := hseq hops' y hy
        omega
      · rw [hseqOld z (hlto z hz), hseqNew hops] at hyz
        have := hseq hops z hz
        omega
      · rfl }

/-- `queue_transactions`. -/
theorem pipeInv_queueTransactions {s : Store} (h : PipeInv s) (hup : s.phase = .up) {o : ℕ}
    {aios : Bool} {ops : Option DeferredOps}
    (hseq : ops.isSome → ∀ x ∈ s.outstanding, s.seqOf x < (s.deferredSeq + 1) % 2 ^ 64) :
    PipeInv (s.queueTransactions o aios ops) := by
  rw [Store.queueTransactions_eq]
  cases aios with
  | true => exact h.newTxn .aioWait hup hseq
  | false =>
    refine (h.newTxn .prepare hup hseq).finishIo ?_
    simp [Store.newTxn, TxcState.rank]

/-! ## Crash and mount -/

/-- The death of the process. -/
theorem pipeInv_crash {s : Store} (h : PipeInv s) : PipeInv s.crash := by
  have hcp : s.crash.commitPipe = [] := rfl
  have hbp : ∀ o, s.crash.batchPipe o = [] := fun o => rfl
  have hpres : present s.crash.log = present s.log :=
    present_append_of fun e he => by simp [List.mem_singleton.mp he]
  -- The records that are left are those of transactions that are outstanding.
  have hmem : ∀ x ∈ s.crash.outstanding, ∃ e ∈ s.kv, e.2.owner = x := fun x hx => by
    simpa [Store.crash] using hx
  have hout : ∀ x ∈ s.crash.outstanding, x ∈ s.outstanding := by
    intro x hx
    obtain ⟨e, he, rfl⟩ := hmem x hx
    exact (h.kv_mem e he).1
  -- In memory nothing is left, so what speaks of queues holds of nothing.
  constructor
  case q_nodup => simp [Store.crash, Store.init, OpSequencer.empty]
  case q_mem => simp [Store.crash, Store.init, OpSequencer.empty]
  case q_outstanding => simp [Store.crash, Store.init, OpSequencer.empty]
  case unsubmitted => simp [Store.crash, Store.init, KvThread.unsubmitted]
  case commit_nodup => simp [hcp]
  case commit_queued => simp [Store.crash, Store.init, KvThread.unsubmitted]
  case commit_state => simp [hcp]
  case commit_mem => simp [hcp]
  case batch_nodup => simp [hbp]
  case batch_state => simp [hbp]
  case batch_osr => simp [Store.crash, Store.init, OpSequencer.empty, batchTxcs]
  case batch_outstanding =>
    simp [Store.activeBatches, Store.crash, Store.init, OpSequencer.empty, batchTxcs, allTxcs,
      KvThread.batches]
  case batch_writes => simp [Store.crash, Store.init, OpSequencer.empty]
  case outstanding_lt => exact fun x hx => h.outstanding_lt x (hout x hx)
  case kv_mem =>
    intro e he
    obtain ⟨-, h2⟩ := h.kv_mem e he
    exact ⟨List.mem_map_of_mem he, h2⟩
  case kv_sorted => exact h.kv_sorted
  case kv_lt => exact fun e he y hy hu => h.kv_lt e he y (hout y hy) hu
  case kv_present => rw [hpres]; exact h.kv_present
  case removed_mem =>
    intro x hx
    have hx' : .remove x ∈ s.log := by simpa [Store.crash] using hx
    obtain ⟨h1, h2⟩ := h.removed_mem x hx'
    exact ⟨fun hm => h1 (hout x hm), h2⟩
  case done_written => simp [Store.crash, Store.init, allTxcs]
  case done_flushed => simp [Store.crash, Store.init, allTxcs]
  case stable_flushed => simp [Store.crash, Store.init, allTxcs, KvThread.batches]
  case replay_present => exact fun hne => absurd rfl hne
  case replay_mem => simp [Store.toReplay, Store.crash]
  case replay_nodup => simp [Store.toReplay, Store.crash]
  case down => exact fun _ => ⟨hcp, fun o => ⟨rfl, hbp o⟩⟩
  case keys => exact fun x hx y hy hxy => h.keys x (hout x hx) y (hout y hy) hxy
  case removed => exact h.removed.append fun e he => by simp [List.mem_singleton.mp he]

/-- Records in the store have distinct owners. -/
theorem PipeInv.owners_nodup {s : Store} (h : PipeInv s) :
    (s.kv.map fun e => e.2.owner).Nodup := by
  refine List.Nodup.map_on ?_ (h.kv_sorted.imp fun hlt heq => by simp [heq] at hlt)
  intro e he f hf hef
  obtain ⟨-, he2, he3, -⟩ := h.kv_mem e he
  obtain ⟨-, hf2, hf3, -⟩ := h.kv_mem f hf
  have htxn : e.2.txn = f.2.txn := by
    have := he2.symm.trans ((congrArg (fun x => (s.txc x).deferredTxn) hef).trans hf2)
    simpa using this
  have hkey : e.1 = f.1 := by rw [← he3, ← hf3, htxn]
  obtain ⟨k, o, t⟩ := e
  obtain ⟨k', o', t'⟩ := f
  simp_all

/-- `mount` up to the replay. -/
theorem pipeInv_mount {s : Store} (h : PipeInv s) (hd : s.phase = .down) :
    PipeInv { s with
      phase := .replaying (s.kv.map Prod.snd), mountLog := s.log, replayed := [] } := by
  obtain ⟨hc, hm⟩ := h.down hd
  have howner : (s.kv.map Prod.snd).map DeferredRecord.owner = s.kv.map fun e => e.2.owner := by
    simp [Function.comp_def]
  exact {
    __ := h
    replay_present := fun _ => by
      simp only [Store.toReplay, List.nil_append, howner]
      exact h.kv_present
    replay_mem := fun r hr => by
      have hr' : r ∈ s.kv.map Prod.snd := hr
      obtain ⟨e, he, rfl⟩ := List.mem_map.mp hr'
      refine ⟨⟨e.1, he⟩, ?_, fun o => ⟨?_, ?_⟩⟩
      · change _ ∉ s.commitPipe
        simp [hc]
      · simp [(hm o).1]
      · change _ ∉ s.batchPipe o
        simp [(hm o).2]
    replay_nodup := by
      simp only [Store.toReplay, howner]
      exact h.owners_nodup
    down := fun hd' => by simp at hd' }

namespace Store

/-- The context that replays a record is set up, and the record is no longer to be replayed. -/
def replayStart (s : Store) (r : DeferredRecord) (rest : List DeferredRecord) : Store :=
  { s with
    phase := .replaying rest
    txc := Function.update s.txc r.owner ⟨0, .kvDone, false, some r.txn⟩
    osr := Function.update s.osr 0 { s.osr 0 with q := (s.osr 0).q ++ [r.owner] }
    replayed := s.replayed ++ [r.owner] }

/-- The replay of a record is `STATE_KV_DONE` of the context that was set up for it. -/
theorem replay_eq (s : Store) (r : DeferredRecord) (rest : List DeferredRecord) :
    { s.replay r with phase := .replaying rest } = (s.replayStart r rest).procKvDone r.owner := by
  simp [replay, replayStart, procKvDone, deferredEnqueue, setState]

end Store

/-- The set-up of the next record's context keeps the invariant. -/
theorem PipeInv.replayStart {s : Store} (h : PipeInv s) {r : DeferredRecord}
    {rest : List DeferredRecord} (hp : s.phase = .replaying (r :: rest)) :
    PipeInv (s.replayStart r rest) := by
  set x := r.owner with hx
  set s' := s.replayStart r rest with hs'
  have hto : s.toReplay = r :: rest := by rw [Store.toReplay, hp]
  have hto' : s'.toReplay = rest := rfl
  -- Its record is in the store, and it is in no queue yet.
  obtain ⟨⟨k, hk⟩, hxc, hxo⟩ := h.replay_mem r (by rw [hto]; simp)
  obtain ⟨hout, htxn, -, hrank⟩ := h.kv_mem _ hk
  have hne : ∀ r' ∈ rest, r'.owner ≠ x := by
    have hnd := h.replay_nodup
    rw [hto, List.map_cons, List.nodup_cons] at hnd
    exact fun r' hr' hrx => hnd.1 (List.mem_map.mpr ⟨r', hr', hrx⟩)
  -- Only this context is set up anew.
  have hold : ∀ y, y ≠ x → s'.txc y = s.txc y := fun y hy => by
    simp [hs', Store.replayStart, ← hx, hy]
  have hnew : s'.txc x = ⟨0, .kvDone, false, some r.txn⟩ := by simp [hs', Store.replayStart, ← hx]
  have hdt : ∀ y, (s'.txc y).deferredTxn = (s.txc y).deferredTxn := by
    intro y
    by_cases hy : y = x
    · rw [hy, hnew, htxn]
    · rw [hold y hy]
  have hseq : ∀ y, s'.seqOf y = s.seqOf y := fun y => by rw [Store.seqOf, Store.seqOf, hdt]
  have hunc : ∀ y, s'.uncommitted y → s.uncommitted y := by
    intro y hu
    by_cases hy : y = x
    · rw [Store.uncommitted, hy, hnew] at hu
      simp [TxcState.rank] at hu
    · rwa [Store.uncommitted, hold y hy] at hu
  -- It enters the queue of the first sequencer.
  have hq : ∀ o, ∀ y ∈ (s'.osr o).q, y ∈ (s.osr o).q ∨ (y = x ∧ o = 0) := by
    intro o y hy
    by_cases ho : o = 0
    · subst ho; simpa [hs', Store.replayStart, ← hx] using hy
    · simp only [hs', Store.replayStart, Function.update_of_ne ho] at hy
      exact .inl hy
  have hpend : ∀ o, (s'.osr o).deferredPending = (s.osr o).deferredPending := by
    intro o
    by_cases ho : o = 0
    · subst ho; simp [hs', Store.replayStart]
    · simp [hs', Store.replayStart, ho]
  have hrun : ∀ o, (s'.osr o).deferredRunning = (s.osr o).deferredRunning := by
    intro o
    by_cases ho : o = 0
    · subst ho; simp [hs', Store.replayStart]
    · simp [hs', Store.replayStart, ho]
  have hab : ∀ o, s'.activeBatches o = s.activeBatches o := by
    intro o
    rw [Store.activeBatches, Store.activeBatches, hpend, hrun]
    rfl
  have hbp : ∀ o, s'.batchPipe o = s.batchPipe o := by
    intro o
    rw [Store.batchPipe, Store.batchPipe, hab]
    rfl
  rw [← hx] at hxc hxo
  -- The queues and batches know nothing of it.
  have hcx : ∀ y ∈ s.commitPipe, y ≠ x := fun y hy hyx => hxc (hyx ▸ hy)
  have hbx : ∀ o, ∀ y ∈ s.batchPipe o, y ≠ x := fun o y hy hyx => (hxo o).2 (hyx ▸ hy)
  have hqx : ∀ o, ∀ y ∈ (s.osr o).q, y ≠ x := fun o y hy hyx => (hxo o).1 (hyx ▸ hy)
  -- The clauses of the invariant, where it is the only new member of a queue.
  exact {
    __ := h
    q_nodup := fun o => by
      by_cases ho : o = 0
      · subst ho
        simp only [hs', Store.replayStart, Function.update_self, ← hx]
        refine List.nodup_append.mpr ⟨h.q_nodup 0, by simp, ?_⟩
        intro a ha b hb
        rw [List.mem_singleton.mp hb]
        exact hqx 0 a ha
      · simpa [hs', Store.replayStart, ho] using h.q_nodup o
    q_mem := fun o y hy => by
      rcases hq o y hy with hy | ⟨rfl, rfl⟩
      · rw [hold y (hqx o y hy)]
        exact h.q_mem o y hy
      · rw [hnew]
        exact ⟨h.outstanding_lt _ hout, rfl⟩
    q_outstanding := fun o y hy hrk hd => by
      rcases hq o y hy with hy | ⟨rfl, rfl⟩
      · rw [hold y (hqx o y hy)] at hrk hd
        exact h.q_outstanding o y hy hrk hd
      · exact hout
    commit_queued := fun y hy => by
      have hmem : y ∈ s.commitPipe := by
        have hsub := h.unsubmitted.subset
        simp only [Store.commitPipe, List.mem_append]
        rcases List.mem_append.mp hy with hy | hy
        · exact .inl (.inl (.inl hy))
        · exact .inl (.inl (.inr (hsub hy)))
      rw [hold y (hcx y hmem)]
      exact h.commit_queued y hy
    commit_state := fun y hy hn => by
      rw [hold y (hcx y hy)]
      exact h.commit_state y hy hn
    commit_mem := fun y hy => by
      rw [hold y (hcx y hy)]
      exact h.commit_mem y hy
    batch_nodup := fun o => by rw [hbp]; exact h.batch_nodup o
    batch_state := fun o y hy => by
      rw [hbp] at hy
      rw [hold y (hbx o y hy)]
      exact h.batch_state o y hy
    batch_osr := fun o y hy => by
      rw [hpend, hrun] at hy
      have hm : y ∈ s.batchPipe o := by
        rw [Store.batchPipe, Store.activeBatches]
        simp only [List.mem_append] at hy ⊢
        tauto
      rw [hold y (hbx o y hm)]
      exact h.batch_osr o y hy
    batch_outstanding := fun o y hy => by
      rw [hab] at hy
      exact h.batch_outstanding o y hy
    batch_writes := fun o b hb => by
      rw [hpend, hrun] at hb
      exact h.batch_writes o b hb
    kv_mem := fun e he => by
      obtain ⟨h1, h2, h3, h4⟩ := h.kv_mem e he
      refine ⟨h1, by rw [hdt]; exact h2, h3, ?_⟩
      by_cases hy : e.2.owner = x
      · rw [hy, hnew]; simp [TxcState.rank]
      · rw [hold _ hy]; exact h4
    kv_lt := fun e he y hy hu => by
      rw [hseq]
      exact h.kv_lt e he y hy (hunc y hu)
    replay_present := fun _ => by
      have := h.replay_present (by rw [hp]; simp)
      rw [hto, List.map_cons] at this
      rw [hto']
      change s.replayed ++ [x] ++ rest.map DeferredRecord.owner = present s.mountLog
      rw [← List.append_cons]
      exact this
    replay_mem := fun r' hr' => by
      rw [hto'] at hr'
      obtain ⟨h1, h2, h3⟩ := h.replay_mem r' (by rw [hto]; exact List.mem_cons_of_mem _ hr')
      refine ⟨h1, h2, fun o => ⟨fun hm => ?_, by rw [hbp]; exact (h3 o).2⟩⟩
      rcases hq o _ hm with hm | ⟨hm, -⟩
      · exact (h3 o).1 hm
      · exact hne r' hr' hm
    replay_nodup := by
      have hnd := h.replay_nodup
      rw [hto, List.map_cons] at hnd
      exact (List.nodup_cons.mp hnd).2
    down := fun hd => by simp [hs', Store.replayStart] at hd
    keys := fun y hy z hz hyz => by
      rw [hseq, hseq] at hyz
      exact h.keys y hy z hz hyz }

/-- The replay of the next record. -/
theorem pipeInv_replayNext {s : Store} (h : PipeInv s) {r : DeferredRecord}
    {rest : List DeferredRecord} (hp : s.phase = .replaying (r :: rest)) :
    PipeInv { s.replay r with phase := .replaying rest } := by
  have hto : s.toReplay = r :: rest := by rw [Store.toReplay, hp]
  obtain ⟨⟨k, hk⟩, hc, hq⟩ := h.replay_mem r (by rw [hto]; simp)
  have hbp : ∀ o, (s.replayStart r rest).batchPipe o = s.batchPipe o := by
    intro o
    by_cases ho : o = 0
    · subst ho; simp [Store.batchPipe, Store.activeBatches, Store.replayStart]
    · simp [Store.batchPipe, Store.activeBatches, Store.replayStart, ho]
  rw [Store.replay_eq]
  refine (h.replayStart hp).procKvDone hc ?_ ?_ ?_ ?_
  · intro o
    rw [hbp]
    exact (hq o).2
  · simp [Store.replayStart]
  · exact fun _ => (h.kv_mem _ hk).1
  · intro r' hr' hrr
    have hnd := h.replay_nodup
    rw [hto, List.map_cons, List.nodup_cons] at hnd
    exact hnd.1 (List.mem_map.mpr ⟨r', hr', hrr⟩)

/-- The end of `mount`. -/
theorem pipeInv_mountDone {s : Store} (h : PipeInv s) (hp : s.phase = .replaying []) :
    PipeInv { s with phase := .up } := by
  have hto : s.toReplay = [] := by rw [Store.toReplay, hp]
  exact {
    __ := h
    replay_present := fun _ => by
      have := h.replay_present (by rw [hp]; simp)
      rwa [hto] at this
    replay_mem := fun r hr => by simp [Store.toReplay] at hr
    replay_nodup := by simp [Store.toReplay]
    down := fun hd => by simp at hd }

/-! ## Every step -/

/-- A caller of `try_submit` looks at one sequencer. A batch always has something to write, so
the path that completes it at once is not taken. -/
theorem pipeInv_trySubmitOne {s s' : Store} (h : PipeInv s) {o : ℕ}
    (hs : s.step (.trySubmitOne o) = some s') : PipeInv s' := by
  have h1 : PipeInv { s with submitting := s.submitting.erase o } := by
    apply h.move []
    · simp [MovedQueues]
    · simp
    · exact h.unsubmitted
    · rfl
    · exact List.Subperm.refl _
    · exact fun o => List.Subperm.refl _
    · exact fun o y hy => hy
    · simp
    · simpa using h.done_flushed
    · simpa using h.stable_flushed
  simp only [Store.step] at hs
  split at hs
  · split at hs
    · rename_i b hpend hrun
      have hne := h1.batch_writes o b (.inl hpend)
      have hemp : b.writes.isEmpty = false := by simpa using hne
      simp only [hemp, Bool.false_eq_true, if_false, Option.some.injEq] at hs
      exact hs ▸ h1.startBatch hpend hrun
    · simp only [Option.some.injEq] at hs
      exact hs ▸ h1
  · simp at hs

/-- Every step that meets the condition keeps the invariant. -/
theorem pipeInv_step {s s' : Store} {a : Action} (h : PipeInv s) (hok : DeferredLogOk s a)
    (hs : s.step a = some s') : PipeInv s' := by
  -- One case for each action, by the lemma about it.
  cases a with
  | queueTransactions o aios ops =>
    simp only [Store.step] at hs
    split at hs
    · rename_i hup
      simp only [Option.some.injEq] at hs
      refine hs ▸ pipeInv_queueTransactions h hup ?_
      intro hops
      obtain ⟨ops', rfl⟩ := Option.isSome_iff_exists.mp hops
      exact hok
    · simp at hs
  | aioFinish x =>
    simp only [Store.step, Option.ite_none_right_eq_some, Option.some.injEq] at hs
    obtain ⟨⟨hst, -⟩, rfl⟩ := hs
    exact h.finishIo (by simp [hst])
  | kvStart =>
    simp only [Store.step] at hs
    split at hs
    · rename_i hk
      simp only [Option.ite_none_left_eq_some, Option.some.injEq] at hs
      exact hs.2 ▸ pipeInv_kvStart h hk
    · simp at hs
  | kvSubmit =>
    simp only [Store.step] at hs
    split at hs
    · rename_i c x rest hk
      simp only [Option.some.injEq] at hs
      obtain ⟨hst, hinv⟩ := pipeInv_kvSubmit h hk hok
      rw [if_pos hst] at hs
      exact hs ▸ hinv
    · simp at hs
  | kvFlush =>
    simp only [Store.step] at hs
    split at hs
    · rename_i c hk
      simp only [Option.some.injEq] at hs
      exact hs ▸ pipeInv_kvFlush h hk
    · simp at hs
  | kvTrySubmit =>
    simp only [Store.step] at hs
    split at hs
    · rename_i c hk
      simp only [Option.some.injEq] at hs
      exact hs ▸ pipeInv_kvTrySubmit h hk
    · simp at hs
  | kvStable =>
    simp only [Store.step] at hs
    split at hs
    · rename_i c hk
      simp only [Option.some.injEq] at hs
      exact hs ▸ pipeInv_kvStable h hk
    · simp at hs
  | kvRemove =>
    simp only [Store.step] at hs
    split at hs
    · rename_i c bs hk
      simp only [Option.some.injEq] at hs
      exact hs ▸ pipeInv_kvRemove h hk
    · simp at hs
  | trySubmitSwap =>
    simp only [Store.step, Option.some.injEq] at hs
    exact hs ▸ pipeInv_trySubmitSwap h
  | trySubmitOne o => exact pipeInv_trySubmitOne h hs
  | batchAioFinish o =>
    simp only [Store.step] at hs
    split at hs
    · rename_i b hrun
      simp only [Option.some.injEq] at hs
      exact hs ▸ h.flushDone hrun hok
    · simp at hs
  | finStart =>
    simp only [Store.step, Option.ite_none_right_eq_some, Option.some.injEq] at hs
    obtain ⟨⟨hc, hst⟩, rfl⟩ := hs
    exact pipeInv_finStart h hc (by simpa using hst)
  | finCommit =>
    simp only [Store.step] at hs
    split at hs
    · rename_i x xs hf
      simp only [Option.some.injEq] at hs
      obtain ⟨hst, hinv⟩ := pipeInv_finCommit h hf
      rw [if_pos hst] at hs
      exact hs ▸ hinv
    · simp at hs
  | finStable =>
    simp only [Store.step] at hs
    split at hs
    · rename_i b bs hc hf
      simp only [Option.some.injEq] at hs
      exact hs ▸ pipeInv_finStable h hf
    · simp at hs
  | crash =>
    simp only [Store.step, Option.some.injEq] at hs
    exact hs ▸ pipeInv_crash h
  | mount =>
    simp only [Store.step] at hs
    split at hs
    · rename_i hd
      simp only [Option.some.injEq] at hs
      exact hs ▸ pipeInv_mount h hd
    · simp at hs
  | replayNext =>
    simp only [Store.step] at hs
    split at hs
    · rename_i r rest hp
      simp only [Option.some.injEq] at hs
      exact hs ▸ pipeInv_replayNext h hp
    · simp at hs
  | mountDone =>
    simp only [Store.step] at hs
    split at hs
    · rename_i hp
      simp only [Option.some.injEq] at hs
      exact hs ▸ pipeInv_mountDone h hp
    · simp at hs

/-- In every run whose steps all meet the condition, the deferred log does its work in every state
reached: the records of committed transactions go only after their data is durable, outstanding
transactions have distinct keys, and every mount re-applies what is there in commit order. -/
theorem deferred_log_safe (as : List Action) (s : Store)
    (hm : Runs.Meets Store.step DeferredLogOk Store.init as)
    (hs : Runs.exec Store.step Store.init as = some s) : DeferredLogSafe s :=
  PipeInv.safe (Runs.exec_invariant (fun _ _ _ h hok hs => pipeInv_step h hok hs) as
    Store.init s pipeInv_init hm hs)

/-- A deferred overwrite of one block. -/
def blockOverwrite : DeferredOps where
  first := ⟨[⟨some 4096, 4⟩], [1, 2, 3, 4], by decide⟩
  rest := []

/-- A deferred transaction is committed, written, flushed and removed; then another one is
committed, and the process dies and comes back. -/
def overwriteThenCrash : List Action :=
  [.queueTransactions 0 false (some blockOverwrite), .kvStart, .kvSubmit, .kvFlush, .kvTrySubmit,
    .kvStable, .kvRemove, .finStart, .finCommit, .trySubmitSwap, .trySubmitOne 0,
    .batchAioFinish 0, .queueTransactions 1 false (some blockOverwrite), .kvStart, .kvSubmit,
    .kvFlush, .kvTrySubmit, .kvStable, .kvRemove, .crash, .mount, .replayNext, .mountDone]

/-- The condition is met by a run that goes through the whole life of a record and a crash. -/
theorem deferred_log_safe_overwriteThenCrash :
    ∃ s, Runs.exec Store.step Store.init overwriteThenCrash = some s ∧
      .remove 0 ∈ s.log ∧ s.replayed = [1] ∧ DeferredLogSafe s := by
  have hrun : (Runs.exec Store.step Store.init overwriteThenCrash).isSome := by decide +kernel
  obtain ⟨s, hs⟩ := Option.isSome_iff_exists.mp hrun
  have hlog : (Runs.exec Store.step Store.init overwriteThenCrash).map
      (fun s => (decide (.remove 0 ∈ s.log), s.replayed)) = some (true, [1]) := by decide +kernel
  rw [hs] at hlog
  simp only [Option.map_some, Option.some.injEq, Prod.mk.injEq, decide_eq_true_eq] at hlog
  exact ⟨s, hs, hlog.1, hlog.2, deferred_log_safe _ s (by decide +kernel) hs⟩

/-- A deferred transaction is committed and the process dies; after the mount has re-applied it,
another deferred transaction is queued before the first one's record is removed. -/
def queueAfterReplay : List Action :=
  [.queueTransactions 0 false (some blockOverwrite), .kvStart, .kvSubmit, .crash, .mount,
    .replayNext, .mountDone, .queueTransactions 1 false (some blockOverwrite)]

/-- The counter of the keys starts again after a crash, so the new transaction takes the key of
the one that is being replayed. -/
theorem queueAfterReplay_unsafe :
    ∃ s, Runs.exec Store.step Store.init queueAfterReplay = some s ∧ ¬ DeferredLogSafe s := by
  have hrun : (Runs.exec Store.step Store.init queueAfterReplay).isSome := by decide +kernel
  obtain ⟨s, hs⟩ := Option.isSome_iff_exists.mp hrun
  have hkeys : (Runs.exec Store.step Store.init queueAfterReplay).map
      (fun s => (s.outstanding, s.seqOf 0, s.seqOf 1)) = some ([0, 1], 1, 1) := by decide +kernel
  rw [hs] at hkeys
  simp only [Option.map_some, Option.some.injEq, Prod.mk.injEq] at hkeys
  obtain ⟨hout, h0, h1⟩ := hkeys
  refine ⟨s, hs, fun h => ?_⟩
  have := h.keys 0 (by simp [hout]) 1 (by simp [hout]) (by rw [h0, h1])
  exact absurd this (by decide)

end CxxLab.Bluestore
