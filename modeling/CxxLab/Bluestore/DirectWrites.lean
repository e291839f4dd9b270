import CxxLab.Bluestore.DeferredLog

/-!
# Direct writes and the commit of their metadata

A transaction writes new blocks with AIOs of its own and commits the onodes that refer to them with
its KV transaction. The device has a volatile cache: a completed AIO is in the cache, and only
`bdev_->flush()` puts it on the media, while a submitted KV transaction is durable at once.
`DataFirst` says that the metadata of a transaction is durable only when its data is.

`_kv_sync_thread_main` submits the KV transactions of a batch before it flushes the device, so the
data of a transaction is on the media when its metadata is only if a flush of an earlier pass came
after its AIOs, or if it has no AIOs at all. `DataFirstOk` says this of the state before the
submission, and `data_before_metadata` proves that it is enough in every run. An AIO completes
without an error, and `bdev_->flush()` puts what is in the cache on the media.
-/

namespace CxxLab.Bluestore

/-- A direct write: the transaction, and where which bytes go. -/
structure AioWrite where
  /-- The transaction. -/
  owner : ℕ
  /-- The start on the device. -/
  offset : ℕ
  /-- The bytes. -/
  bytes : List UInt8
  deriving DecidableEq

/-- The pipeline of transactions with the device under it. -/
structure Pipeline where
  /-- The transactions and the threads. -/
  store : Store
  /-- The writes of a transaction's `ioc`. -/
  direct : ℕ → List AioWrite
  /-- The completed writes in the volatile cache of the device. -/
  cache : List AioWrite
  /-- The writes that a flush has put on the media. -/
  media : List AioWrite
  /-- The transactions whose KV transaction is durable. -/
  committed : List ℕ
  /-- The number of flushes so far. -/
  flushes : ℕ
  /-- The number of flushes when the AIOs of a transaction completed. -/
  completedAt : ℕ → ℕ

/-- The pipeline after `mkfs` and the first mount. -/
def Pipeline.init : Pipeline where
  store := Store.init
  direct _ := []
  cache := []
  media := []
  committed := []
  flushes := 0
  completedAt _ := 0

/-- The steps: a client queues a transaction with its direct writes, or one of the threads goes
on. -/
inductive IoAction where
  /-- `queue_transactions`. -/
  | queue (osr : ℕ) (writes : List (ℕ × List UInt8)) (ops : Option DeferredOps)
  /-- Anything else. -/
  | run (a : Action)

/-- The KV transaction that the KV sync thread submits next. -/
def Store.submits (s : Store) : List ℕ :=
  match s.kvThread with
  | .submit _ (x :: _) => if (s.txc x).state = .kvQueued then [x] else []
  | _ => []

namespace Pipeline

/-- What a step of a thread does to the device and to the KV store. -/
def effect (p : Pipeline) : Action → Pipeline
  | .aioFinish x =>
    { p with
      cache := p.cache ++ p.direct x
      completedAt := Function.update p.completedAt x p.flushes }
  | .kvSubmit => { p with committed := p.committed ++ p.store.submits }
  | .kvFlush => { p with media := p.media ++ p.cache, cache := [], flushes := p.flushes + 1 }
  | .crash => { p with cache := [] }
  | _ => p

/-- One step. -/
def step (p : Pipeline) : IoAction → Option Pipeline
  | .queue o ws ops =>
    (p.store.step (.queueTransactions o (!ws.isEmpty) ops)).map fun s =>
      { p with
        store := s
        direct := Function.update p.direct p.store.nextTxn
          (ws.map fun w => ⟨p.store.nextTxn, w.1, w.2⟩) }
  | .run (.queueTransactions _ _ _) => none
  | .run a => (p.store.step a).map fun s => { p.effect a with store := s }

end Pipeline

/-- Wherever the metadata of a transaction is durable, its data is. -/
def DataFirst (p : Pipeline) : Prop := ∀ x ∈ p.committed, ∀ w ∈ p.direct x, w ∈ p.media

/-- The situations in which the code keeps the data first: the transaction that is submitted has no
direct writes, or the device was flushed after they completed. -/
def DataFirstOk (p : Pipeline) : IoAction → Prop
  | .run .kvSubmit => ∀ x ∈ p.store.submits, p.direct x = [] ∨ p.completedAt x < p.flushes
  | _ => True

instance (p : Pipeline) (a : IoAction) : Decidable (DataFirstOk p a) := by
  unfold DataFirstOk
  split <;> infer_instance

/-! ## Which transactions wait for their KV transaction -/

namespace Store

/-- The transaction is done with its IO and its KV transaction is not submitted. -/
def Waiting (s : Store) (x : ℕ) : Prop :=
  x ∈ s.kvQueue ++ s.kvThread.unsubmitted ∨ ∃ o, x ∈ (s.osr o).q ∧ (s.txc x).state = .ioDone

/-- Only the names of transactions that exist are in use. -/
structure Named (s : Store) : Prop where
  /-- In the queues of the sequencers. -/
  queued : ∀ o, ∀ x ∈ (s.osr o).q, x < s.nextTxn
  /-- On the way to the KV transaction. -/
  waiting : ∀ x ∈ s.kvQueue ++ s.kvThread.unsubmitted, x < s.nextTxn
  /-- In the records of the store. -/
  stored : ∀ e ∈ s.kv, e.2.owner < s.nextTxn
  /-- In the records of a replay. -/
  replay : ∀ r ∈ s.toReplay, r.owner < s.nextTxn

/-- A context that waits has a name that was given out. -/
theorem Named.lt {s : Store} (h : s.Named) {x : ℕ} (hx : s.Waiting x) : x < s.nextTxn := by
  rcases hx with hx | ⟨o, hx, -⟩
  · exact h.waiting x hx
  · exact h.queued o x hx

/-- What a step that creates no transaction does to the queues: nothing starts to wait, and names
stay names. -/
structure Calm (s s' : Store) : Prop where
  /-- Whoever waits now, waited. -/
  waiting : ∀ x, s'.Waiting x → s.Waiting x
  /-- The names. -/
  named : s.Named → s'.Named
  /-- The next name. -/
  next : s'.nextTxn = s.nextTxn

/-- Nothing has happened. -/
theorem Calm.refl (s : Store) : s.Calm s := ⟨fun _ h => h, id, rfl⟩

/-- Two calm steps are one. -/
theorem Calm.trans {s1 s2 s3 : Store} (h1 : s1.Calm s2) (h2 : s2.Calm s3) : s1.Calm s3 :=
  ⟨fun x h => h1.waiting x (h2.waiting x h), fun h => h2.named (h1.named h), h2.next.trans h1.next⟩

/-- A context goes to a state other than `IO_DONE`. -/
theorem calm_setState (s : Store) (x : ℕ) (st : TxcState) (hst : st ≠ .ioDone) :
    s.Calm (s.setState x st) := by
  refine ⟨fun y hy => ?_, fun h => ⟨h.queued, h.waiting, h.stored, h.replay⟩, rfl⟩
  rcases hy with hy | ⟨o, hq, hs⟩
  · exact .inl hy
  · refine .inr ⟨o, hq, ?_⟩
    by_cases hyx : y = x
    · subst hyx
      simp [setState, hst] at hs
    · simpa [setState, hyx] using hs

/-- Queues and records shrink, and no context gets to `IO_DONE`. -/
theorem calm_of_subset {s s' : Store} (hq : ∀ o, ∀ x ∈ (s'.osr o).q, x ∈ (s.osr o).q)
    (hw : ∀ x ∈ s'.kvQueue ++ s'.kvThread.unsubmitted, x ∈ s.kvQueue ++ s.kvThread.unsubmitted)
    (hst : ∀ x, (s'.txc x).state = .ioDone → (s.txc x).state = .ioDone)
    (hkv : ∀ e ∈ s'.kv, e ∈ s.kv)
    (hr : ∀ r ∈ s'.toReplay, r ∈ s.toReplay ∨ ∃ k, (k, r) ∈ s.kv)
    (hn : s'.nextTxn = s.nextTxn) : s.Calm s' := by
  refine ⟨fun x hx => ?_,
    fun h => ⟨fun o x hx => ?_, fun x hx => ?_, fun e he => ?_, fun r hr' => ?_⟩, hn⟩
  · rcases hx with hx | ⟨o, hx, hs⟩
    · exact .inl (hw x hx)
    · exact .inr ⟨o, hq o x hx, hst x hs⟩
  · rw [hn]
    exact h.queued o x (hq o x hx)
  · rw [hn]
    exact h.waiting x (hw x hx)
  · rw [hn]
    exact h.stored e (hkv e he)
  · rw [hn]
    rcases hr r hr' with hr' | ⟨k, hk⟩
    · exact h.replay r hr'
    · exact h.stored _ hk

/-- `_txc_finish` shortens the queue. -/
theorem calm_txcFinish (s : Store) (x : ℕ) : s.Calm (s.txcFinish x) := by
  refine (s.calm_setState x .done (by simp)).trans ?_
  refine calm_of_subset (fun o y hy => ?_) (fun _ h => h) (fun _ h => h) (fun _ h => h)
    (fun _ h => .inl h) rfl
  unfold txcFinish at hy
  by_cases ho : o = ((s.setState x .done).txc x).osr
  · subst ho
    simp only [Function.update_self] at hy
    exact (List.dropWhile_suffix _).subset hy
  · dsimp only at hy
    rwa [Function.update_of_ne ho] at hy

/-- Queueing deferred writes is calm. -/
theorem calm_deferredEnqueue (s : Store) (x : ℕ) (d : DeferredTxn) :
    s.Calm (s.deferredEnqueue x d) := by
  refine calm_of_subset (fun o y hy => ?_) (fun _ h => h) (fun _ h => h) (fun _ h => h)
    (fun _ h => .inl h) rfl
  unfold deferredEnqueue at hy
  by_cases ho : o = (s.txc x).osr
  · subst ho
    simpa using hy
  · simpa [ho] using hy

/-- The end of a batch is calm. -/
theorem calm_flushDone (s : Store) (o : ℕ) (b : DeferredBatch) : s.Calm (s.flushDone o b) := by
  refine calm_of_subset (fun o' y hy => ?_) (fun _ h => h) (fun _ h => h) (fun _ h => h)
    (fun _ h => .inl h) rfl
  unfold flushDone at hy
  by_cases ho : o' = o
  · subst ho
    simpa using hy
  · simpa [ho] using hy

/-- The end of a commit is calm. -/
theorem calm_procKvDone (s : Store) (x : ℕ) : s.Calm (s.procKvDone x) := by
  unfold procKvDone
  split
  · exact (s.calm_setState x _ (by simp)).trans (calm_deferredEnqueue _ x _)
  · exact (s.calm_setState x _ (by simp)).trans (calm_txcFinish _ x)

/-- Cleaning a batch up is calm. -/
theorem calm_cleanups (xs : List ℕ) (s : Store) : s.Calm (xs.foldl cleanup s) := by
  induction xs generalizing s with
  | nil => exact .refl s
  | cons x xs ih =>
    have h1 := (s.calm_setState x .deferredCleanup (by simp)).trans
      (calm_setState _ x .finishing (by simp))
    exact (h1.trans (calm_txcFinish _ x)).trans (ih _)

/-- Removing records is calm. -/
theorem calm_removeRecords (xs : List ℕ) (s : Store) : s.Calm (xs.foldl removeRecord s) := by
  induction xs generalizing s with
  | nil => exact .refl s
  | cons x xs ih =>
    refine Calm.trans ?_ (ih _)
    exact calm_of_subset (fun _ _ h => h) (fun _ h => h) (fun _ h => h)
      (fun e he => (List.mem_filter.mp he).1) (fun _ h => .inl h) rfl

/-- A record that is set is one more, or takes the place of one. -/
theorem mem_kvSet {k : ℕ} {r : DeferredRecord} {es : List (ℕ × DeferredRecord)}
    {e : ℕ × DeferredRecord} (h : e ∈ kvSet k r es) : e = (k, r) ∨ e ∈ es := by
  induction es with
  | nil => simpa [kvSet] using h
  | cons f fs ih =>
    unfold kvSet at h
    split_ifs at h
    · simpa using h
    · rcases List.mem_cons.mp h with h | h
      · exact .inl h
      · exact .inr (List.mem_cons_of_mem _ h)
    · rcases List.mem_cons.mp h with h | h
      · exact .inr (by simp [h])
      · exact (ih h).imp id (List.mem_cons_of_mem _)

/-- The KV sync thread submits a transaction. -/
theorem calm_kvSubmit {s : Store} {c rest : List ℕ} {x : ℕ}
    (hk : s.kvThread = .submit c (x :: rest)) :
    s.Calm { (if (s.txc x).state = .kvQueued then s.applyKv x else s) with
      kvThread := .submit c rest } := by
  have hmem : x ∈ s.kvQueue ++ s.kvThread.unsubmitted := by simp [hk, KvThread.unsubmitted]
  have hrest : ∀ y ∈ s.kvQueue ++ KvThread.unsubmitted (.submit c rest),
      y ∈ s.kvQueue ++ s.kvThread.unsubmitted := by
    intro y hy
    rw [hk]
    simp only [KvThread.unsubmitted, List.mem_append, List.mem_cons] at hy ⊢
    tauto
  split_ifs
  · refine (s.calm_setState x .kvSubmitted (by simp)).trans ?_
    unfold applyKv
    dsimp only
    split
    · refine ⟨fun y hy => ?_, fun h => ⟨h.queued, fun y hy => h.waiting y (hrest y hy),
        fun e he => ?_, h.replay⟩, rfl⟩
      · rcases hy with hy | hy
        · exact .inl (hrest y hy)
        · exact .inr hy
      · rcases mem_kvSet he with rfl | he
        · exact h.waiting x hmem
        · exact h.stored e he
    · exact calm_of_subset (fun _ _ h => h) hrest (fun _ h => h) (fun _ h => h)
        (fun _ h => .inl h) rfl
  · exact calm_of_subset (fun _ _ h => h) hrest (fun _ h => h) (fun _ h => h) (fun _ h => .inl h) rfl

/-- A record is replayed. -/
theorem calm_replayNext {s : Store} {r : DeferredRecord} {rest : List DeferredRecord}
    (hp : s.phase = .replaying (r :: rest)) :
    s.Calm { s.replay r with phase := .replaying rest } := by
  have hmem : r ∈ s.toReplay := by simp [toReplay, hp]
  have hq : ∀ o, ∀ y ∈ ((s.replayStart r rest).osr o).q, y ∈ (s.osr o).q ∨ y = r.owner := by
    intro o y hy
    unfold replayStart at hy
    by_cases ho : o = 0
    · subst ho
      simpa using hy
    · simp only [Function.update_of_ne ho] at hy
      exact .inl hy
  rw [replay_eq]
  refine Calm.trans ?_ (calm_procKvDone _ r.owner)
  refine ⟨fun y hy => ?_, fun h => ⟨fun o y hy => ?_, h.waiting, h.stored, fun r' hr' => ?_⟩, rfl⟩
  · rcases hy with hy | ⟨o, hy, hs⟩
    · exact .inl hy
    · -- The context of the record is in `KV_DONE`.
      have hne : y ≠ r.owner := by
        rintro rfl
        simp [replayStart] at hs
      refine .inr ⟨o, (hq o y hy).resolve_right hne, ?_⟩
      simpa [replayStart, hne] using hs
  · rcases hq o y hy with hy | rfl
    · exact h.queued o y hy
    · exact h.replay r hmem
  · exact h.replay r' (by
      simp only [toReplay, hp, List.mem_cons]
      exact .inr hr')

/-- The AIOs of a transaction complete: it and those behind it may go on to the KV queue. -/
theorem finishIo_waiting (s : Store) (x : ℕ) :
    (∀ y, (s.finishIo x).Waiting y → s.Waiting y ∨ y = x) ∧ (s.Named → (s.finishIo x).Named) ∧
      (s.finishIo x).nextTxn = s.nextTxn := by
  -- The context is the only one that has come to `IO_DONE`.
  have hstate : ∀ y, ((s.ioDone x).txc y).state = .ioDone → (s.txc y).state = .ioDone ∨ y = x := by
    intro y hy
    by_cases hyx : y = x
    · exact .inr hyx
    · exact .inl (by simpa [ioDone, hyx] using hy)
  have hready : ∀ y ∈ (s.ioDone x).ready x, ∃ o, y ∈ (s.osr o).q ∧
      ((s.txc y).state = .ioDone ∨ y = x) := by
    intro y hy
    exact ⟨_, (ready_sublist (s.ioDone x) x).subset hy, hstate y (ready_state _ x y hy)⟩
  -- The rest of the step moves contexts to the KV queue.
  have hframe := kvEnqueue_frame (s.ioDone x) ((s.ioDone x).ready x)
  have hqueue : (s.finishIo x).kvQueue ++ (s.finishIo x).kvThread.unsubmitted =
      s.kvQueue ++ (s.ioDone x).ready x ++ s.kvThread.unsubmitted := by
    unfold finishIo
    rw [hframe]
    rfl
  have hosr : (s.finishIo x).osr = s.osr := by
    unfold finishIo
    rw [hframe]
    rfl
  have hnext : (s.finishIo x).nextTxn = s.nextTxn := by
    unfold finishIo
    rw [hframe]
    rfl
  have hrest : (s.finishIo x).kv = s.kv ∧ (s.finishIo x).toReplay = s.toReplay := by
    unfold finishIo
    rw [hframe]
    exact ⟨rfl, rfl⟩
  refine ⟨?_, ?_, hnext⟩
  -- A context that is past its AIOs was so before, or is this one.
  · rintro y (hy | ⟨o, hq, hs⟩)
    · rw [hqueue, List.append_assoc, List.mem_append, List.mem_append] at hy
      rcases hy with hy | hy | hy
      · exact .inl (.inl (List.mem_append_left _ hy))
      · obtain ⟨o, hq, hs | rfl⟩ := hready y hy
        · exact .inl (.inr ⟨o, hq, hs⟩)
        · exact .inr rfl
      · exact .inl (.inl (List.mem_append_right _ hy))
    · rw [hosr] at hq
      unfold finishIo at hs
      rw [kvEnqueue_txc] at hs
      split_ifs at hs
      rcases hstate y hs with hs | rfl
      · exact .inl (.inr ⟨o, hq, hs⟩)
      · exact .inr rfl
  · intro h
    refine ⟨?_, fun y hy => ?_, ?_, ?_⟩
    · rw [hosr, hnext]
      exact h.queued
    · rw [hqueue, List.append_assoc, List.mem_append, List.mem_append] at hy
      rw [hnext]
      rcases hy with hy | hy | hy
      · exact h.waiting y (List.mem_append_left _ hy)
      · obtain ⟨o, hq, -⟩ := hready y hy
        exact h.queued o y hq
      · exact h.waiting y (List.mem_append_right _ hy)
    · rw [hrest.1, hnext]
      exact h.stored
    · rw [hrest.2, hnext]
      exact h.replay

/-- A transaction is queued. -/
theorem queueTransactions_waiting {s : Store} (h : s.Named) (o : ℕ) (aios : Bool)
    (ops : Option DeferredOps) :
    (∀ y, (s.queueTransactions o aios ops).Waiting y →
      s.Waiting y ∨ aios = false ∧ y = s.nextTxn) ∧
      (s.queueTransactions o aios ops).Named ∧
      (s.queueTransactions o aios ops).nextTxn = s.nextTxn + 1 := by
  have hq : ∀ st o', ∀ y ∈ ((s.newTxn o st aios ops).osr o').q,
      y ∈ (s.osr o').q ∨ y = s.nextTxn := by
    intro st o' y hy
    unfold newTxn at hy
    by_cases ho : o' = o
    · subst ho
      simpa using hy
    · simp only [Function.update_of_ne ho] at hy
      exact .inl hy
  have hnamed : ∀ st, (s.newTxn o st aios ops).Named := by
    intro st
    refine ⟨fun o' y hy => ?_, fun y hy => Nat.lt_succ_of_lt (h.waiting y hy),
      fun e he => Nat.lt_succ_of_lt (h.stored e he), fun r hr => Nat.lt_succ_of_lt (h.replay r hr)⟩
    rcases hq st o' y hy with hy | rfl
    · exact Nat.lt_succ_of_lt (h.queued o' y hy)
    · exact Nat.lt_succ_self _
  have hwait : ∀ st, st ≠ .ioDone → ∀ y, (s.newTxn o st aios ops).Waiting y → s.Waiting y := by
    rintro st hst y (hy | ⟨o', hy, hs⟩)
    · exact .inl hy
    · have hne : y ≠ s.nextTxn := by
        rintro rfl
        simp [newTxn, hst] at hs
      exact .inr ⟨o', (hq st o' y hy).resolve_right hne, by simpa [newTxn, hne] using hs⟩
  rw [queueTransactions_eq]
  cases aios with
  | true => exact ⟨fun y hy => .inl (hwait .aioWait (by simp) y hy), hnamed .aioWait, rfl⟩
  | false =>
    obtain ⟨hw, hn, hnext⟩ := (s.newTxn o .prepare false ops).finishIo_waiting s.nextTxn
    refine ⟨fun y hy => ?_, hn (hnamed .prepare), hnext⟩
    rcases hw y hy with hy | rfl
    · exact .inl (hwait .prepare (by simp) y hy)
    · exact .inr ⟨rfl, rfl⟩

/-- The process dies: nobody waits any more. -/
theorem crash_waiting {s : Store} (h : s.Named) : (∀ y, ¬ s.crash.Waiting y) ∧ s.crash.Named := by
  refine ⟨?_, ⟨by simp [crash, init, OpSequencer.empty], by simp [crash, init, KvThread.unsubmitted],
    h.stored, by simp [crash, toReplay]⟩⟩
  rintro y (hy | ⟨o, hy, -⟩)
  · simp [crash, init, KvThread.unsubmitted] at hy
  · simp [crash, init, OpSequencer.empty] at hy

/-- The other steps are calm. -/
theorem calm_step {s s' : Store} {a : Action} (hs : s.step a = some s')
    (hq : ∀ o aios ops, a ≠ .queueTransactions o aios ops) (hx : ∀ x, a ≠ .aioFinish x)
    (hc : a ≠ .crash) : s.Calm s' := by
  -- A step that moves what is not looked at here.
  have hmove : ∀ {t : Store}, t.osr = s.osr → t.txc = s.txc → t.kv = s.kv →
      t.nextTxn = s.nextTxn →
      (∀ y ∈ t.kvQueue ++ t.kvThread.unsubmitted, y ∈ s.kvQueue ++ s.kvThread.unsubmitted) →
      (∀ r ∈ t.toReplay, r ∈ s.toReplay ∨ ∃ k, (k, r) ∈ s.kv) → s.Calm t := by
    intro t h1 h2 h3 h4 h5 h6
    exact calm_of_subset (by rw [h1]; exact fun _ _ h => h) h5 (by rw [h2]; exact fun _ h => h)
      (by rw [h3]; exact fun _ h => h) h6 h4
  -- One case for each action, none of which touches what a write waits for.
  cases a with
  | queueTransactions o aios ops => exact absurd rfl (hq o aios ops)
  | aioFinish x => exact absurd rfl (hx x)
  | crash => exact absurd rfl hc
  | kvStart =>
    simp only [step] at hs
    split at hs
    · rename_i hk
      split_ifs at hs
      obtain rfl := Option.some.inj hs
      exact hmove rfl rfl rfl rfl (by simp [KvThread.unsubmitted, hk]) fun _ h => .inl h
    · cases hs
  | kvSubmit =>
    simp only [step] at hs
    split at hs
    · rename_i c x rest hk
      exact Option.some.inj hs ▸ calm_kvSubmit hk
    · cases hs
  | kvFlush =>
    simp only [step] at hs
    split at hs
    · rename_i c hk
      obtain rfl := Option.some.inj hs
      exact hmove rfl rfl rfl rfl (by simp [KvThread.unsubmitted, hk]) fun _ h => .inl h
    · cases hs
  | kvTrySubmit =>
    simp only [step] at hs
    split at hs
    · rename_i c hk
      obtain rfl := Option.some.inj hs
      exact hmove rfl rfl rfl rfl (by simp [KvThread.unsubmitted, hk]) fun _ h => .inl h
    · cases hs
  | kvStable =>
    simp only [step] at hs
    split at hs
    · rename_i c hk
      obtain rfl := Option.some.inj hs
      exact hmove rfl rfl rfl rfl (by simp [KvThread.unsubmitted, hk]) fun _ h => .inl h
    · cases hs
  | kvRemove =>
    simp only [step] at hs
    split at hs
    · rename_i c bs hk
      obtain rfl := Option.some.inj hs
      refine (calm_removeRecords (bs.flatMap DeferredBatch.txcs) s).trans ?_
      exact calm_of_subset (fun _ _ h => h)
        (fun y hy => by
          simp only [KvThread.unsubmitted, List.append_nil] at hy
          exact List.mem_append_left _ hy)
        (fun _ h => h) (fun _ h => h) (fun _ h => .inl h) rfl
    · cases hs
  | trySubmitSwap =>
    obtain rfl := Option.some.inj hs
    exact hmove rfl rfl rfl rfl (fun _ h => h) fun _ h => .inl h
  | trySubmitOne o =>
    simp only [step] at hs
    split_ifs at hs
    split at hs
    · rename_i b hb hr
      obtain rfl := Option.some.inj hs
      have hcalm : s.Calm { s with
          submitting := s.submitting.erase o
          osr := Function.update s.osr o
            { s.osr o with deferredPending := none, deferredRunning := some b } } := by
        refine calm_of_subset (fun o' y hy => ?_) (fun _ h => h) (fun _ h => h) (fun _ h => h)
          (fun _ h => .inl h) rfl
        by_cases ho : o' = o
        · subst ho
          simpa using hy
        · simpa [ho] using hy
      split_ifs
      · exact hcalm.trans (calm_flushDone _ o b)
      · exact hcalm
    · obtain rfl := Option.some.inj hs
      exact hmove rfl rfl rfl rfl (fun _ h => h) fun _ h => .inl h
  | batchAioFinish o =>
    simp only [step] at hs
    split at hs
    · exact Option.some.inj hs ▸ calm_flushDone s o _
    · cases hs
  | finStart =>
    simp only [step] at hs
    split_ifs at hs
    obtain rfl := Option.some.inj hs
    exact hmove rfl rfl rfl rfl (fun _ h => h) fun _ h => .inl h
  | finCommit =>
    simp only [step] at hs
    split at hs
    · rename_i x xs hf
      obtain rfl := Option.some.inj hs
      have hcalm : s.Calm { s with finCommitted := xs } :=
        hmove rfl rfl rfl rfl (fun _ h => h) fun _ h => .inl h
      split_ifs
      · exact (hcalm.trans (calm_setState _ x _ (by simp))).trans (calm_procKvDone _ x)
      · exact hcalm
    · cases hs
  | finStable =>
    simp only [step] at hs
    split at hs
    · rename_i b bs hc' hf
      obtain rfl := Option.some.inj hs
      have hcalm : s.Calm { s with finStable := bs } :=
        hmove rfl rfl rfl rfl (fun _ h => h) fun _ h => .inl h
      exact hcalm.trans (calm_cleanups b.txcs _)
    · cases hs
  | mount =>
    simp only [step] at hs
    split at hs
    · obtain rfl := Option.some.inj hs
      refine hmove rfl rfl rfl rfl (fun _ h => h) fun r hr => .inr ?_
      simpa [toReplay] using hr
    · cases hs
  | replayNext =>
    simp only [step] at hs
    split at hs
    · rename_i r rest hp
      exact Option.some.inj hs ▸ calm_replayNext hp
    · cases hs
  | mountDone =>
    simp only [step] at hs
    split at hs
    · obtain rfl := Option.some.inj hs
      exact hmove rfl rfl rfl rfl (fun _ h => h) fun _ h => by simp [toReplay] at h
    · cases hs

end Store

/-! ## The invariant -/

/-- The direct writes of a transaction that waits for its KV transaction are on the media, or still
in the cache because no flush has come since they completed. -/
def Landed (p : Pipeline) (x : ℕ) : Prop :=
  ∀ w ∈ p.direct x, w ∈ p.media ∨ w ∈ p.cache ∧ p.completedAt x = p.flushes

/-- What holds between the steps. -/
structure IoInv (p : Pipeline) : Prop where
  /-- The data of committed transactions is on the media. -/
  first : DataFirst p
  /-- The names of the committed transactions are taken. -/
  committed : ∀ x ∈ p.committed, x < p.store.nextTxn
  /-- The transactions that wait for their KV transaction have landed. -/
  landed : ∀ x, p.store.Waiting x → Landed p x
  /-- Only names that are taken are in use. -/
  named : p.store.Named

/-- Before the first step nothing is in flight. -/
theorem ioInv_init : IoInv Pipeline.init where
  first := by simp [DataFirst, Pipeline.init]
  committed := by simp [Pipeline.init]
  landed := by simp [Landed, Pipeline.init]
  named := by
    constructor <;>
      simp [Pipeline.init, Store.init, OpSequencer.empty, KvThread.unsubmitted, Store.toReplay]

/-- A step of a thread that touches neither the device nor the KV store. -/
theorem IoInv.calm {p : Pipeline} (h : IoInv p) {s : Store} (hc : p.store.Calm s) :
    IoInv { p with store := s } where
  first := h.first
  committed x hx := by
    show x < s.nextTxn
    rw [hc.next]
    exact h.committed x hx
  landed x hx := h.landed x (hc.waiting x hx)
  named := hc.named h.named

/-- A client queues a transaction. -/
theorem IoInv.queue {p : Pipeline} (h : IoInv p) (o : ℕ) (ws : List (ℕ × List UInt8))
    (ops : Option DeferredOps) : IoInv { p with
      store := p.store.queueTransactions o (!ws.isEmpty) ops
      direct := Function.update p.direct p.store.nextTxn
        (ws.map fun w => ⟨p.store.nextTxn, w.1, w.2⟩) } := by
  obtain ⟨hwait, hnamed, hnext⟩ := Store.queueTransactions_waiting h.named o (!ws.isEmpty) ops
  refine ⟨fun x hx w hw => ?_, fun x hx => ?_, fun x hx w hw => ?_, hnamed⟩
  · have hne : x ≠ p.store.nextTxn := (h.committed x hx).ne
    dsimp only at hw
    rw [Function.update_of_ne hne] at hw
    exact h.first x hx w hw
  · show x < (p.store.queueTransactions o (!ws.isEmpty) ops).nextTxn
    rw [hnext]
    exact Nat.lt_succ_of_lt (h.committed x hx)
  · dsimp only at hw
    rcases hwait x hx with hx | ⟨hempty, rfl⟩
    · rw [Function.update_of_ne (h.named.lt hx).ne] at hw
      exact h.landed x hx w hw
    · -- It waits at once because it has no writes.
      rw [Function.update_self] at hw
      simp only [Bool.not_eq_false', List.isEmpty_iff] at hempty
      simp [hempty] at hw

/-- The AIOs of a transaction complete. -/
theorem IoInv.aioFinish {p : Pipeline} (h : IoInv p) (x : ℕ) :
    IoInv { p.effect (.aioFinish x) with store := p.store.finishIo x } := by
  obtain ⟨hwait, hnamed, hnext⟩ := p.store.finishIo_waiting x
  refine ⟨h.first, fun y hy => ?_, fun y hy w hw => ?_, hnamed h.named⟩
  · show y < (p.store.finishIo x).nextTxn
    rw [hnext]
    exact h.committed y hy
  · show w ∈ p.media ∨ w ∈ p.cache ++ p.direct x ∧
      Function.update p.completedAt x p.flushes y = p.flushes
    by_cases hyx : y = x
    · subst hyx
      exact .inr ⟨List.mem_append_right _ hw, Function.update_self ..⟩
    · rcases h.landed y ((hwait y hy).resolve_right hyx) w hw with hm | ⟨hc, hf⟩
      · exact .inl hm
      · refine .inr ⟨List.mem_append_left _ hc, ?_⟩
        rw [Function.update_of_ne hyx]
        exact hf

/-- The KV sync thread submits a KV transaction that meets its condition. -/
theorem IoInv.kvSubmit {p : Pipeline} (h : IoInv p) (hok : DataFirstOk p (.run .kvSubmit)) {s : Store}
    (hs : p.store.Calm s) : IoInv { p.effect .kvSubmit with store := s } := by
  have hsubmits : ∀ x ∈ p.store.submits, p.store.Waiting x := by
    intro x hx
    unfold Store.submits at hx
    split at hx
    · rename_i c y rest hk
      split_ifs at hx
      · obtain rfl := List.mem_singleton.mp hx
        exact .inl (by simp [hk, KvThread.unsubmitted])
      · cases hx
    · cases hx
  refine ⟨fun x hx w hw => ?_, fun x hx => ?_, fun x hx => h.landed x (hs.waiting x hx),
    hs.named h.named⟩
  · rcases List.mem_append.mp hx with hx | hx
    · exact h.first x hx w hw
    · rcases h.landed x (hsubmits x hx) w hw with hm | ⟨-, hf⟩
      · exact hm
      · -- The flush that came after the AIOs has put the write on the media.
        rcases hok x hx with hnone | hlt
        · change w ∈ p.direct x at hw
          rw [hnone] at hw
          cases hw
        · omega
  · show x < s.nextTxn
    rw [hs.next]
    rcases List.mem_append.mp hx with hx | hx
    · exact h.committed x hx
    · exact h.named.lt (hsubmits x hx)

/-- The device is flushed. -/
theorem IoInv.kvFlush {p : Pipeline} (h : IoInv p) {s : Store} (hs : p.store.Calm s) :
    IoInv { p.effect .kvFlush with store := s } := by
  refine ⟨fun x hx w hw => List.mem_append_left _ (h.first x hx w hw), fun x hx => ?_,
    fun x hx w hw => .inl ?_, hs.named h.named⟩
  · show x < s.nextTxn
    rw [hs.next]
    exact h.committed x hx
  · rcases h.landed x (hs.waiting x hx) w hw with hm | ⟨hc, -⟩
    · exact List.mem_append_left _ hm
    · exact List.mem_append_right _ hc

/-- The process dies, and the cache of the device is lost. -/
theorem IoInv.crash {p : Pipeline} (h : IoInv p) :
    IoInv { p.effect .crash with store := p.store.crash } := by
  obtain ⟨hwait, hnamed⟩ := Store.crash_waiting h.named
  exact ⟨h.first, h.committed, fun x hx => absurd hx (hwait x), hnamed⟩

/-- Every step that meets the condition keeps the data first. -/
theorem ioInv_step {p p' : Pipeline} {a : IoAction} (h : IoInv p) (hok : DataFirstOk p a)
    (hs : p.step a = some p') : IoInv p' := by
  cases a with
  | queue o ws ops =>
    obtain ⟨s, hstep, rfl⟩ := Option.map_eq_some_iff.mp hs
    simp only [Store.step] at hstep
    split at hstep
    · exact Option.some.inj hstep ▸ h.queue o ws ops
    · cases hstep
  | run a =>
    by_cases hq : ∃ o aios ops, a = .queueTransactions o aios ops
    · obtain ⟨o, aios, ops, rfl⟩ := hq
      cases hs
    · push Not at hq
      have hs' : (p.store.step a).map (fun s => { p.effect a with store := s }) = some p' := by
        cases a with
        | queueTransactions o aios ops => exact absurd rfl (hq o aios ops)
        | _ => exact hs
      obtain ⟨s, hstep, rfl⟩ := Option.map_eq_some_iff.mp hs'
      by_cases hx : ∃ x, a = .aioFinish x
      · obtain ⟨x, rfl⟩ := hx
        simp only [Store.step] at hstep
        split_ifs at hstep
        exact Option.some.inj hstep ▸ h.aioFinish x
      by_cases hc : a = .crash
      · subst hc
        exact Option.some.inj hstep ▸ h.crash
      have hcalm := Store.calm_step hstep hq (by simpa using hx) hc
      cases a with
      | kvSubmit => exact h.kvSubmit hok hcalm
      | kvFlush => exact h.kvFlush hcalm
      | aioFinish x => exact absurd ⟨x, rfl⟩ hx
      | crash => exact absurd rfl hc
      | _ => exact h.calm hcalm

/-- In every run in which each KV transaction is submitted without direct writes or after a flush
that came after its direct writes, the data of every transaction whose KV transaction is durable is
on the media, in every state reached: also after a crash at any point. -/
theorem data_before_metadata (as : List IoAction) (p : Pipeline)
    (hm : Runs.Meets Pipeline.step DataFirstOk Pipeline.init as)
    (hs : Runs.exec Pipeline.step Pipeline.init as = some p) : DataFirst p :=
  (Runs.exec_invariant (fun _ _ _ h hok hs => ioInv_step h hok hs) as Pipeline.init p ioInv_init hm
    hs).first

/-- Two transactions with direct writes: the AIOs of the second one complete while the KV sync
thread is in the pass of a third, before its flush; then the process dies. -/
def flushedInTime : List IoAction :=
  [.queue 0 [] (some blockOverwrite), .run .kvStart, .run .kvSubmit, .queue 1 [(8192, [7])] none,
    .run (.aioFinish 1), .run .kvFlush, .run .kvTrySubmit, .run .kvStable, .run .kvRemove,
    .run .kvStart, .run .kvSubmit, .run .crash]

/-- The condition is met by a run with a direct write, its commit and a crash. -/
theorem data_before_metadata_flushedInTime :
    ∃ p, Runs.exec Pipeline.step Pipeline.init flushedInTime = some p ∧ p.committed = [0, 1] ∧
      p.direct 1 = [⟨1, 8192, [7]⟩] ∧ DataFirst p := by
  have hrun : (Runs.exec Pipeline.step Pipeline.init flushedInTime).map
      (fun p => (p.committed, p.direct 1)) = some ([0, 1], [⟨1, 8192, [7]⟩]) := by decide +kernel
  obtain ⟨p, hp, hpair⟩ := Option.map_eq_some_iff.mp hrun
  obtain ⟨hcommit, hdirect⟩ := Prod.mk.inj hpair
  exact ⟨p, hp, hcommit, hdirect, data_before_metadata _ p (by decide +kernel) hp⟩

/-- A transaction with a direct write is queued, its AIO completes, and the process dies after the
KV sync thread has submitted the KV transaction and before it flushes the device. -/
def crashBeforeFlush : List IoAction :=
  [.queue 0 [(8192, [7])] none, .run (.aioFinish 0), .run .kvStart, .run .kvSubmit, .run .crash]

/-- The metadata is durable, and the data is lost. -/
theorem crashBeforeFlush_loses_data :
    ∃ p, Runs.exec Pipeline.step Pipeline.init crashBeforeFlush = some p ∧ ¬ DataFirst p := by
  have hrun : (Runs.exec Pipeline.step Pipeline.init crashBeforeFlush).map
      (fun p => (p.committed, p.direct 0, p.media)) = some ([0], [⟨0, 8192, [7]⟩], []) := by
    decide +kernel
  obtain ⟨p, hp, htriple⟩ := Option.map_eq_some_iff.mp hrun
  simp only [Prod.mk.injEq] at htriple
  obtain ⟨hcommit, hdirect, hmedia⟩ := htriple
  refine ⟨p, hp, fun h => ?_⟩
  have := h 0 (by simp [hcommit]) ⟨0, 8192, [7]⟩ (by simp [hdirect])
  simp [hmedia] at this

end CxxLab.Bluestore
