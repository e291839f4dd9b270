import CxxLab.Bluestore.Sequencing

/-!
# Commit and release over a mount

The two threads behind `kv_queue_` keep the order in which contexts were pushed: the pushes are
the submitted KV transactions followed by those that wait, and the submitted ones are the
acknowledged ones followed by those on their way to the finalize thread (`Piped`). A deferred
context is in one batch until the finalize thread cleans it up, and the batch has been written
by then (`Batched`). With the order on the sequencers this gives the order in which transactions
are committed and acknowledged (`transactions_ordered`) and the time at which their space is
released (`released_in_order`), in every run of a mount.
-/

namespace CxxLab.Bluestore

namespace Mount

/-! ## The passes that hand nothing on -/

/-- The batches that are in the hands of sequencer `o`. -/
def held (s : Store) (o : ℕ) : List ℕ :=
  batchTxcs (s.osr o).deferredPending ++ batchTxcs (s.osr o).deferredRunning

/-- The batches whose writes have completed. -/
def landed (s : Store) : List ℕ :=
  allTxcs s.doneQueue ++ allTxcs s.kvThread.batches ++ allTxcs s.stableToFinalize ++
    allTxcs s.finStable

/-- The removal of records changes the KV store and the history only. -/
theorem foldl_removeRecord_frame (xs : List ℕ) (s : Store) : ∃ kv out es,
    xs.foldl Store.removeRecord s = { s with kv := kv, outstanding := out, log := s.log ++ es } := by
  induction xs generalizing s with
  | nil => exact ⟨s.kv, s.outstanding, [], by simp⟩
  | cons x xs ih =>
    obtain ⟨kv, out, es, h⟩ := ih (s.removeRecord x)
    refine ⟨kv, out, (s.kv.filter (·.1 = s.seqOf x)).map (fun e => .remove e.2.owner) ++ es, ?_⟩
    rw [List.foldl_cons, h, ← List.append_assoc]
    rfl

/-- What a pass that hands nothing on can do. -/
inductive Passed : Store → Store → Prop where
  /-- The KV sync thread takes the queue. -/
  | kvStart {s : Store} (hk : s.kvThread = .idle) :
    Passed s { s with kvQueue := [], kvThread := .submit s.kvQueue s.kvQueue }
  /-- It flushes the device. -/
  | kvFlush {s : Store} (c : List ℕ) (hk : s.kvThread = .submit c []) :
    Passed s { s with kvThread := .flushed c, log := s.log ++ [.flush] }
  /-- It calls `try_submit`. -/
  | kvTrySubmit {s : Store} (c q : List ℕ) (hk : s.kvThread = .flushed c) :
    Passed s { s with kvThread := .submitted c, submitting := q, deferredQueue := [] }
  /-- It takes the completed batches. -/
  | kvStable {s : Store} (c : List ℕ) (hk : s.kvThread = .submitted c) :
    Passed s { s with kvThread := .stable c s.doneQueue, doneQueue := [] }
  /-- It removes their records and hands over. -/
  | kvRemove {s : Store} (c : List ℕ) (bs : List DeferredBatch) (kv : List (ℕ × DeferredRecord))
      (out : List ℕ) (es : List Event) (hk : s.kvThread = .stable c bs) :
    Passed s { s with
      kv := kv
      outstanding := out
      log := s.log ++ es
      kvThread := .idle
      committingToFinalize := s.committingToFinalize ++ c
      stableToFinalize := s.stableToFinalize ++ bs }
  /-- A caller of `try_submit` takes sequencers, or leaves one alone. -/
  | trySubmit {s : Store} (q q' : List ℕ) : Passed s { s with submitting := q, deferredQueue := q' }
  /-- The pending batch of a sequencer starts to run. -/
  | startBatch {s : Store} (o : ℕ) (b : DeferredBatch) (q : List ℕ)
      (hp : (s.osr o).deferredPending = some b) (hr : (s.osr o).deferredRunning = none) :
    Passed s { s with
      submitting := q
      osr := Function.update s.osr o
        { s.osr o with deferredPending := none, deferredRunning := some b } }
  /-- The running batch of a sequencer completes. -/
  | flushDone {s : Store} (o : ℕ) (b : DeferredBatch) (hr : (s.osr o).deferredRunning = some b) :
    Passed s (s.flushDone o b)
  /-- The finalize thread takes its queues. -/
  | finStart {s : Store} (hc : s.finCommitted = []) (hs : s.finStable = []) :
    Passed s { s with
      finCommitted := s.committingToFinalize
      finStable := s.stableToFinalize
      committingToFinalize := []
      stableToFinalize := [] }
  /-- A batch without writes starts and completes at once. -/
  | trans {s s' s'' : Store} (h : Passed s s') (h' : Passed s' s'') : Passed s s''

/-- A pass that hands nothing on does one of these. -/
theorem passed_of_step {s s' : Store} {a : Action} (ha : isPass a = true)
    (h : s.step a = some s') : Passed s s' := by
  -- One case for each pass, read off its definition.
  cases a with
  | kvStart =>
    simp only [Store.step] at h
    split at h
    · rename_i hk
      simp only [Option.ite_none_left_eq_some, Option.some.injEq] at h
      exact h.2 ▸ .kvStart hk
    · simp at h
  | kvFlush =>
    simp only [Store.step] at h
    split at h
    · rename_i c hk
      exact Option.some.inj h ▸ .kvFlush c hk
    · simp at h
  | kvTrySubmit =>
    simp only [Store.step] at h
    split at h
    · rename_i c hk
      exact Option.some.inj h ▸ .kvTrySubmit c _ hk
    · simp at h
  | kvStable =>
    simp only [Store.step] at h
    split at h
    · rename_i c hk
      exact Option.some.inj h ▸ .kvStable c hk
    · simp at h
  | kvRemove =>
    simp only [Store.step] at h
    split at h
    · rename_i c bs hk
      obtain ⟨kv, out, es, hf⟩ := foldl_removeRecord_frame (bs.flatMap DeferredBatch.txcs) s
      rw [hf] at h
      exact Option.some.inj h ▸ .kvRemove c bs kv out es hk
    · simp at h
  | trySubmitSwap =>
    simp only [Store.step, Option.some.injEq] at h
    exact h ▸ .trySubmit _ _
  | trySubmitOne o =>
    simp only [Store.step] at h
    split at h
    · split at h
      · rename_i b hp hr
        have hstart := Passed.startBatch o b (s.submitting.erase o) hp hr
        split_ifs at h
        · exact Option.some.inj h ▸ hstart.trans (.flushDone o b (by simp))
        · exact Option.some.inj h ▸ hstart
      · exact Option.some.inj h ▸ .trySubmit _ _
    · simp at h
  | batchAioFinish o =>
    simp only [Store.step] at h
    split at h
    · rename_i b hr
      exact Option.some.inj h ▸ .flushDone o b hr
    · simp at h
  | finStart =>
    simp only [Store.step, Option.ite_none_right_eq_some, Option.some.injEq] at h
    obtain ⟨⟨hc, hs⟩, h⟩ := h
    exact h ▸ .finStart hc (by simpa using hs)
  | queueTransactions | aioFinish | kvSubmit | finCommit | finStable | crash | mount | replayNext
  | mountDone => simp [isPass] at ha

/-- The passes touch no context and no queue of a sequencer. -/
theorem Passed.lateStep {m : Mount} {s' : Store} (h : Passed m.store s') :
    LateStep m { m with store := s' } := by
  have hkey : ∀ {s s' : Store}, Passed s s' → s'.nextTxn = s.nextTxn ∧ s'.phase = s.phase ∧
      s'.txc = s.txc ∧ ∀ o, (s'.osr o).q = (s.osr o).q := by
    intro s s' h
    induction h with
    | startBatch o b q hp hr =>
      refine ⟨rfl, rfl, rfl, fun o' => ?_⟩
      by_cases ho : o' = o
      · subst ho; simp
      · simp [ho]
    | flushDone o b hr =>
      refine ⟨rfl, rfl, rfl, fun o' => ?_⟩
      by_cases ho : o' = o
      · subst ho; simp [Store.flushDone]
      · simp [Store.flushDone, ho]
    | trans _ _ ih ih' =>
      obtain ⟨h1, h2, h3, h4⟩ := ih
      obtain ⟨h1', h2', h3', h4'⟩ := ih'
      exact ⟨h1'.trans h1, h2'.trans h2, h3'.trans h3, fun o => (h4' o).trans (h4 o)⟩
    | _ => exact ⟨rfl, rfl, rfl, fun _ => rfl⟩
  obtain ⟨hn, hp, ht, hq⟩ := hkey h
  exact LateStep.quiet rfl rfl rfl rfl hn hp (fun x => by rw [ht])
    (fun x => by rw [Mount.state, Mount.state, ht]) hq

/-! ## The KV threads -/

/-- The contexts whose KV transactions are submitted and whose callbacks are not handed over:
those of the finalize thread, those on their way to it, and those that the KV sync thread still
holds. -/
structure Piped (m : Mount) : Prop where
  /-- The pushes on `kv_queue_`, in order: submitted, taken by the KV sync thread, waiting. -/
  entered : m.entered = m.committed ++ m.store.kvThread.unsubmitted ++ m.store.kvQueue
  /-- Those that are not submitted are in `KV_QUEUED`. -/
  queued : ∀ x ∈ m.store.kvThread.unsubmitted ++ m.store.kvQueue, m.state x = .kvQueued
  /-- The submitted ones, in order: acknowledged, or on their way and in `KV_SUBMITTED`. -/
  committed : ∃ d, m.store.kvThread.committing = d ++ m.store.kvThread.unsubmitted ∧
    m.committed = m.acked ++ (m.store.finCommitted ++ m.store.committingToFinalize ++ d) ∧
    ∀ x ∈ m.store.finCommitted ++ m.store.committingToFinalize ++ d, m.state x = .kvSubmitted
  /-- The acknowledged ones are past `KV_SUBMITTED`. -/
  acked : ∀ x ∈ m.acked, TxcState.kvDone.rank ≤ (m.state x).rank

namespace Piped

variable {m m' : Mount}

/-- A step that leaves the KV threads alone, and the states of the contexts that have been
pushed. -/
theorem frame (h : Piped m) (he : m'.entered = m.entered) (hc : m'.committed = m.committed)
    (ha : m'.acked = m.acked) (hk : m'.store.kvThread = m.store.kvThread)
    (hq : m'.store.kvQueue = m.store.kvQueue)
    (hf : m'.store.finCommitted = m.store.finCommitted)
    (hf' : m'.store.committingToFinalize = m.store.committingToFinalize)
    (hst : ∀ x ∈ m.entered, m'.state x = m.state x) : Piped m' := by
  have hmem : ∀ x, x ∈ m.committed ∨ x ∈ m.store.kvThread.unsubmitted ∨ x ∈ m.store.kvQueue →
      x ∈ m.entered := by
    intro x hx
    rw [h.entered]
    simpa [or_assoc] using hx
  obtain ⟨d, hd, hcom, hsub⟩ := h.committed
  refine ⟨by rw [he, hc, hk, hq]; exact h.entered, ?_, ⟨d, by rw [hk]; exact hd, ?_, ?_⟩, ?_⟩
  · intro x hx
    rw [hk, hq] at hx
    rw [hst x (hmem x (.inr (List.mem_append.mp hx)))]
    exact h.queued x hx
  · rw [hc, ha, hf, hf']
    exact hcom
  · intro x hx
    rw [hf, hf'] at hx
    rw [hst x (hmem x (.inl (by rw [hcom]; exact List.mem_append_right _ hx)))]
    exact hsub x hx
  · intro x hx
    rw [ha] at hx
    rw [hst x (hmem x (.inl (by rw [hcom]; exact List.mem_append_left _ hx)))]
    exact h.acked x hx

/-- The passes keep the order of the KV threads. -/
theorem passed (h : Piped m) {s' : Store} (hs : Passed m.store s') :
    Piped { m with store := s' } := by
  obtain ⟨s, hms⟩ : ∃ s, s = m.store := ⟨_, rfl⟩
  rw [← hms] at hs
  -- By the kinds of passes.
  induction hs generalizing m with
  | kvStart hk =>
    subst hms
    obtain ⟨d, hd, hcom, hsub⟩ := h.committed
    have he := h.entered
    have hq := h.queued
    simp only [hk, KvThread.committing, KvThread.unsubmitted, List.append_nil,
      List.nil_append] at hd he hq
    subst hd
    refine ⟨?_, ?_, ⟨[], rfl, hcom, hsub⟩, h.acked⟩
    · simpa [KvThread.unsubmitted] using he
    · exact fun x hx => hq x (by simpa [KvThread.unsubmitted] using hx)
  | kvFlush c hk =>
    subst hms
    obtain ⟨d, hd, hcom, hsub⟩ := h.committed
    have he := h.entered
    have hq := h.queued
    rw [hk] at hd he hq
    exact ⟨he, hq, ⟨d, hd, hcom, hsub⟩, h.acked⟩
  | kvTrySubmit c q hk =>
    subst hms
    obtain ⟨d, hd, hcom, hsub⟩ := h.committed
    have he := h.entered
    have hq := h.queued
    rw [hk] at hd he hq
    exact ⟨he, hq, ⟨d, hd, hcom, hsub⟩, h.acked⟩
  | kvStable c hk =>
    subst hms
    obtain ⟨d, hd, hcom, hsub⟩ := h.committed
    have he := h.entered
    have hq := h.queued
    rw [hk] at hd he hq
    exact ⟨he, hq, ⟨d, hd, hcom, hsub⟩, h.acked⟩
  | kvRemove c bs kv out es hk =>
    subst hms
    obtain ⟨d, hd, hcom, hsub⟩ := h.committed
    have he := h.entered
    have hq := h.queued
    simp only [hk, KvThread.committing, KvThread.unsubmitted, List.append_nil] at hd he hq
    subst hd
    refine ⟨by simpa [KvThread.unsubmitted] using he,
      fun x hx => hq x (by simpa [KvThread.unsubmitted] using hx), ⟨[], rfl, ?_, ?_⟩, h.acked⟩
    · simpa using hcom
    · exact fun x hx => hsub x (by simpa [or_assoc] using hx)
  | trySubmit q q' =>
    subst hms
    exact h.frame rfl rfl rfl rfl rfl rfl rfl fun _ _ => rfl
  | startBatch o b q hp hr =>
    subst hms
    exact h.frame rfl rfl rfl rfl rfl rfl rfl fun _ _ => rfl
  | flushDone o b hr =>
    subst hms
    exact h.frame rfl rfl rfl rfl rfl rfl rfl fun _ _ => rfl
  | finStart hc hs =>
    subst hms
    obtain ⟨d, hd, hcom, hsub⟩ := h.committed
    rw [hc, List.nil_append] at hcom hsub
    exact ⟨h.entered, h.queued, ⟨d, hd, by simpa using hcom,
      fun x hx => hsub x (by simpa using hx)⟩, h.acked⟩
  | trans _ _ ih ih' =>
    subst hms
    have h1 := ih h rfl
    have h2 := ih' h1 rfl
    exact h2

/-- The KV sync thread submits the next KV transaction. -/
theorem kvSubmit (h : Piped m) (hn : m.entered.Nodup) {c rest : List ℕ} {x : ℕ} {s' : Store}
    (hk : m.store.kvThread = .submit c (x :: rest))
    (hs' : s'.kvThread = .submit c rest) (hq : s'.kvQueue = m.store.kvQueue)
    (hf : s'.finCommitted = m.store.finCommitted)
    (hf' : s'.committingToFinalize = m.store.committingToFinalize)
    (hst : ∀ y, (s'.txc y).state = if y = x then .kvSubmitted else m.state y) :
    Piped { m with store := s', committed := m.committed ++ [x] } := by
  obtain ⟨d, hd, hcom, hsub⟩ := h.committed
  have he := h.entered
  have hqd := h.queued
  simp only [hk, KvThread.committing, KvThread.unsubmitted] at hd he hqd
  have hnd := he ▸ hn
  have hx : ∀ y ∈ m.committed ++ (rest ++ m.store.kvQueue), y ≠ x := by
    -- The context is in the queue once.
    rintro y hy rfl
    have hperm : (m.committed ++ (y :: rest) ++ m.store.kvQueue).Perm
        (y :: (m.committed ++ (rest ++ m.store.kvQueue))) := by
      rw [List.append_assoc, List.cons_append]
      exact List.perm_middle
    exact (List.nodup_cons.mp (hperm.nodup_iff.mp hnd)).1 hy
  have hold : ∀ y ∈ m.committed ++ (rest ++ m.store.kvQueue), (s'.txc y).state = m.state y :=
    fun y hy => by rw [hst, if_neg (hx y hy)]
  have hcommitted : ∀ y ∈ m.committed, (s'.txc y).state = m.state y :=
    fun y hy => hold y (List.mem_append_left _ hy)
  -- It moves from what is queued to what is committed.
  constructor
  case entered =>
    change m.entered = (m.committed ++ [x]) ++ s'.kvThread.unsubmitted ++ s'.kvQueue
    rw [hs', hq, he]
    simp [KvThread.unsubmitted]
  case queued =>
    intro y hy
    have hy' : y ∈ rest ++ m.store.kvQueue := by simpa [hs', hq, KvThread.unsubmitted] using hy
    have hy'' : y ∈ x :: rest ++ m.store.kvQueue := List.mem_cons_of_mem _ hy'
    exact (hold y (List.mem_append_right _ hy')).trans (hqd y hy'')
  case committed =>
    refine ⟨d ++ [x], ?_, ?_, ?_⟩
    · simpa [hs', KvThread.committing, KvThread.unsubmitted] using hd
    · change m.committed ++ [x] = m.acked ++ (s'.finCommitted ++ s'.committingToFinalize ++ _)
      rw [hf, hf', hcom]
      simp
    · intro y hy
      change y ∈ s'.finCommitted ++ s'.committingToFinalize ++ (d ++ [x]) at hy
      rw [hf, hf', ← List.append_assoc] at hy
      rcases List.mem_append.mp hy with hy | hy
      · exact (hcommitted y (by rw [hcom]; exact List.mem_append_right _ hy)).trans (hsub y hy)
      · change (s'.txc y).state = _
        rw [hst, if_pos (List.mem_singleton.mp hy)]
  case acked =>
    intro y hy
    have hyc : y ∈ m.committed := by rw [hcom]; exact List.mem_append_left _ hy
    change _ ≤ (s'.txc y).state.rank
    rw [hcommitted y hyc]
    exact h.acked y hy

/-- The finalize thread hands over the callbacks of the next committed context. -/
theorem finCommit (h : Piped m) (hn : m.entered.Nodup) {xs : List ℕ} {x : ℕ}
    (hf : m.store.finCommitted = x :: xs) (hf' : m'.store.finCommitted = xs)
    (he : m'.entered = m.entered) (hc : m'.committed = m.committed)
    (ha : m'.acked = m.acked ++ [x]) (hk : m'.store.kvThread = m.store.kvThread)
    (hq : m'.store.kvQueue = m.store.kvQueue)
    (hft : m'.store.committingToFinalize = m.store.committingToFinalize)
    (hx : TxcState.kvDone.rank ≤ (m'.state x).rank)
    (hst : ∀ y, y ≠ x → m'.state y = m.state y) : Piped m' := by
  obtain ⟨d, hd, hcom, hsub⟩ := h.committed
  rw [hf] at hcom hsub
  have hnd := h.entered ▸ hn
  rw [hcom] at hnd
  have hperm : (m.acked ++ (x :: xs ++ m.store.committingToFinalize ++ d) ++
      m.store.kvThread.unsubmitted ++ m.store.kvQueue).Perm
      (x :: (m.acked ++ (xs ++ m.store.committingToFinalize ++ d) ++
      (m.store.kvThread.unsubmitted ++ m.store.kvQueue))) := by
    simp only [List.append_assoc, List.cons_append]
    exact List.perm_middle
  have hxn := (List.nodup_cons.mp (hperm.nodup_iff.mp hnd)).1
  have hold : ∀ y ∈ m.acked ++ (xs ++ m.store.committingToFinalize ++ d) ++
      (m.store.kvThread.unsubmitted ++ m.store.kvQueue), m'.state y = m.state y := by
    intro y hy
    refine hst y ?_
    rintro rfl
    exact hxn hy
  -- It moves from what is committed to what is acknowledged.
  constructor
  case entered =>
    rw [he, hc, hk, hq]
    exact h.entered
  case queued =>
    intro y hy
    rw [hk, hq] at hy
    rw [hold y (List.mem_append_right _ hy)]
    exact h.queued y hy
  case committed =>
    refine ⟨d, by rw [hk]; exact hd, ?_, ?_⟩
    · rw [hc, ha, hf', hft, hcom]
      simp
    · intro y hy
      rw [hf', hft] at hy
      rw [hold y (List.mem_append_left _ (List.mem_append_right _ hy))]
      exact hsub y (List.mem_cons_of_mem _ hy)
  case acked =>
    intro y hy
    rw [ha] at hy
    rcases List.mem_append.mp hy with hy | hy
    · rw [hold y (List.mem_append_left _ (List.mem_append_left _ hy))]
      exact h.acked y hy
    · rw [List.mem_singleton.mp hy]
      exact hx

end Piped

/-! ## The deferred batches -/

/-- The invariant of the deferred batches. -/
structure Batched (s : Store) : Prop where
  /-- No context is in two batches. -/
  nodup : ∀ o, (held s o ++ landed s).Nodup
  /-- A context in a batch is in `DEFERRED_QUEUED`. -/
  queued : ∀ o, ∀ x ∈ held s o ++ landed s, (s.txc x).state = .deferredQueued
  /-- A sequencer's batches hold its own contexts. -/
  own : ∀ o, ∀ x ∈ held s o, (s.txc x).osr = o
  /-- The completed batches are written. -/
  written : ∀ x ∈ landed s, .written x ∈ s.log
  /-- A deferred context that is done is written. -/
  cleaned : ∀ x, (s.txc x).state = .done → (s.txc x).deferredTxn.isSome → .written x ∈ s.log

namespace Batched

variable {s s' : Store}

/-- A step that moves completed batches and touches no context. -/
theorem move (h : Batched s) (ht : s'.txc = s.txc) (hlog : ∀ e ∈ s.log, e ∈ s'.log)
    (hheld : ∀ o, held s' o = held s o) (hl : (landed s').Perm (landed s)) : Batched s' where
  nodup o := by
    rw [hheld, (hl.append_left _).nodup_iff]
    exact h.nodup o
  queued o x hx := by
    rw [hheld, (hl.append_left _).mem_iff] at hx
    rw [ht]
    exact h.queued o x hx
  own o x hx := by
    rw [hheld] at hx
    rw [ht]
    exact h.own o x hx
  written x hx := hlog _ (h.written x (hl.mem_iff.mp hx))
  cleaned x hd hs := by
    rw [ht] at hd hs
    exact hlog _ (h.cleaned x hd hs)

/-- A step that leaves the batches and the contexts in them alone, and makes no deferred context
done. -/
theorem restate (h : Batched s) (hlog : s'.log = s.log) (hheld : ∀ o, held s' o = held s o)
    (hl : landed s' = landed s)
    (hq : ∀ x, (s.txc x).state = .deferredQueued →
      (s'.txc x).state = .deferredQueued ∧ (s'.txc x).osr = (s.txc x).osr)
    (hd : ∀ x, (s'.txc x).state = .done → (s'.txc x).deferredTxn.isSome →
      (s.txc x).state = .done ∧ (s.txc x).deferredTxn.isSome) : Batched s' where
  nodup o := by
    rw [hheld, hl]
    exact h.nodup o
  queued o x hx := by
    rw [hheld, hl] at hx
    exact (hq x (h.queued o x hx)).1
  own o x hx := by
    rw [hheld] at hx
    rw [(hq x (h.queued o x (List.mem_append_left _ hx))).2]
    exact h.own o x hx
  written x hx := by
    rw [hl] at hx
    rw [hlog]
    exact h.written x hx
  cleaned x hx hs := by
    obtain ⟨h1, h2⟩ := hd x hx hs
    rw [hlog]
    exact h.cleaned x h1 h2

/-- The running batch of a sequencer completes. -/
theorem flushDone (h : Batched s) {o : ℕ} {b : DeferredBatch}
    (hr : (s.osr o).deferredRunning = some b) : Batched (s.flushDone o b) := by
  have hheld : ∀ o', held (s.flushDone o b) o' =
      if o' = o then batchTxcs (s.osr o).deferredPending else held s o' := by
    intro o'
    by_cases ho : o' = o
    · subst ho; simp [held, Store.flushDone, batchTxcs]
    · simp [held, Store.flushDone, ho]
  have ho : held s o = batchTxcs (s.osr o).deferredPending ++ b.txcs := by
    simp [held, hr, batchTxcs]
  have hl : (landed (s.flushDone o b)).Perm (b.txcs ++ landed s) := by
    simp only [landed, Store.flushDone, allTxcs, List.flatMap_append, List.flatMap_cons,
      List.flatMap_nil, List.append_nil]
    grind
  have hb : ∀ x ∈ b.txcs, x ∈ held s o := fun x hx => by rw [ho]; exact List.mem_append_right _ hx
  have hmem : ∀ o' x, x ∈ held (s.flushDone o b) o' → x ∈ held s o' := by
    intro o' x hx
    rw [hheld] at hx
    split_ifs at hx with hoo
    · rw [hoo, ho]
      exact List.mem_append_left _ hx
    · exact hx
  constructor
  case nodup =>
    intro o'
    rw [(hl.append_left _).nodup_iff, hheld]
    split_ifs with hoo
    · rw [← List.append_assoc, ← ho]
      exact h.nodup o
    · -- The batch was on another sequencer, so its contexts are not on this one.
      have hnb : (b.txcs ++ landed s).Nodup := by
        have := h.nodup o
        rw [ho, List.append_assoc] at this
        exact this.of_append_right
      refine List.nodup_append.mpr ⟨(h.nodup o').of_append_left, hnb, ?_⟩
      rintro x hx y hy rfl
      rcases List.mem_append.mp hy with hy | hy
      · exact hoo ((h.own o' x hx).symm.trans (h.own o x (hb x hy)))
      · exact (List.nodup_append.mp (h.nodup o')).2.2 x hx x hy rfl
  case queued =>
    intro o' x hx
    change (s.txc x).state = _
    rw [(hl.append_left _).mem_iff, List.mem_append, List.mem_append] at hx
    rcases hx with hx | hx | hx
    · exact h.queued o' x (List.mem_append_left _ (hmem o' x hx))
    · exact h.queued o x (List.mem_append_left _ (hb x hx))
    · exact h.queued o x (List.mem_append_right _ hx)
  case own => exact fun o' x hx => h.own o' x (hmem o' x hx)
  case written =>
    intro x hx
    change _ ∈ s.log ++ b.txcs.map Event.written
    rcases List.mem_append.mp (hl.mem_iff.mp hx) with hx | hx
    · exact List.mem_append_right _ (List.mem_map_of_mem hx)
    · exact List.mem_append_left _ (h.written x hx)
  case cleaned => exact fun x hx hs => List.mem_append_left _ (h.cleaned x hx hs)

/-- The passes keep the batches. -/
theorem passed (h : Batched s) (hs : Passed s s') : Batched s' := by
  induction hs with
  | kvStart hk =>
    refine h.move rfl (fun _ he => he) (fun _ => rfl) ?_
    simp [landed, hk, KvThread.batches]
  | kvFlush c hk =>
    refine h.move rfl (fun _ he => List.mem_append_left _ he) (fun _ => rfl) ?_
    simp [landed, hk, KvThread.batches]
  | kvTrySubmit c q hk =>
    refine h.move rfl (fun _ he => he) (fun _ => rfl) ?_
    simp [landed, hk, KvThread.batches]
  | kvStable c hk =>
    refine h.move rfl (fun _ he => he) (fun _ => rfl) ?_
    simp [landed, hk, KvThread.batches, allTxcs]
  | kvRemove c bs kv out es hk =>
    refine h.move rfl (fun _ he => List.mem_append_left _ he) (fun _ => rfl) ?_
    simp only [landed, hk, KvThread.batches, allTxcs, List.flatMap_append, List.flatMap_nil,
      List.append_nil]
    grind
  | trySubmit q q' => exact h.move rfl (fun _ he => he) (fun _ => rfl) (List.Perm.refl _)
  | startBatch o b q hp hr =>
    refine h.move rfl (fun _ he => he) (fun o' => ?_) (List.Perm.refl _)
    by_cases ho : o' = o
    · subst ho; simp [held, hp, hr, batchTxcs]
    · simp [held, ho]
  | flushDone o b hr => exact h.flushDone hr
  | finStart hc hs =>
    refine h.move rfl (fun _ he => he) (fun _ => rfl) ?_
    simp [landed, hs, allTxcs]
  | trans _ _ ih ih' => exact ih' (ih h)

/-- A committed deferred context joins the pending batch of its sequencer. -/
theorem deferredEnqueue (h : Batched s) {x : ℕ} {d : DeferredTxn}
    (hx : (s.txc x).state ≠ .deferredQueued) :
    Batched ((s.setState x .deferredQueued).deferredEnqueue x d) := by
  obtain ⟨o, ho⟩ : ∃ o, o = (s.txc x).osr := ⟨_, rfl⟩
  have hheld : ∀ o', (held ((s.setState x .deferredQueued).deferredEnqueue x d) o').Perm
      (held s o' ++ if o' = o then [x] else []) := by
    intro o'
    by_cases hoo : o' = o
    -- The batch grows by the context alone.
    · subst hoo
      cases hp : (s.osr o').deferredPending <;>
        simp [held, Store.deferredEnqueue, ← ho, batchTxcs, hp]
      all_goals grind
    · simp [held, Store.deferredEnqueue, ← ho, hoo]
  have hout : ∀ o', x ∉ held s o' ++ landed s := fun o' hm => hx (h.queued o' x hm)
  have hst : ∀ y, (((s.setState x .deferredQueued).deferredEnqueue x d).txc y).state =
      if y = x then .deferredQueued else (s.txc y).state := by
    intro y
    by_cases hy : y = x <;> simp [Store.deferredEnqueue, hy]
  -- Which no queue and no batch has had.
  constructor
  case nodup =>
    intro o'
    rw [((hheld o').append_right _).nodup_iff]
    change ((held s o' ++ _) ++ landed s).Nodup
    split_ifs
    · have hperm : (held s o' ++ [x] ++ landed s).Perm (x :: (held s o' ++ landed s)) := by
        rw [List.append_assoc]
        exact List.perm_middle
      rw [hperm.nodup_iff]
      exact List.nodup_cons.mpr ⟨hout o', h.nodup o'⟩
    · simpa using h.nodup o'
  case queued =>
    intro o' y hy
    rw [hst]
    split_ifs with hyx
    · rfl
    · rw [((hheld o').append_right _).mem_iff] at hy
      refine h.queued o' y ?_
      change y ∈ (held s o' ++ _) ++ landed s at hy
      split_ifs at hy
      · simpa [hyx] using hy
      · simpa using hy
  case own =>
    intro o' y hy
    have hosr : (((s.setState x .deferredQueued).deferredEnqueue x d).txc y).osr =
        (s.txc y).osr := by
      by_cases hyx : y = x <;> simp [Store.deferredEnqueue, hyx]
    rw [hosr]
    rw [(hheld o').mem_iff, List.mem_append] at hy
    rcases hy with hy | hy
    · exact h.own o' y hy
    · split_ifs at hy with hoo
      · rw [List.mem_singleton.mp hy, hoo, ho]
      · simp at hy
  case written => exact h.written
  case cleaned =>
    intro y hy hs
    rw [hst] at hy
    split_ifs at hy with hyx
    exact h.cleaned y hy (by simpa [Store.deferredEnqueue, hyx] using hs)

/-- `_txc_finish` of a context that is in no batch and, when deferred, is written. -/
theorem txcFinish (h : Batched s) {x : ℕ} (hx : ∀ o, x ∉ held s o ++ landed s)
    (hw : (s.txc x).deferredTxn.isSome → .written x ∈ s.log) : Batched (s.txcFinish x) := by
  have hheld : ∀ o, held (s.txcFinish x) o = held s o := by
    intro o
    by_cases ho : o = (s.txc x).osr
    · subst ho; simp [held, Store.txcFinish]
    · simp [held, Store.txcFinish, ho]
  have hother : ∀ y, y ≠ x → (s.txcFinish x).txc y = s.txc y := fun y hy => by
    simp [Store.txcFinish, hy]
  have hne : ∀ o, ∀ y ∈ held s o ++ landed s, y ≠ x := by
    rintro o y hy rfl
    exact hx o hy
  constructor
  case nodup =>
    intro o
    rw [hheld]
    exact h.nodup o
  case queued =>
    intro o y hy
    rw [hheld] at hy
    rw [hother y (hne o y hy)]
    exact h.queued o y hy
  case own =>
    intro o y hy
    rw [hheld] at hy
    rw [hother y (hne o y (List.mem_append_left _ hy))]
    exact h.own o y hy
  case written => exact h.written
  case cleaned =>
    intro y hy hs
    change _ ∈ s.log
    by_cases hyx : y = x
    · subst hyx
      exact hw (by simpa [Store.txcFinish] using hs)
    · rw [hother y hyx] at hy hs
      exact h.cleaned y hy hs

/-- `set_state` of a context that is in no batch, to a state that is not the last. -/
theorem setState (h : Batched s) {x : ℕ} (st : TxcState) (hx : ∀ o, x ∉ held s o ++ landed s)
    (hst : st ≠ .done) : Batched (s.setState x st) where
  nodup := h.nodup
  queued o y hy := by
    have hyx : y ≠ x := by
      rintro rfl
      exact hx o hy
    simpa [hyx] using h.queued o y hy
  own o y hy := by
    have hyx : y ≠ x := by
      rintro rfl
      exact hx o (List.mem_append_left _ hy)
    simpa [hyx] using h.own o y hy
  written := h.written
  cleaned y hy hs := by
    by_cases hyx : y = x
    · subst hyx
      exact absurd (by simpa using hy) hst
    · exact h.cleaned y (by simpa [hyx] using hy) (by simpa [hyx] using hs)

end Batched

/-! ## Every step -/

/-- The invariant of a mount. -/
structure Inv (m : Mount) : Prop where
  /-- The sequencers are in order. -/
  seq : Sequenced m
  /-- The AIOs are counted. -/
  aios : AiosCounted m
  /-- The KV threads are in order. -/
  piped : Piped m
  /-- The batches are in order. -/
  batched : Batched m.store

/-- The invariant holds when a mount starts. -/
theorem inv_start (kv : List (ℕ × DeferredRecord)) : Inv (start kv) := by
  refine ⟨?_, ?_, ?_, ?_⟩
  · constructor <;> simp [start, Store.init, Mount.state, Mount.queue, TransContext.blank,
      OpSequencer.empty]
    exact fun o => ⟨[], [], rfl, by simp, by simp, by simp, by simp⟩
  · constructor <;> simp [start, Store.init, Mount.state, TransContext.blank]
  · constructor <;> simp [start, Store.init, KvThread.unsubmitted, KvThread.committing]
  · constructor <;> simp [start, Store.init, held, landed, OpSequencer.empty, batchTxcs, allTxcs,
      KvThread.batches, TransContext.blank]

/-- `_txc_finish_io` of a context whose AIOs have completed. -/
theorem inv_finishIo {m : Mount} {x : ℕ} (hseq : Sequenced m) (hpiped : Piped m)
    (hbatched : Batched m.store) (hx : x ∈ m.submitted) (hn : ¬ m.Late x)
    (hle : ∀ y, m.finished y ≤ m.started y) (heq : m.finished x = m.started x)
    (hrun : ∀ y, y ≠ x → (m.finished y < m.started y ↔ m.state y = .aioWait))
    (hidle : ∀ y, y ≠ x → m.state y = .prepare → m.started y = 0)
    (hsub : ∀ y, m.state y = .aioWait → y ∈ m.submitted) : Inv (m.finishIo x) := by
  refine ⟨hseq.finishIo hx hn, ?_, ?_, ?_⟩
  · refine ⟨hle, fun y => ?_, fun y hy => ?_, fun y hy => ?_⟩
    · change m.finished y < m.started y ↔ _
      rw [finishIo_state]
      split_ifs with h1 h2
      · -- A context that is passed on has completed its AIOs before.
        have hst := ready_state (m.store.ioDone x) x y h1
        rw [ioDone_state] at hst
        have hfin : ¬ m.finished y < m.started y := by
          by_cases hyx : y = x
          · rw [hyx, heq]
            exact lt_irrefl _
          · rw [hrun y hyx, Mount.state]
            rw [if_neg hyx] at hst
            simp [hst]
        simpa using hfin
      · simp [h2, heq]
      · exact hrun y h2
    · rw [finishIo_state] at hy
      split_ifs at hy with h1 h2
      exact hidle y h2 hy
    · rw [finishIo_state] at hy
      split_ifs at hy
      exact hsub y hy
  · have hlate : ∀ y ∈ m.entered, (m.finishIo x).state y = m.state y := fun y hy =>
      hseq.finishIo_state_of_late hx hn (hseq.late y (List.mem_append_right _ hy))
    have hmem : ∀ y, y ∈ m.committed ∨ y ∈ m.store.kvThread.unsubmitted ∨
        y ∈ m.store.kvQueue → y ∈ m.entered := by
      intro y hy
      rw [hpiped.entered]
      simpa [or_assoc] using hy
    obtain ⟨d, hd, hcom, hsub⟩ := hpiped.committed
    refine ⟨?_, ?_, ⟨d, ?_, ?_, ?_⟩, ?_⟩
    · rw [finishIo_frame]
      change m.entered ++ _ = _
      rw [hpiped.entered, ← List.append_assoc]
      rfl
    · intro y hy
      rw [finishIo_frame] at hy
      change y ∈ m.store.kvThread.unsubmitted ++ (m.store.kvQueue ++ _) at hy
      rw [← List.append_assoc] at hy
      rcases List.mem_append.mp hy with hy | hy
      · rw [hlate y (hmem y (.inr (List.mem_append.mp hy)))]
        exact hpiped.queued y hy
      · rw [finishIo_state, if_pos hy]
    · rw [finishIo_frame]
      exact hd
    · rw [finishIo_frame]
      exact hcom
    · intro y hy
      rw [finishIo_frame] at hy
      rw [hlate y (hmem y (.inl (by rw [hcom]; exact List.mem_append_right _ hy)))]
      exact hsub y hy
    · intro y hy
      have hyc : y ∈ m.committed := by rw [hcom]; exact List.mem_append_left _ hy
      rw [hlate y (hmem y (.inl hyc))]
      exact hpiped.acked y hy
  · refine hbatched.restate ?_ ?_ ?_ ?_ ?_
    · rw [finishIo_frame]
    · intro o
      rw [finishIo_frame]
      rfl
    · rw [finishIo_frame]
      rfl
    · intro y hy
      have hl : m.Late y := by
        rw [Late, Mount.state, hy]
        decide
      exact ⟨(hseq.finishIo_state_of_late hx hn hl).trans hy, (finishIo_txc m x y).1⟩
    · intro y hy hs
      have hst : (m.finishIo x).state y = .done := hy
      rw [finishIo_state] at hst
      rw [(finishIo_txc m x y).2] at hs
      split_ifs at hst
      exact ⟨hst, hs⟩

/-- The rest of `queue_transactions`. -/
theorem inv_queueTransactions {m : Mount} (h : Inv m) {x : ℕ} (aios : ℕ)
    (ops : Option DeferredOps) (hx : x ∈ m.submitted) (hst : m.state x = .prepare) :
    Inv ((m.prepared x aios ops).txcStateProc x) := by
  obtain ⟨m', hm'⟩ : ∃ m', m' = m.prepared x aios ops := ⟨_, rfl⟩
  rw [← hm']
  have hstate : ∀ y, m'.state y = m.state y := fun y => by
    by_cases hy : y = x
    · simp [hm', prepared, Mount.state, hy]
    · simp [hm', prepared, Mount.state, hy]
  have hosr : ∀ y, (m'.store.txc y).osr = (m.store.txc y).osr := fun y => by
    by_cases hy : y = x
    · simp [hm', prepared, hy]
    · simp [hm', prepared, hy]
  have hlate : LateStep m m' := by
    subst hm'
    exact LateStep.quiet rfl rfl rfl rfl rfl rfl hosr hstate fun _ => rfl
  have hseq := h.seq.lateStep hlate
  have hpiped : Piped m' := by
    subst hm'
    exact h.piped.frame rfl rfl rfl rfl rfl rfl rfl fun y _ => hstate y
  have hbatched : Batched m'.store := by
    refine h.batched.restate (by rw [hm']; rfl) (by rw [hm']; exact fun _ => rfl)
      (by rw [hm']; rfl) (fun y hy => ⟨(hstate y).trans hy, hosr y⟩) fun y hy hs => ?_
    have hyd : m.state y = .done := (hstate y).symm.trans hy
    have hyx : y ≠ x := by
      rintro rfl
      rw [hst] at hyd
      exact absurd hyd (by simp)
    exact ⟨hyd, by simpa [hm', prepared, hyx] using hs⟩
  have hn : ¬ m'.Late x := by
    rw [Late, hstate, hst]
    decide
  have hsub : m'.submitted = m.submitted := hlate.submitted
  have hfin : m'.finished = m.finished := by rw [hm']; rfl
  have hsta : ∀ y, m'.started y = if y = x then aios else m.started y := fun y => by
    rw [hm']
    simp [prepared, Function.update_apply]
  have hfx : m.finished x = 0 := Nat.le_zero.mp (h.aios.idle x hst ▸ h.aios.le x)
  have hproc : m'.txcStateProc x =
      if 0 < m'.started x then m'.setState x .aioWait else m'.finishIo x := by
    have hs' : (m'.store.txc x).state = .prepare := (hstate x).trans hst
    simp only [txcStateProc, hs']
  rw [hproc]
  split_ifs with ha
  · have hst' : ∀ y, (m'.setState x .aioWait).state y = if y = x then .aioWait else m.state y := by
      intro y
      by_cases hy : y = x
      · simp [Mount.state, Mount.setState, hy]
      · rw [if_neg hy, ← hstate y]
        simp [Mount.state, Mount.setState, hy]
    refine ⟨hseq.aioWait (hsub ▸ hx) hn,
      ⟨fun y => ?_, fun y => ?_, fun y hy => ?_, fun y hy => ?_⟩, ?_, ?_⟩
    · change m'.finished y ≤ m'.started y
      rw [hfin, hsta]
      split_ifs with hy
      · rw [hy, hfx]
        exact Nat.zero_le _
      · exact h.aios.le y
    · change m'.finished y < m'.started y ↔ _
      rw [hst', hfin]
      split_ifs with hy
      · rw [hy, hfx]
        simpa using ha
      · rw [hsta, if_neg hy]
        exact h.aios.running y
    · rw [hst'] at hy
      split_ifs at hy with hyx
      change m'.started y = 0
      rw [hsta, if_neg hyx]
      exact h.aios.idle y hy
    · change y ∈ m'.submitted
      rw [hst'] at hy
      rw [hsub]
      split_ifs at hy with hyx
      · rw [hyx]
        exact hx
      · exact h.aios.submitted y hy
    · refine hpiped.frame rfl rfl rfl rfl rfl rfl rfl fun y hy => ?_
      have hyx : y ≠ x := by
        rintro rfl
        exact hn (hseq.late y (List.mem_append_right _ hy))
      rw [hst', if_neg hyx, hstate]
    · refine hbatched.setState _ (fun o hm => hn ?_) (by simp)
      have hq := hbatched.queued o x hm
      rw [Late, Mount.state, hq]
      decide
  · have hz : aios = 0 := by
      rw [hsta, if_pos rfl] at ha
      omega
    refine inv_finishIo hseq hpiped hbatched (hsub ▸ hx) hn (fun y => ?_) ?_ (fun y hy => ?_)
      (fun y hy hp => ?_) fun y hy => ?_
    · rw [hfin, hsta]
      split_ifs with hy
      · rw [hy, hfx]
        exact Nat.zero_le _
      · exact h.aios.le y
    · rw [hfin, hsta, if_pos rfl, hfx, hz]
    · rw [hfin, hsta, if_neg hy, hstate]
      exact h.aios.running y
    · rw [hsta, if_neg hy]
      exact h.aios.idle y ((hstate y).symm.trans hp)
    · rw [hsub]
      exact h.aios.submitted y ((hstate y).symm.trans hy)

/-- An AIO of a context completes. -/
theorem inv_aioDone {m : Mount} (h : Inv m) {x : ℕ} (hlt : m.finished x < m.started x)
    {m' : Mount}
    (hm' : m' = { m with finished := Function.update m.finished x (m.finished x + 1) }) :
    Inv (if m'.finished x = m'.started x then m'.txcStateProc x else m') := by
  have hst : m.state x = .aioWait := (h.aios.running x).mp hlt
  -- Only the count of finished AIOs changes.
  have hlate : LateStep m m' := by
    subst hm'
    exact LateStep.quiet rfl rfl rfl rfl rfl rfl (fun _ => rfl) (fun _ => rfl) fun _ => rfl
  have hseq := h.seq.lateStep hlate
  have hpiped : Piped m' := by
    subst hm'
    exact h.piped.frame rfl rfl rfl rfl rfl rfl rfl fun _ _ => rfl
  have hbatched : Batched m'.store := by
    subst hm'
    exact h.batched
  have hstate : ∀ y, m'.state y = m.state y := fun y => by rw [hm']; rfl
  have hfin : ∀ y, m'.finished y = if y = x then m.finished x + 1 else m.finished y := fun y => by
    rw [hm']
    simp [Function.update_apply]
  have hsta : m'.started = m.started := by rw [hm']
  have hle : ∀ y, m'.finished y ≤ m'.started y := fun y => by
    rw [hfin, hsta]
    split_ifs with hy
    · rw [hy]
      exact hlt
    · exact h.aios.le y
  -- It was the last one, or others are still out.
  split_ifs with hlast
  · have hn : ¬ m'.Late x := by
      rw [Late, hstate, hst]
      decide
    have hx : x ∈ m.submitted := h.aios.submitted x hst
    have hproc : m'.txcStateProc x = m'.finishIo x := by
      have hs' : (m'.store.txc x).state = .aioWait := (hstate x).trans hst
      simp only [txcStateProc, hs']
    rw [hproc]
    refine inv_finishIo hseq hpiped hbatched (hlate.submitted ▸ hx) hn hle hlast (fun y hy => ?_)
      (fun y hy hp => ?_) fun y hy => ?_
    · rw [hfin, if_neg hy, hsta, hstate]
      exact h.aios.running y
    · rw [hsta]
      exact h.aios.idle y ((hstate y).symm.trans hp)
    · rw [hlate.submitted]
      exact h.aios.submitted y ((hstate y).symm.trans hy)
  · refine ⟨hseq, ⟨hle, fun y => ?_, fun y hy => ?_, fun y hy => ?_⟩, hpiped, hbatched⟩
    · rw [hstate]
      by_cases hy : y = x
      · subst hy
        have := hle y
        simp only [hst, iff_true]
        omega
      · rw [hfin, if_neg hy, hsta]
        exact h.aios.running y
    · rw [hsta]
      exact h.aios.idle y ((hstate y).symm.trans hy)
    · rw [hlate.submitted]
      exact h.aios.submitted y ((hstate y).symm.trans hy)

/-- The passes keep the invariant. -/
theorem inv_passed {m : Mount} (h : Inv m) {s' : Store} (hs : Passed m.store s') :
    Inv { m with store := s' } :=
  ⟨h.seq.lateStep hs.lateStep, h.aios.lateStep hs.lateStep rfl rfl, h.piped.passed hs,
    h.batched.passed hs⟩

/-- `_txc_apply_kv` changes the context, the KV store and the history. -/
theorem applyKv_frame (s : Store) (x : ℕ) : ∃ kv es, s.applyKv x =
    { s.setState x .kvSubmitted with kv := kv, log := s.log ++ es } := by
  simp only [Store.applyKv]
  split
  · exact ⟨_, [.commit x], rfl⟩
  · exact ⟨s.kv, [], by simp [Store.setState]⟩

/-- The state of a context after `_txc_apply_kv` has submitted the KV transaction of `x`. -/
theorem applyKv_state (s : Store) (x y : ℕ) : ((s.applyKv x).txc y).state =
    if y = x then .kvSubmitted else (s.txc y).state := by
  obtain ⟨kv, es, h⟩ := applyKv_frame s x
  rw [h]
  by_cases hy : y = x <;> simp [hy]

/-- The KV sync thread submits the next KV transaction. -/
theorem inv_kvSubmit {m : Mount} (h : Inv m) {c rest : List ℕ} {x : ℕ}
    (hk : m.store.kvThread = .submit c (x :: rest)) : m.state x = .kvQueued ∧
    Inv { m with
      store := { m.store.applyKv x with kvThread := .submit c rest }
      committed := m.committed ++ [x] } := by
  have hx : m.state x = .kvQueued := h.piped.queued x (by simp [hk, KvThread.unsubmitted])
  obtain ⟨kv, es, hf⟩ := applyKv_frame m.store x
  have hlx : m.Late x := by
    rw [Late, hx]
    decide
  have hlate : LateStep m { m with
      store := { m.store.applyKv x with kvThread := .submit c rest }
      committed := m.committed ++ [x] } := by
    rw [hf]
    refine (LateStep.setState .kvSubmitted hlx (by simp [hx]) (by decide)
      (by simp)).trans ?_
    exact LateStep.quiet rfl rfl rfl rfl rfl rfl (fun _ => rfl) (fun _ => rfl) fun _ => rfl
  refine ⟨hx, h.seq.lateStep hlate, h.aios.lateStep hlate rfl rfl, ?_, ?_⟩
  · refine h.piped.kvSubmit h.seq.entered_nodup hk rfl ?_ ?_ ?_ fun y => applyKv_state m.store x y
    · rw [hf]; rfl
    · rw [hf]; rfl
    · rw [hf]; rfl
  · have hout : ∀ o, x ∉ held m.store o ++ landed m.store := by
      intro o hm
      have := h.batched.queued o x hm
      rw [Mount.state, this] at hx
      exact absurd hx (by simp)
    refine (h.batched.setState .kvSubmitted hout (by simp)).move ?_ ?_ ?_ ?_
    · rw [hf]
    · rw [hf]
      exact fun e he => List.mem_append_left _ he
    · rw [hf]
      exact fun _ => rfl
    · rw [hf]
      simp [landed, hk, KvThread.batches, Store.setState]

/-- `STATE_KV_DONE` of a context that has left the KV threads. -/
theorem procKvDone_spec {m : Mount} {x : ℕ} (hseq : Sequenced m) (hb : Batched m.store)
    (hx : m.state x = .kvDone) : LateStep m (m.procKvDone x) ∧ Batched (m.procKvDone x).store ∧
      (∀ y, y ≠ x → (m.procKvDone x).state y = m.state y) ∧
      TxcState.kvDone.rank ≤ ((m.procKvDone x).state x).rank := by
  have hlx : m.Late x := by
    rw [Late, hx]
    decide
  have hxd : m.state x ≠ .done := by simp [hx]
  have hout : ∀ o, x ∉ held m.store o ++ landed m.store := by
    intro o hm
    have := hb.queued o x hm
    rw [Mount.state, this] at hx
    exact absurd hx (by simp)
  unfold Mount.procKvDone
  cases hd : (m.store.txc x).deferredTxn with
  | some d =>
    have hst : (m.store.txc x).state = .kvDone := hx
    refine ⟨?_, hb.deferredEnqueue (by simp [hst]), fun y hy => ?_, ?_⟩
    · refine (LateStep.setState .deferredQueued hlx hxd (by decide) (by simp)).trans ?_
      refine LateStep.quiet rfl rfl rfl rfl rfl rfl (fun _ => rfl) (fun _ => rfl) fun o => ?_
      by_cases ho : o = (m.store.txc x).osr
      · subst ho; simp [Mount.queue, Mount.setState, Store.deferredEnqueue]
      · simp [Mount.queue, Mount.setState, Store.deferredEnqueue, ho]
    · simp [Mount.state, Store.deferredEnqueue, hy]
    · simp [Mount.state, Store.deferredEnqueue, TxcState.rank]
  | none =>
    have h1 := LateStep.setState .finishing hlx hxd (by decide) (by simp)
    have hseq1 := hseq.lateStep h1
    refine ⟨h1.trans (LateStep.txcFinish (fun o y hy => (hseq1.mem_queue hy).2) ?_ ?_), ?_,
      fun y hy => ?_, ?_⟩
    · simp [Late, Mount.state, Mount.setState, TxcState.rank]
    · simp [Mount.state, Mount.setState]
    · refine (hb.setState .finishing hout (by simp)).txcFinish hout fun hs => ?_
      simp [hd] at hs
    · simp [Mount.state, Mount.txcFinish, Mount.setState, Store.txcFinish, hy]
    · simp [Mount.state, Mount.txcFinish, Mount.setState, Store.txcFinish, TxcState.rank]

/-- `STATE_KV_DONE` leaves the KV threads and the AIO counts alone. -/
theorem procKvDone_frame (m : Mount) (x : ℕ) :
    (m.procKvDone x).entered = m.entered ∧ (m.procKvDone x).committed = m.committed ∧
      (m.procKvDone x).acked = m.acked ∧ (m.procKvDone x).started = m.started ∧
      (m.procKvDone x).finished = m.finished ∧
      (m.procKvDone x).store.kvThread = m.store.kvThread ∧
      (m.procKvDone x).store.kvQueue = m.store.kvQueue ∧
      (m.procKvDone x).store.finCommitted = m.store.finCommitted ∧
      (m.procKvDone x).store.committingToFinalize = m.store.committingToFinalize := by
  unfold Mount.procKvDone
  split <;> exact ⟨rfl, rfl, rfl, rfl, rfl, rfl, rfl, rfl, rfl⟩

/-- The finalize thread processes the next committed context. -/
theorem inv_finCommit {m : Mount} (h : Inv m) {x : ℕ} {xs : List ℕ}
    (hf : m.store.finCommitted = x :: xs) :
    Inv ({ m with store := { m.store with finCommitted := xs } }.txcStateProc x) := by
  obtain ⟨m0, hm0⟩ : ∃ m0 : Mount,
    m0 = { m with store := { m.store with finCommitted := xs } } := ⟨_, rfl⟩
  obtain ⟨d, hd, hcom, hsub⟩ := h.piped.committed
  have hx : m.state x = .kvSubmitted := hsub x (by simp [hf])
  have hlx : m.Late x := by
    rw [Late, hx]
    decide
  have hx0 : m0.state x = .kvSubmitted := by rw [hm0]; exact hx
  -- The state machine goes through two states at once.
  have hproc : m0.txcStateProc x = (m0.txcCommittedKv x).procKvDone x := by
    have hst : (m0.store.txc x).state = .kvSubmitted := hx0
    simp only [txcStateProc, hst]
  rw [← hm0, hproc]
  obtain ⟨m1, hm1⟩ : ∃ m1, m1 = m0.txcCommittedKv x := ⟨_, rfl⟩
  rw [← hm1]
  have hlate1 : LateStep m m1 := by
    subst hm1 hm0
    refine (LateStep.setState .kvDone hlx (by simp [hx]) (by decide) (by simp)).trans ?_
    exact LateStep.quiet rfl rfl rfl rfl rfl rfl (fun _ => rfl) (fun _ => rfl) fun _ => rfl
  have hseq1 := h.seq.lateStep hlate1
  have hout : ∀ o, x ∉ held m.store o ++ landed m.store := by
    intro o hm
    have := h.batched.queued o x hm
    rw [Mount.state, this] at hx
    exact absurd hx (by simp)
  have hb1 : Batched m1.store := by
    subst hm1 hm0
    exact (h.batched.setState .kvDone hout (by simp)).move rfl (fun _ he => he)
      (fun _ => rfl) (List.Perm.refl _)
  have hx1 : m1.state x = .kvDone := by
    rw [hm1]
    simp [Mount.state, txcCommittedKv, Mount.setState]
  have hother : ∀ y, y ≠ x → m1.state y = m.state y := fun y hy => by
    rw [hm1, hm0]
    simp [Mount.state, txcCommittedKv, Mount.setState, hy]
  -- The second part may queue the context for a deferred write.
  obtain ⟨hlate2, hb2, hst2, hx2⟩ := procKvDone_spec hseq1 hb1 hx1
  obtain ⟨e1, e2, e3, e4, e5, e6, e7, e8, e9⟩ := procKvDone_frame m1 x
  have hlate := hlate1.trans hlate2
  refine ⟨h.seq.lateStep hlate, h.aios.lateStep hlate ?_ ?_, ?_, hb2⟩
  · rw [e4, hm1, hm0]; rfl
  · rw [e5, hm1, hm0]; rfl
  · refine h.piped.finCommit h.seq.entered_nodup hf ?_ ?_ ?_ ?_ ?_ ?_ ?_ hx2 ?_
    · rw [e8, hm1, hm0]; rfl
    · rw [e1, hm1, hm0]; rfl
    · rw [e2, hm1, hm0]; rfl
    · rw [e3, hm1, hm0]; rfl
    · rw [e6, hm1, hm0]; rfl
    · rw [e7, hm1, hm0]; rfl
    · rw [e9, hm1, hm0]; rfl
    · intro y hy
      rw [hst2 y hy, hother y hy]

/-- The finalize thread cleans up the next context of a stable batch. -/
theorem inv_finCleanup {m : Mount} (h : Inv m) {x : ℕ} {s : Store}
    (ht : takeStable m.store = some (x, s)) :
    Inv (({ m with store := s }.setState x .deferredCleanup).txcStateProc x) := by
  obtain ⟨xs, w, bs, hfs, rfl⟩ : ∃ xs w bs, m.store.finStable = ⟨x :: xs, w⟩ :: bs ∧
      s = { m.store with finStable := ⟨xs, w⟩ :: bs } := by
    unfold takeStable at ht
    split at ht
    · rename_i y xs w bs hfs
      simp only [Option.some.injEq, Prod.mk.injEq] at ht
      obtain ⟨rfl, rfl⟩ := ht
      exact ⟨xs, w, bs, hfs, rfl⟩
    · simp at ht
  obtain ⟨s, hs⟩ : ∃ s : Store, s = { m.store with finStable := ⟨xs, w⟩ :: bs } := ⟨_, rfl⟩
  obtain ⟨m1, hm1⟩ : ∃ m1 : Mount, m1 = { m with store := s } := ⟨_, rfl⟩
  rw [← hs, ← hm1]
  have hl : (landed m.store).Perm (x :: landed s) := by
    simp only [landed, hs, hfs, allTxcs, List.flatMap_cons]
    grind
  have hheld : ∀ o, held s o = held m.store o := fun o => by rw [hs]; rfl
  have hxl : x ∈ landed m.store := hl.mem_iff.mpr (by simp)
  have hxq : m.state x = .deferredQueued := h.batched.queued 0 x (List.mem_append_right _ hxl)
  have hperm : ∀ o, (held m.store o ++ landed m.store).Perm (x :: (held s o ++ landed s)) := by
    intro o
    rw [hheld]
    exact (hl.append_left _).trans List.perm_middle
  have hnd : ∀ o, x ∉ held s o ++ landed s ∧ (held s o ++ landed s).Nodup :=
    fun o => List.nodup_cons.mp ((hperm o).nodup_iff.mp (h.batched.nodup o))
  have htxc : s.txc = m.store.txc := by rw [hs]
  have hlog : s.log = m.store.log := by rw [hs]
  have hb1 : Batched s := by
    refine ⟨fun o => (hnd o).2, fun o y hy => ?_, fun o y hy => ?_, fun y hy => ?_, ?_⟩
    · rw [htxc]
      exact h.batched.queued o y ((hperm o).mem_iff.mpr (List.mem_cons_of_mem _ hy))
    · rw [htxc]
      exact h.batched.own o y (hheld o ▸ hy)
    · rw [hlog]
      exact h.batched.written y (hl.mem_iff.mpr (List.mem_cons_of_mem _ hy))
    · rw [htxc, hlog]
      exact h.batched.cleaned
  have hlate1 : LateStep m m1 := by
    rw [hm1, hs]
    exact LateStep.quiet rfl rfl rfl rfl rfl rfl (fun _ => rfl) (fun _ => rfl) fun _ => rfl
  have hx1 : m1.state x = .deferredQueued := by rw [hm1, hs]; exact hxq
  have h2 : LateStep m1 (m1.setState x .deferredCleanup) :=
    LateStep.setState _ (by rw [Late, hx1]; decide) (by simp [hx1]) (by decide) (by simp)
  have h3 : LateStep (m1.setState x .deferredCleanup)
      ((m1.setState x .deferredCleanup).setState x .finishing) := by
    refine LateStep.setState _ ?_ ?_ (by decide) (by simp)
    · simp [Late, Mount.state, Mount.setState, TxcState.rank]
    · simp [Mount.state, Mount.setState]
  have hseq3 := ((h.seq.lateStep hlate1).lateStep h2).lateStep h3
  have hlate : LateStep m
      (((m1.setState x .deferredCleanup).setState x .finishing).txcFinish x) := by
    refine ((hlate1.trans h2).trans h3).trans
      (LateStep.txcFinish (fun o y hy => (hseq3.mem_queue hy).2) ?_ ?_)
    · simp [Late, Mount.state, Mount.setState, TxcState.rank]
    · simp [Mount.state, Mount.setState]
  have hproc : (m1.setState x .deferredCleanup).txcStateProc x =
      ((m1.setState x .deferredCleanup).setState x .finishing).txcFinish x := by
    have hst : ((m1.setState x .deferredCleanup).store.txc x).state = .deferredCleanup := by
      simp [Mount.setState]
    simp only [txcStateProc, hst]
  rw [hproc]
  have hxe : x ∉ m.store.kvThread.unsubmitted ++ m.store.kvQueue := fun hm => by
    have := h.piped.queued x hm
    rw [hxq] at this
    exact absurd this (by simp)
  refine ⟨h.seq.lateStep hlate, h.aios.lateStep hlate ?_ ?_, ?_, ?_⟩
  · rw [hm1]; rfl
  · rw [hm1]; rfl
  · -- The context has been acknowledged, so only the last clause of `Piped` sees it.
    have hst : ∀ y, y ≠ x → (((m1.setState x .deferredCleanup).setState x .finishing).txcFinish
        x).state y = m.state y := fun y hy => by
      rw [hm1]
      simp [Mount.state, Mount.setState, Mount.txcFinish, Store.txcFinish, hy, htxc]
    obtain ⟨d, hd, hcom, hsub⟩ := h.piped.committed
    subst hm1 hs
    refine ⟨h.piped.entered, fun y hy => ?_, ⟨d, hd, hcom, fun y hy => ?_⟩, fun y hy => ?_⟩
    · rw [hst y fun hyx => hxe (hyx ▸ hy)]
      exact h.piped.queued y hy
    · have hyx : y ≠ x := by
        rintro rfl
        have := hsub y hy
        rw [hxq] at this
        exact absurd this (by simp)
      rw [hst y hyx]
      exact hsub y hy
    · by_cases hyx : y = x
      · subst hyx
        simp [Mount.state, Mount.setState, Mount.txcFinish, Store.txcFinish, TxcState.rank]
      · rw [hst y hyx]
        exact h.piped.acked y hy
  · have hout : ∀ o, x ∉ held s o ++ landed s := fun o => (hnd o).1
    rw [hm1]
    refine ((hb1.setState .deferredCleanup hout (by simp)).setState .finishing
      hout (by simp)).txcFinish hout fun _ => ?_
    change _ ∈ s.log
    rw [hlog]
    exact h.batched.written x hxl

/-- The finalize thread deletes an empty batch. -/
theorem inv_finDelete {m : Mount} (h : Inv m) {w : List (ℕ × List UInt8)} {bs : List DeferredBatch}
    (hf : m.store.finStable = ⟨[], w⟩ :: bs) :
    Inv { m with store := { m.store with finStable := bs } } := by
  have hlate : LateStep m { m with store := { m.store with finStable := bs } } :=
    LateStep.quiet rfl rfl rfl rfl rfl rfl (fun _ => rfl) (fun _ => rfl) fun _ => rfl
  refine ⟨h.seq.lateStep hlate, h.aios.lateStep hlate rfl rfl, ?_, ?_⟩
  · exact h.piped.frame rfl rfl rfl rfl rfl rfl rfl fun _ _ => rfl
  · refine h.batched.move rfl (fun _ he => he) (fun _ => rfl) ?_
    simp [landed, hf, allTxcs]

/-- A new context, before any thread looks at it, leaves the AIO counts as they are. -/
theorem AiosCounted.newContext {m m' : Mount} {o : ℕ} {st : TxcState} (h : Inv m)
    (hs : NewContext m m' o st) (hst : st ≠ .aioWait) (hsta : m'.started = m.started)
    (hfin : m'.finished = m.finished) (hsub : ∀ x ∈ m.submitted, x ∈ m'.submitted) :
    AiosCounted m' := by
  have hz : m.started m.store.nextTxn = 0 := h.aios.idle _ (h.seq.unused _ le_rfl)
  constructor
  case le =>
    rw [hsta, hfin]
    exact h.aios.le
  case running =>
    intro y
    rw [hsta, hfin]
    by_cases hy : y = m.store.nextTxn
    · rw [hy, hs.state, hz]
      simpa using hst
    · rw [hs.state_eq hy]
      exact h.aios.running y
  case idle =>
    intro y hp
    rw [hsta]
    by_cases hy : y = m.store.nextTxn
    · rw [hy, hz]
    · exact h.aios.idle y ((hs.state_eq hy).symm.trans hp)
  case submitted =>
    intro y hp
    by_cases hy : y = m.store.nextTxn
    · rw [hy, hs.state] at hp
      exact absurd hp hst
    · exact hsub y (h.aios.submitted y ((hs.state_eq hy).symm.trans hp))

/-- A new context that is not done is in no batch. -/
theorem Batched.newContext {m m' : Mount} {o : ℕ} {st : TxcState} (h : Inv m)
    (hs : NewContext m m' o st) (hst : st ≠ .done) (hlog : m'.store.log = m.store.log)
    (hheld : ∀ o, held m'.store o = held m.store o) (hl : landed m'.store = landed m.store) :
    Batched m'.store := by
  have hnew : (m.store.txc m.store.nextTxn).state = .prepare := h.seq.unused _ le_rfl
  refine h.batched.restate hlog hheld hl (fun y hy => ?_) fun y hd hdef => ?_
  · have hyx : y ≠ m.store.nextTxn := by
      rintro rfl
      rw [hnew] at hy
      exact absurd hy (by simp)
    rw [hs.txc y hyx]
    exact ⟨hy, rfl⟩
  · have hyx : y ≠ m.store.nextTxn := by
      rintro rfl
      exact hst (hs.state.symm.trans hd)
    rw [hs.txc y hyx] at hd hdef
    exact ⟨hd, hdef⟩

/-- `queue_new` leaves the batches alone. -/
theorem held_queueNew (s : Store) (o o' : ℕ) (st : TxcState) (d : Option DeferredTxn) :
    held (queueNew s o st d) o' = held s o' := by
  by_cases ho : o' = o
  · subst ho; simp [held, queueNew]
  · simp [held, queueNew, ho]

/-- `_txc_create`. -/
theorem inv_txcCreate {m : Mount} (h : Inv m) (hup : m.store.phase = .up) (o : ℕ) :
    Inv { m with
      store := queueNew m.store o .prepare none
      submitted := m.submitted ++ [m.store.nextTxn] } := by
  have hs := newContext_queueNew m o .prepare none m.store.phase m.restored
    (m.submitted ++ [m.store.nextTxn]) (List.append_assoc _ _ _).symm
  refine ⟨hs.sequenced_create h.seq rfl rfl hup,
    AiosCounted.newContext h hs (by simp) rfl rfl fun x hx => List.mem_append_left _ hx, ?_,
    Batched.newContext h hs (by simp) rfl (fun o' => held_queueNew _ o o' _ _) rfl⟩
  refine h.piped.frame rfl rfl rfl rfl rfl rfl rfl fun y hy => hs.state_eq ?_
  exact NewContext.ne_of_passed h.seq (List.mem_append_right _ hy)

/-- `_deferred_replay` of a record. -/
theorem inv_replayNext {m : Mount} (h : Inv m) {r : DeferredRecord} {rest : List DeferredRecord}
    (hp : m.store.phase = .replaying (r :: rest)) :
    Inv ({ m with
      store := queueNew { m.store with phase := .replaying rest } 0 .kvDone (some r.txn)
      restored := m.restored ++ [m.store.nextTxn] }.txcStateProc m.store.nextTxn) := by
  have hsub : m.submitted = [] := h.seq.mounting (by rw [hp]; simp)
  obtain ⟨m', hm'⟩ : ∃ m' : Mount, m' = { m with
    store := queueNew { m.store with phase := .replaying rest } 0 .kvDone (some r.txn)
    restored := m.restored ++ [m.store.nextTxn] } := ⟨_, rfl⟩
  have hs : NewContext m m' 0 .kvDone := by
    rw [hm']
    exact newContext_queueNew m 0 .kvDone (some r.txn) (.replaying rest) _ _ (by simp [hsub])
  rw [← hm']
  have hseq : Sequenced m' :=
    hs.sequenced_restore h.seq (by rw [hm']) (by rw [hm']; exact hsub) hsub
  have haios : AiosCounted m' := AiosCounted.newContext h hs (by simp) (by rw [hm'])
    (by rw [hm']) fun x hx => by simp [hsub] at hx
  have hb : Batched m'.store := Batched.newContext h hs (by simp) (by rw [hm']; rfl)
    (fun o' => by rw [hm']; exact held_queueNew _ 0 o' _ _) (by rw [hm']; rfl)
  have hent : m.entered = [] := by
    rw [List.eq_nil_iff_forall_not_mem]
    intro y hy
    simpa [hsub] using h.seq.entered_subset hy
  have hpiped : Piped m' := by
    subst hm'
    exact h.piped.frame rfl rfl rfl rfl rfl rfl rfl fun y hy => by simp [hent] at hy
  have hproc : m'.txcStateProc m.store.nextTxn = m'.procKvDone m.store.nextTxn := by
    have hst : (m'.store.txc m.store.nextTxn).state = .kvDone := hs.state
    simp only [txcStateProc, hst]
  rw [hproc]
  obtain ⟨hlate, hb2, -, -⟩ := procKvDone_spec hseq hb hs.state
  obtain ⟨e1, e2, e3, e4, e5, e6, e7, e8, e9⟩ := procKvDone_frame m' m.store.nextTxn
  refine ⟨hseq.lateStep hlate, haios.lateStep hlate e4 e5, ?_, hb2⟩
  refine hpiped.frame e1 e2 e3 e6 e7 e8 e9 fun y hy => ?_
  rw [hs.entered, hent] at hy
  simp at hy

/-- The end of `mount`. -/
theorem inv_mountDone {m : Mount} (h : Inv m) :
    Inv { m with store := { m.store with phase := .up } } where
  seq := {
    nodup := h.seq.nodup
    fresh := h.seq.fresh
    unused := h.seq.unused
    late := h.seq.late
    done := h.seq.done
    ordered := fun o => by
      obtain ⟨l, w, ho⟩ := h.seq.ordered o
      exact ⟨l, w, ho.queue, ho.passed, ho.waits, ho.early, ho.head⟩
    front := h.seq.front
    mounting := fun hp => absurd rfl hp }
  aios := ⟨h.aios.le, h.aios.running, h.aios.idle, h.aios.submitted⟩
  piped := h.piped.frame rfl rfl rfl rfl rfl rfl rfl fun _ _ => rfl
  batched := h.batched.move rfl (fun _ he => he) (fun _ => rfl) (List.Perm.refl _)

/-- Every step keeps the invariant. -/
theorem inv_step {m m' : Mount} {a : MountAction} (h : Inv m) (hs : m.step a = some m') :
    Inv m' := by
  -- One case for each action, by the lemma about it.
  cases a with
  | replayNext =>
    simp only [step] at hs
    split at hs
    · rename_i r rest hp
      exact Option.some.inj hs ▸ inv_replayNext h hp
    · simp at hs
  | mountDone =>
    simp only [step] at hs
    split at hs
    · exact Option.some.inj hs ▸ inv_mountDone h
    · simp at hs
  | txcCreate o =>
    simp only [step] at hs
    split at hs
    · rename_i hup
      exact Option.some.inj hs ▸ inv_txcCreate h hup o
    · simp at hs
  | queueTransactions x aios ops =>
    simp only [step, Option.ite_none_right_eq_some, Option.some.injEq] at hs
    obtain ⟨⟨hx, hst⟩, rfl⟩ := hs
    exact inv_queueTransactions h aios ops hx hst
  | aioDone x =>
    simp only [step, Option.ite_none_right_eq_some, Option.some.injEq] at hs
    obtain ⟨hlt, rfl⟩ := hs
    exact inv_aioDone h hlt rfl
  | pass a =>
    simp only [step, Option.ite_none_right_eq_some, Option.map_eq_some_iff] at hs
    obtain ⟨ha, s', hs', rfl⟩ := hs
    exact inv_passed h (passed_of_step ha hs')
  | kvSubmit =>
    simp only [step] at hs
    split at hs
    · rename_i c x rest hk
      obtain ⟨hst, hinv⟩ := inv_kvSubmit h hk
      rw [Mount.state] at hst
      rw [if_pos hst] at hs
      exact Option.some.inj hs ▸ hinv
    · simp at hs
  | finCommit =>
    simp only [step] at hs
    split at hs
    · rename_i x xs hf
      exact Option.some.inj hs ▸ inv_finCommit h hf
    · simp at hs
  | finCleanup =>
    simp only [step] at hs
    split at hs
    · rename_i x s hf ht
      exact Option.some.inj hs ▸ inv_finCleanup h ht
    · simp at hs
  | finDelete =>
    simp only [step] at hs
    split at hs
    · rename_i w bs hc hf
      exact Option.some.inj hs ▸ inv_finDelete h hf
    · simp at hs

/-- Every state that a mount reaches has the invariant. -/
theorem inv_of_run {kv : List (ℕ × DeferredRecord)} {as : List MountAction} {m : Mount}
    (hs : Runs.exec step (start kv) as = some m) : Inv m :=
  have hall : Runs.Meets step (fun _ _ => True) (start kv) as :=
    Runs.meets_of_forall (fun _ _ => trivial) _ _
  Runs.exec_invariant (fun _ _ _ h _ hs => inv_step h hs) as (start kv) m (inv_start kv) hall hs

/-! ## The order of transactions -/

/-- The context has been given to the state machine, and its own AIOs have completed. -/
def IoComplete (m : Mount) (x : ℕ) : Prop := m.state x ≠ .prepare ∧ m.finished x = m.started x

/-- The order that the sequencers promise for commits. -/
structure TransactionsOrdered (m : Mount) : Prop where
  /-- Contexts are pushed on `kv_queue_` in submission order. -/
  entered_order : ∀ o, m.on o m.entered <+: m.on o m.submitted
  /-- Each is pushed once. -/
  entered_once : m.entered.Nodup
  /-- None is pushed before its AIOs have completed. -/
  entered_aios : ∀ x ∈ m.entered, m.IoComplete x
  /-- None is left behind when its own IO and that of its predecessors is complete. -/
  entered_all : ∀ o pre x post, m.on o m.submitted = pre ++ x :: post →
    (∀ y ∈ pre ++ [x], m.IoComplete y) → x ∈ m.entered ∧ m.state x ≠ .ioDone
  /-- Callbacks are handed to the finisher in submission order. -/
  acked_order : ∀ o, m.on o m.acked <+: m.on o m.submitted
  /-- Each is handed over once. -/
  acked_once : m.acked.Nodup
  /-- A context past `KV_SUBMITTED` has handed over its callbacks, and no other has. -/
  acked_iff : ∀ x ∈ m.submitted, x ∈ m.acked ↔ TxcState.kvDone.rank ≤ (m.state x).rank

/-- A context whose IO is complete is in `IO_DONE` or past it. -/
theorem Inv.rank_of_ioComplete {m : Mount} (h : Inv m) {x : ℕ} (hx : m.IoComplete x) :
    m.state x = .ioDone ∨ m.Late x := by
  have hw : m.state x ≠ .aioWait := fun hs => by
    have := (h.aios.running x).mpr hs
    exact absurd hx.2 this.ne
  have hp := hx.1
  cases hst : m.state x <;> simp [hst, Late, TxcState.rank] at hp hw ⊢

/-- The contexts whose callbacks were handed over come first among those that were pushed. -/
theorem Piped.acked_prefix {m : Mount} (h : Piped m) : m.acked <+: m.entered := by
  obtain ⟨d, -, hcom, -⟩ := h.committed
  rw [h.entered, hcom, List.append_assoc, List.append_assoc]
  exact List.prefix_append _ _

/-- In every state that a mount reaches, whatever the order in which AIOs complete and threads
run, contexts are pushed on `kv_queue_` and acknowledged in submission order, each once, with
their AIOs complete, and none is left behind. -/
theorem transactions_ordered (kv : List (ℕ × DeferredRecord)) (as : List MountAction) (m : Mount)
    (hs : Runs.exec step (start kv) as = some m) : TransactionsOrdered m := by
  have h := inv_of_run hs
  have hstarts : ∀ o, m.on o m.entered <+: m.on o m.submitted := fun o => by
    obtain ⟨l, w, ho⟩ := h.seq.ordered o
    rw [ho.waits]
    exact List.prefix_append _ _
  have hlate : ∀ x ∈ m.entered, m.Late x :=
    fun x hx => h.seq.late x (List.mem_append_right _ hx)
  constructor
  case entered_order => exact hstarts
  case entered_once => exact h.seq.entered_nodup
  case entered_aios =>
    intro x hx
    have hl := hlate x hx
    refine ⟨fun hp => ?_, ?_⟩
    · rw [Late, hp] at hl
      exact absurd hl (by decide)
    · have hr : ¬ m.finished x < m.started x := by
        rw [h.aios.running]
        intro hp
        rw [Late, hp] at hl
        exact absurd hl (by decide)
      have := h.aios.le x
      omega
  case entered_all =>
    intro o pre x post hsub hio
    obtain ⟨l, w, ho⟩ := h.seq.ordered o
    have hmem : x ∈ m.entered := by
      rw [ho.waits] at hsub
      rcases List.append_eq_append_iff.mp hsub with ⟨a, ha, hw⟩ | ⟨c, hc, hw⟩
      · -- The first context that has not been pushed is `x` or a predecessor of it.
        have hhead : ∃ y ∈ pre ++ [x], y ∈ w.head? := by
          cases a with
          | nil => exact ⟨x, by simp, by simp [hw]⟩
          | cons y a => exact ⟨y, by simp [ha], by simp [hw]⟩
        obtain ⟨y, hy, hyw⟩ := hhead
        rcases h.rank_of_ioComplete (hio y hy) with hd | hl
        · exact absurd hd (ho.head y hyw)
        · exact absurd hl (ho.early y (List.mem_of_mem_head? hyw))
      · cases c with
        | nil =>
          have hyw : x ∈ w.head? := by
            rw [List.nil_append] at hw
            simp [← hw]
          rcases h.rank_of_ioComplete (hio x (by simp)) with hd | hl
          · exact absurd hd (ho.head x hyw)
          · exact absurd hl (ho.early x (List.mem_of_mem_head? hyw))
        | cons y c =>
          obtain ⟨rfl, -⟩ := List.cons.inj hw
          have : x ∈ m.on o m.entered := by simp [hc]
          exact (mem_on.mp this).1
    refine ⟨hmem, fun hd => ?_⟩
    have hl := hlate x hmem
    rw [Late, hd] at hl
    exact absurd hl (lt_irrefl _)
  case acked_order =>
    intro o
    exact (h.piped.acked_prefix.filter _).trans (hstarts o)
  case acked_once => exact h.seq.entered_nodup.sublist h.piped.acked_prefix.sublist
  case acked_iff =>
    intro x hx
    refine ⟨h.piped.acked x, fun hr => ?_⟩
    -- A context that has not been acknowledged is before the KV queue, in it, or submitted.
    have hxe : x ∈ m.entered := by
      obtain ⟨l, w, ho⟩ := h.seq.ordered (m.store.txc x).osr
      have hm : x ∈ m.on (m.store.txc x).osr m.submitted := by simp [hx]
      rw [ho.waits] at hm
      rcases List.mem_append.mp hm with hm | hm
      · exact (mem_on.mp hm).1
      · have hn := ho.early x hm
        rw [Late] at hn
        simp only [TxcState.rank] at hn hr
        omega
    obtain ⟨d, -, hcom, hsub⟩ := h.piped.committed
    rw [h.piped.entered, hcom, List.append_assoc, List.append_assoc, List.mem_append,
      List.mem_append] at hxe
    rcases hxe with hxa | hxs | hxq
    · exact hxa
    · rw [hsub x hxs] at hr
      exact absurd hr (by decide)
    · rw [h.piped.queued x hxq] at hr
      exact absurd hr (by decide)

/-- A record to replay, two transactions on one sequencer whose IO completes in the other order,
and the passes that take all three to their end. -/
def lateIo : List MountAction :=
  [.replayNext, .mountDone, .txcCreate 0, .txcCreate 0, .queueTransactions 2 0 none,
    .queueTransactions 1 2 (some blockOverwrite), .aioDone 1, .aioDone 1, .pass .kvStart, .kvSubmit,
    .kvSubmit, .pass .kvFlush, .pass .kvTrySubmit, .pass .kvStable, .pass .kvRemove,
    .pass .finStart, .finCommit, .finCommit, .pass (.trySubmitOne 0), .pass (.batchAioFinish 0),
    .pass .kvStart, .pass .kvFlush, .pass .kvTrySubmit, .pass .kvStable, .pass .kvRemove,
    .pass .finStart, .finCleanup, .finCleanup, .finDelete]

/-- The record that the mount of `lateIo` finds. -/
def lateIoKv : List (ℕ × DeferredRecord) := [(7, ⟨0, ⟨7, blockOverwrite⟩⟩)]

/-- The second transaction waits for the first one's AIOs, and is acknowledged after it. -/
theorem transactions_ordered_lateIo : ∃ m, Runs.exec step (start lateIoKv) lateIo = some m ∧
    m.entered = [1, 2] ∧ m.acked = [1, 2] ∧ TransactionsOrdered m := by
  have hrun : (Runs.exec step (start lateIoKv) lateIo).map (fun m => (m.entered, m.acked)) =
      some ([1, 2], [1, 2]) := by decide +kernel
  obtain ⟨m, hs, hm⟩ := Option.map_eq_some_iff.mp hrun
  simp only [Prod.mk.injEq] at hm
  exact ⟨m, hs, hm.1, hm.2, transactions_ordered _ _ m hs⟩

/-! ## The time of release -/

/-- The context has gone all the way: it is done, its KV transaction is committed (by an earlier
mount when the replay restored it), and its deferred data is written. -/
def Complete (m : Mount) (x : ℕ) : Prop :=
  m.state x = .done ∧ (x ∈ m.committed ∨ x ∈ m.restored) ∧
    ((m.store.txc x).deferredTxn.isSome → .written x ∈ m.store.log)

/-- The time at which space is released. -/
structure ReleasedInOrder (m : Mount) : Prop where
  /-- Contexts are released in the order in which they were made. -/
  order : ∀ o, m.on o m.released <+: m.on o (m.restored ++ m.submitted)
  /-- Each is released once. -/
  once : m.released.Nodup
  /-- A released context and all before it on its sequencer have gone all the way. -/
  complete : ∀ o pre x post, m.on o (m.restored ++ m.submitted) = pre ++ x :: post →
    x ∈ m.released → ∀ y ∈ pre ++ [x], m.Complete y
  /-- A context that is done, like all before it on its sequencer, is released. -/
  all : ∀ o pre x post, m.on o (m.restored ++ m.submitted) = pre ++ x :: post →
    (∀ y ∈ pre ++ [x], m.state y = .done) → x ∈ m.released
  /-- A context that some batch still holds is not released. -/
  batches : ∀ o, ∀ x ∈ held m.store o ++ landed m.store, x ∉ m.released

/-- A released context has gone all the way. -/
theorem Inv.complete_of_released {m : Mount} (h : Inv m) {x : ℕ} (hx : x ∈ m.released) :
    m.Complete x := by
  have hd := h.seq.done x hx
  refine ⟨hd, ?_, h.batched.cleaned x hd⟩
  rcases List.mem_append.mp (h.seq.released_subset hx) with hr | he
  · exact .inr hr
  · refine .inl ?_
    rw [h.piped.entered, List.append_assoc, List.mem_append] at he
    rcases he with he | he
    · exact he
    · have := h.piped.queued x he
      rw [hd] at this
      exact absurd this (by simp)

/-- In every state that a mount reaches, the space of a context has been given to the allocator
only when it and every earlier context of its sequencer had gone all the way, once, in order, and
not while a batch held the context. -/
theorem released_in_order (kv : List (ℕ × DeferredRecord)) (as : List MountAction) (m : Mount)
    (hs : Runs.exec step (start kv) as = some m) : ReleasedInOrder m := by
  have h := inv_of_run hs
  constructor
  case order =>
    intro o
    rw [h.seq.on_made o]
    exact List.prefix_append _ _
  case once => exact h.seq.released_nodup
  case complete =>
    intro o pre x post hmade hx y hy
    have hn : (m.on o (m.restored ++ m.submitted)).Nodup := h.seq.nodup.filter _
    have hxo : x ∈ m.on o m.released := by
      have : x ∈ m.on o (m.restored ++ m.submitted) := by simp [hmade]
      exact mem_on.mpr ⟨hx, (mem_on.mp this).2⟩
    rw [h.seq.on_made o] at hmade hn
    have hxq : x ∉ m.queue o := fun hq => (List.nodup_append.mp hn).2.2 x hxo x hq rfl
    rcases List.append_eq_append_iff.mp hmade with ⟨a, -, hq⟩ | ⟨c, hc, hq⟩
    · exact absurd (by simp [hq]) hxq
    · cases c with
      | nil =>
        rw [List.nil_append] at hq
        exact absurd (by simp [← hq]) hxq
      | cons z c =>
        obtain ⟨rfl, -⟩ := List.cons.inj hq
        have hyr : y ∈ m.on o m.released := by
          rw [hc]
          simp only [List.mem_append, List.mem_cons, List.not_mem_nil, or_false] at hy ⊢
          tauto
        exact h.complete_of_released (mem_on.mp hyr).1
  case all =>
    intro o pre x post hmade hdone
    rw [h.seq.on_made o] at hmade
    rcases List.append_eq_append_iff.mp hmade with ⟨a, ha, hq⟩ | ⟨c, hc, hq⟩
    · -- The front of the queue is `x` or before it, and the front is never done.
      cases a with
      | nil => exact absurd (hdone x (by simp)) (h.seq.front o x (by simp [hq]))
      | cons y a => exact absurd (hdone y (by simp [ha])) (h.seq.front o y (by simp [hq]))
    · cases c with
      | nil =>
        have hf : x ∈ (m.queue o).head? := by
          rw [List.nil_append] at hq
          simp [← hq]
        exact absurd (hdone x (by simp)) (h.seq.front o x hf)
      | cons z c =>
        obtain ⟨rfl, -⟩ := List.cons.inj hq
        have : x ∈ m.on o m.released := by simp [hc]
        exact (mem_on.mp this).1
  case batches =>
    intro o x hx hr
    have := h.batched.queued o x hx
    rw [← Mount.state, h.seq.done x hr] at this
    exact absurd this (by simp)

/-- The last transaction is done first and waits for the two deferred ones before it. -/
theorem released_in_order_lateIo : ∃ m, Runs.exec step (start lateIoKv) lateIo = some m ∧
    m.released = [0, 1, 2] ∧ ReleasedInOrder m := by
  have hrun : (Runs.exec step (start lateIoKv) lateIo).map (fun m => m.released) =
      some [0, 1, 2] := by decide +kernel
  obtain ⟨m, hs, hm⟩ := Option.map_eq_some_iff.mp hrun
  exact ⟨m, hs, hm, released_in_order _ _ m hs⟩

end Mount

end CxxLab.Bluestore
