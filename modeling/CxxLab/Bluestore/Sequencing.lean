import CxxLab.Bluestore.Mount

/-!
# The order of transactions on a sequencer

What an `OpSequencer` promises to its clients: the contexts that `queue_new` put on it go to the
KV sync thread in that order, each once and with its AIOs complete, none waits in `IO_DONE` once
its turn has come, the finisher gets their callbacks in that order, and their space goes to the
allocator in that order and not before each of them is done.

The queue of a sequencer is always a list of contexts that have been pushed on `kv_queue_`,
followed by a list of contexts that have not (`Ordered`). The threads after `kv_queue_` only touch
the first list and only take done contexts off its front (`LateStep`); the completion of an AIO
only moves a prefix of the second list to the first (`ready_eq`).
-/

namespace CxxLab.Bluestore

namespace Mount

/-- The state of a context. -/
def state (m : Mount) (x : ℕ) : TxcState := (m.store.txc x).state

/-- The queue of a sequencer. -/
def queue (m : Mount) (o : ℕ) : List ℕ := (m.store.osr o).q

/-- The contexts of a list that are on sequencer `o`. -/
def on (m : Mount) (o : ℕ) (l : List ℕ) : List ℕ := l.filter fun x => (m.store.txc x).osr = o

/-- The context has been pushed on `kv_queue_`. -/
def Late (m : Mount) (x : ℕ) : Prop := TxcState.ioDone.rank < (m.state x).rank

/-- The queue of sequencer `o`: the contexts `l` that have been pushed on `kv_queue_` and not
released, and then the contexts `w` that still wait for IO, their own or an earlier one's. -/
structure Ordered (m : Mount) (o : ℕ) (l w : List ℕ) : Prop where
  /-- The queue is both lists. -/
  queue : m.queue o = l ++ w
  /-- What has been pushed, or restored by the replay, is released or in the first list. -/
  passed : m.on o (m.restored ++ m.entered) = m.on o m.released ++ l
  /-- What has not been pushed is the second list. -/
  waits : m.on o m.submitted = m.on o m.entered ++ w
  /-- The second list has not been pushed. -/
  early : ∀ x ∈ w, ¬ m.Late x
  /-- The first of them waits for its own IO. -/
  head : ∀ x ∈ w.head?, m.state x ≠ .ioDone

/-- The invariant of the sequencers. -/
structure Sequenced (m : Mount) : Prop where
  /-- No context is made twice. -/
  nodup : (m.restored ++ m.submitted).Nodup
  /-- Contexts have been made. -/
  fresh : ∀ x ∈ m.restored ++ m.submitted, x < m.store.nextTxn
  /-- A context that is not made yet is as it will be. -/
  unused : ∀ x, m.store.nextTxn ≤ x → m.state x = .prepare
  /-- What has been pushed or restored is past `IO_DONE`. -/
  late : ∀ x ∈ m.restored ++ m.entered, m.Late x
  /-- What has been released is done. -/
  done : ∀ x ∈ m.released, m.state x = .done
  /-- The order on each sequencer. -/
  ordered : ∀ o, ∃ l w, m.Ordered o l w
  /-- The front of a queue is not done. -/
  front : ∀ o, ∀ x ∈ (m.queue o).head?, m.state x ≠ .done
  /-- The clients come after the replay. -/
  mounting : m.store.phase ≠ .up → m.submitted = []

/-- The invariant of the AIO counts. -/
structure AiosCounted (m : Mount) : Prop where
  /-- No more AIOs complete than were started. -/
  le : ∀ x, m.finished x ≤ m.started x
  /-- A context waits for AIOs exactly when some have not completed. -/
  running : ∀ x, m.finished x < m.started x ↔ m.state x = .aioWait
  /-- A context that is being prepared has started no AIO. -/
  idle : ∀ x, m.state x = .prepare → m.started x = 0
  /-- A context that waits for AIOs has been submitted. -/
  submitted : ∀ x, m.state x = .aioWait → x ∈ m.submitted

/-- A context of the list that is on the sequencer. -/
@[simp] theorem mem_on {m : Mount} {o : ℕ} {l : List ℕ} {x : ℕ} :
    x ∈ m.on o l ↔ x ∈ l ∧ (m.store.txc x).osr = o := by
  simp [on]

/-- The contexts of two lists. -/
@[simp] theorem on_append (m : Mount) (o : ℕ) (l l' : List ℕ) :
    m.on o (l ++ l') = m.on o l ++ m.on o l' := List.filter_append _ _

/-- No contexts are on no sequencer. -/
@[simp] theorem on_nil (m : Mount) (o : ℕ) : m.on o [] = [] := rfl

/-- The contexts of a sequencer, when they all are on it. -/
theorem on_eq_self {m : Mount} {o : ℕ} {l : List ℕ} (h : ∀ x ∈ l, (m.store.txc x).osr = o) :
    m.on o l = l := List.filter_eq_self.mpr fun x hx => by simpa using h x hx

/-- The contexts of another sequencer. -/
theorem on_eq_nil {m : Mount} {o : ℕ} {l : List ℕ} (h : ∀ x ∈ l, (m.store.txc x).osr ≠ o) :
    m.on o l = [] := List.filter_eq_nil_iff.mpr fun x hx => by simpa using h x hx

/-- Which contexts are on a sequencer depends only on their sequencers. -/
theorem on_congr {m m' : Mount} (o : ℕ) {l : List ℕ}
    (h : ∀ x ∈ l, (m'.store.txc x).osr = (m.store.txc x).osr) : m'.on o l = m.on o l :=
  List.filter_congr fun x hx => by rw [h x hx]

/-! ## What the invariant says -/

namespace Sequenced

variable {m : Mount}

/-- A context in a queue has been made, on that sequencer. -/
theorem mem_queue (h : Sequenced m) {o x : ℕ} (hx : x ∈ m.queue o) :
    x ∈ m.restored ++ m.submitted ∧ (m.store.txc x).osr = o := by
  obtain ⟨l, w, ho⟩ := h.ordered o
  rw [ho.queue, List.mem_append] at hx
  rcases hx with hx | hx
  · have hp : x ∈ m.on o (m.restored ++ m.entered) := by rw [ho.passed]; simp [hx]
    obtain ⟨hm, hosr⟩ := mem_on.mp hp
    rcases List.mem_append.mp hm with hm | hm
    · exact ⟨List.mem_append_left _ hm, hosr⟩
    · have hs : x ∈ m.on o m.submitted := by rw [ho.waits]; simp [hm, hosr]
      exact ⟨List.mem_append_right _ (mem_on.mp hs).1, hosr⟩
  · have hs : x ∈ m.on o m.submitted := by rw [ho.waits]; simp [hx]
    exact ⟨List.mem_append_right _ (mem_on.mp hs).1, (mem_on.mp hs).2⟩

/-- What has been pushed has been submitted. -/
theorem entered_subset (h : Sequenced m) {x : ℕ} (hx : x ∈ m.entered) : x ∈ m.submitted := by
  obtain ⟨l, w, ho⟩ := h.ordered (m.store.txc x).osr
  have hs : x ∈ m.on (m.store.txc x).osr m.submitted := by rw [ho.waits]; simp [hx]
  exact (mem_on.mp hs).1

/-- What has been released has been pushed or restored. -/
theorem released_subset (h : Sequenced m) {x : ℕ} (hx : x ∈ m.released) :
    x ∈ m.restored ++ m.entered := by
  obtain ⟨l, w, ho⟩ := h.ordered (m.store.txc x).osr
  have hs : x ∈ m.on (m.store.txc x).osr (m.restored ++ m.entered) := by rw [ho.passed]; simp [hx]
  exact (mem_on.mp hs).1

/-- A submitted context that has not been pushed is in its queue, and waits there. -/
theorem mem_waits (h : Sequenced m) {x : ℕ} {l w : List ℕ}
    (ho : m.Ordered (m.store.txc x).osr l w) (hx : x ∈ m.submitted) (hn : ¬ m.Late x) :
    x ∈ w := by
  have hs : x ∈ m.on (m.store.txc x).osr m.submitted := by simp [hx]
  rw [ho.waits, List.mem_append] at hs
  rcases hs with hs | hs
  · exact absurd (h.late x (List.mem_append_right _ (mem_on.mp hs).1)) hn
  · exact hs

/-- The queue of a sequencer holds what has been made on it and not released. -/
theorem on_made (h : Sequenced m) (o : ℕ) :
    m.on o (m.restored ++ m.submitted) = m.on o m.released ++ m.queue o := by
  obtain ⟨l, w, ho⟩ := h.ordered o
  calc m.on o (m.restored ++ m.submitted)
      = m.on o m.restored ++ (m.on o m.entered ++ w) := by rw [on_append, ho.waits]
    _ = m.on o (m.restored ++ m.entered) ++ w := by rw [on_append, List.append_assoc]
    _ = m.on o m.released ++ m.queue o := by rw [ho.passed, ho.queue, List.append_assoc]

/-- No queue holds a context twice. -/
theorem queue_nodup (h : Sequenced m) (o : ℕ) : (m.queue o).Nodup := by
  have hn : (m.on o (m.restored ++ m.submitted)).Nodup := h.nodup.filter _
  rw [h.on_made o] at hn
  exact hn.of_append_right

/-- The first list of a queue has been pushed. -/
theorem late_of_ordered (h : Sequenced m) {o : ℕ} {l w : List ℕ} (ho : m.Ordered o l w) :
    ∀ x ∈ l, m.Late x := by
  intro x hx
  have hp : x ∈ m.on o (m.restored ++ m.entered) := by rw [ho.passed]; simp [hx]
  exact h.late x (mem_on.mp hp).1

/-- The two lists of a queue have no duplicates. -/
theorem ordered_nodup (h : Sequenced m) {o : ℕ} {l w : List ℕ} (ho : m.Ordered o l w) :
    (l ++ w).Nodup := ho.queue ▸ h.queue_nodup o

/-- A list has no duplicates when its part on each sequencer has none. -/
theorem nodup_of_on {m : Mount} {l : List ℕ} (h : ∀ o, (m.on o l).Nodup) : l.Nodup := by
  rw [List.nodup_iff_count_le_one]
  intro x
  have hc := List.nodup_iff_count_le_one.mp (h (m.store.txc x).osr) x
  rwa [on, List.count_filter (by simp)] at hc

/-- No context is pushed twice. -/
theorem entered_nodup (h : Sequenced m) : m.entered.Nodup := by
  refine nodup_of_on (m := m) fun o => ?_
  obtain ⟨l, w, ho⟩ := h.ordered o
  have hn : (m.on o m.submitted).Nodup := (h.nodup.of_append_right).filter _
  rw [ho.waits] at hn
  exact hn.of_append_left

/-- No context is released twice. -/
theorem released_nodup (h : Sequenced m) : m.released.Nodup := by
  refine nodup_of_on (m := m) fun o => ?_
  have hn : (m.on o (m.restored ++ m.submitted)).Nodup := h.nodup.filter _
  rw [h.on_made o] at hn
  exact hn.of_append_left

end Sequenced

/-! ## The steps behind `kv_queue_` -/

/-- A step of the threads behind `kv_queue_`: it changes the states of contexts that have been
pushed and are not done, and takes done contexts off the fronts of the queues. -/
structure LateStep (m m' : Mount) : Prop where
  /-- No context is restored. -/
  restored : m'.restored = m.restored
  /-- No context is made. -/
  submitted : m'.submitted = m.submitted
  /-- No context is pushed. -/
  entered : m'.entered = m.entered
  /-- No name is used up. -/
  nextTxn : m'.store.nextTxn = m.store.nextTxn
  /-- The mount does not end. -/
  phase : m'.store.phase = m.store.phase
  /-- The contexts stay on their sequencers. -/
  osr : ∀ x, (m'.store.txc x).osr = (m.store.txc x).osr
  /-- Only contexts that have been pushed and are not done change their state. -/
  state : ∀ x, m'.state x = m.state x ∨ m.Late x ∧ m.state x ≠ .done ∧ m'.Late x
  /-- The queues lose done contexts at their fronts, which are released. -/
  popped : ∀ o, ∃ p, m.queue o = p ++ m'.queue o ∧
    m.on o m'.released = m.on o m.released ++ p ∧ ∀ x ∈ p, m'.state x = .done
  /-- The fronts of the queues stay not done. -/
  front : (∀ o, ∀ x ∈ (m.queue o).head?, m.state x ≠ .done) →
    ∀ o, ∀ x ∈ (m'.queue o).head?, m'.state x ≠ .done

namespace LateStep

variable {m m' m'' : Mount}

/-- The part of a list on a sequencer is the same before and after. -/
theorem on_eq (h : LateStep m m') (o : ℕ) (l : List ℕ) : m'.on o l = m.on o l :=
  on_congr o fun x _ => h.osr x

/-- What has been pushed stays so. -/
theorem late_iff (h : LateStep m m') (x : ℕ) : m'.Late x ↔ m.Late x := by
  rcases h.state x with hs | ⟨h1, -, h2⟩
  · rw [Late, Late, hs]
  · exact ⟨fun _ => h1, fun _ => h2⟩

/-- A context that has not been pushed keeps its state. -/
theorem state_of_not_late (h : LateStep m m') {x : ℕ} (hx : ¬ m.Late x) :
    m'.state x = m.state x := by
  rcases h.state x with hs | ⟨h1, -, -⟩
  · exact hs
  · exact absurd h1 hx

/-- A done context stays done. -/
theorem state_of_done (h : LateStep m m') {x : ℕ} (hx : m.state x = .done) :
    m'.state x = .done := by
  rcases h.state x with hs | ⟨-, h1, -⟩
  · rw [hs, hx]
  · exact absurd hx h1

/-- A state that only contexts before `kv_queue_` have is the same before and after. -/
theorem state_iff (h : LateStep m m') (x : ℕ) {st : TxcState}
    (hst : st.rank ≤ TxcState.ioDone.rank) : m'.state x = st ↔ m.state x = st := by
  rcases h.state x with hs | ⟨h1, -, h2⟩
  · rw [hs]
  · constructor
    · rintro rfl
      exact absurd h2 (not_lt.mpr hst)
    · rintro rfl
      exact absurd h1 (not_lt.mpr hst)

/-- Two steps make one. -/
theorem trans (h : LateStep m m') (h' : LateStep m' m'') : LateStep m m'' where
  restored := h'.restored.trans h.restored
  submitted := h'.submitted.trans h.submitted
  entered := h'.entered.trans h.entered
  nextTxn := h'.nextTxn.trans h.nextTxn
  phase := h'.phase.trans h.phase
  osr x := (h'.osr x).trans (h.osr x)
  state x := by
    rcases h.state x with hs | ⟨h1, h2, h3⟩
    · rcases h'.state x with hs' | ⟨h1', h2', h3'⟩
      · exact .inl (hs'.trans hs)
      · exact .inr ⟨(h.late_iff x).mp h1', hs ▸ h2', h3'⟩
    · exact .inr ⟨h1, h2, (h'.late_iff x).mpr h3⟩
  popped o := by
    obtain ⟨p, hq, hr, hd⟩ := h.popped o
    obtain ⟨p', hq', hr', hd'⟩ := h'.popped o
    refine ⟨p ++ p', by rw [hq, hq', List.append_assoc], ?_, ?_⟩
    · rw [h.on_eq, h.on_eq, hr, List.append_assoc] at hr'
      exact hr'
    · intro x hx
      rcases List.mem_append.mp hx with hx | hx
      · exact h'.state_of_done (hd x hx)
      · exact hd' x hx
  front hf := h'.front (h.front hf)

/-- A step that leaves the states of the contexts and the queues as they are. -/
theorem quiet (hr : m'.restored = m.restored) (hs : m'.submitted = m.submitted)
    (he : m'.entered = m.entered) (hrel : m'.released = m.released)
    (hn : m'.store.nextTxn = m.store.nextTxn) (hp : m'.store.phase = m.store.phase)
    (ho : ∀ x, (m'.store.txc x).osr = (m.store.txc x).osr) (ht : ∀ x, m'.state x = m.state x)
    (hq : ∀ o, m'.queue o = m.queue o) : LateStep m m' where
  restored := hr
  submitted := hs
  entered := he
  nextTxn := hn
  phase := hp
  osr := ho
  state x := .inl (ht x)
  popped o := ⟨[], by simp [hq], by simp [hrel], by simp⟩
  front hf o x hx := by
    rw [hq] at hx
    rw [ht]
    exact hf o x hx

/-- `set_state` of a context that has been pushed, to a state that is not the last. -/
theorem setState {x : ℕ} (st : TxcState) (hx : m.Late x) (hd : m.state x ≠ .done)
    (hst : TxcState.ioDone.rank < st.rank) (hst' : st ≠ .done) : LateStep m (m.setState x st) where
  restored := rfl
  submitted := rfl
  entered := rfl
  nextTxn := rfl
  phase := rfl
  osr y := by
    by_cases hy : y = x
    · subst hy; simp [Mount.setState]
    · simp [Mount.setState, hy]
  state y := by
    by_cases hy : y = x
    · subst hy
      exact .inr ⟨hx, hd, by simpa [Late, Mount.state, Mount.setState] using hst⟩
    · exact .inl (by simp [Mount.state, Mount.setState, hy])
  popped o := ⟨[], by simp [Mount.queue, Mount.setState], by simp [Mount.setState], by simp⟩
  front hf o y hy := by
    by_cases hyx : y = x
    · subst hyx; simpa [Mount.state, Mount.setState] using hst'
    · simpa [Mount.state, Mount.setState, hyx] using hf o y hy

/-- `_txc_finish` of a context that has been pushed and is not done. -/
theorem txcFinish {x : ℕ} (hq : ∀ o, ∀ y ∈ m.queue o, (m.store.txc y).osr = o) (hx : m.Late x)
    (hd : m.state x ≠ .done) : LateStep m (m.txcFinish x) where
  restored := rfl
  submitted := rfl
  entered := rfl
  nextTxn := rfl
  phase := rfl
  osr y := by
    by_cases hy : y = x
    · subst hy; simp [Mount.txcFinish, Store.txcFinish]
    · simp [Mount.txcFinish, Store.txcFinish, hy]
  state y := by
    by_cases hy : y = x
    -- The context itself is done with.
    · subst hy
      exact .inr ⟨hx, hd, by simp [Late, Mount.state, Mount.txcFinish, Store.txcFinish,
        TxcState.rank]⟩
    · exact .inl (by simp [Mount.state, Mount.txcFinish, Store.txcFinish, hy])
  popped o := by
    by_cases ho : o = (m.store.txc x).osr
    · subst ho
      have hrel : ∀ y ∈ releasing m.store x, (m.store.txc y).osr = (m.store.txc x).osr :=
        fun y hy => hq _ y ((List.takeWhile_sublist _).subset hy)
      refine ⟨releasing m.store x, ?_, ?_, ?_⟩
      · simp [Mount.queue, Mount.txcFinish, Store.txcFinish, releasing]
      · rw [Mount.txcFinish, on_append, on_eq_self hrel]
      · intro y hy
        have := List.mem_takeWhile_imp hy
        simpa [Store.inState, Mount.state, Mount.txcFinish, Store.txcFinish] using this
    · have hrel : ∀ y ∈ releasing m.store x, (m.store.txc y).osr ≠ o := by
        intro y hy
        rw [hq _ y ((List.takeWhile_sublist _).subset hy)]
        exact Ne.symm ho
      refine ⟨[], ?_, ?_, by simp⟩
      · simp [Mount.queue, Mount.txcFinish, Store.txcFinish, ho]
      · rw [Mount.txcFinish, on_append, on_eq_nil hrel]
  front hf o y hy := by
    by_cases ho : o = (m.store.txc x).osr
    · subst ho
      have hdrop : (m.txcFinish x).queue (m.store.txc x).osr =
          (m.queue (m.store.txc x).osr).dropWhile ((m.store.setState x .done).inState .done) := by
        simp [Mount.queue, Mount.txcFinish, Store.txcFinish]
      rw [hdrop] at hy
      have := List.head?_dropWhile_not ((m.store.setState x .done).inState .done)
        (m.queue (m.store.txc x).osr)
      rw [hy] at this
      simpa [Store.inState, Mount.state, Mount.txcFinish, Store.txcFinish] using this
    · have hsame : (m.txcFinish x).queue o = m.queue o := by
        simp [Mount.queue, Mount.txcFinish, Store.txcFinish, ho]
      rw [hsame] at hy
      have hyx : y ≠ x := by
        rintro rfl
        exact ho (hq o y (List.mem_of_mem_head? hy)).symm
      simpa [Mount.state, Mount.txcFinish, Store.txcFinish, hyx] using hf o y hy

end LateStep

/-- Done contexts at the front of a queue are among those that have been pushed. -/
theorem Ordered.done_prefix {m : Mount} {o : ℕ} {l w p q : List ℕ} (h : m.Ordered o l w)
    (hq : m.queue o = p ++ q) (hp : ∀ x ∈ p, m.Late x) : ∃ l', l = p ++ l' ∧ q = l' ++ w := by
  rw [h.queue] at hq
  rcases List.append_eq_append_iff.mp hq with ⟨a, rfl, rfl⟩ | ⟨a, rfl, rfl⟩
  · -- A done context in the second list would have been pushed.
    cases a with
    | nil => exact ⟨[], by simp, by simp⟩
    | cons x a => exact absurd (hp x (by simp)) (h.early x (by simp))
  · exact ⟨a, rfl, rfl⟩

/-- The steps behind `kv_queue_` keep the invariant. -/
theorem Sequenced.lateStep {m m' : Mount} (h : Sequenced m) (hs : LateStep m m') :
    Sequenced m' where
  nodup := by rw [hs.restored, hs.submitted]; exact h.nodup
  fresh := by rw [hs.restored, hs.submitted, hs.nextTxn]; exact h.fresh
  unused x hx := by
    rw [hs.nextTxn] at hx
    exact (hs.state_iff x (by decide)).mpr (h.unused x hx)
  late x hx := by
    rw [hs.restored, hs.entered] at hx
    exact (hs.late_iff x).mpr (h.late x hx)
  done x hx := by
    obtain ⟨p, -, hr, hd⟩ := hs.popped (m.store.txc x).osr
    have hm : x ∈ m.on (m.store.txc x).osr m'.released := by simp [hx]
    rw [hr, List.mem_append] at hm
    rcases hm with hm | hm
    · exact hs.state_of_done (h.done x (mem_on.mp hm).1)
    · exact hd x hm
  ordered o := by
    obtain ⟨l, w, ho⟩ := h.ordered o
    obtain ⟨p, hq, hr, hd⟩ := hs.popped o
    have hp : ∀ x ∈ p, m.Late x := fun x hx => (hs.late_iff x).mp (by
      rw [Late, hd x hx]; decide)
    obtain ⟨l', rfl, hq'⟩ := ho.done_prefix hq hp
    refine ⟨l', w, hq', ?_, ?_, ?_, ?_⟩
    · rw [hs.on_eq, hs.on_eq, hs.restored, hs.entered, ho.passed, hr, List.append_assoc]
    · rw [hs.on_eq, hs.on_eq, hs.submitted, hs.entered]
      exact ho.waits
    · exact fun x hx hl => ho.early x hx ((hs.late_iff x).mp hl)
    · intro x hx
      have hxw : x ∈ w := List.mem_of_mem_head? hx
      rw [hs.state_of_not_late (ho.early x hxw)]
      exact ho.head x hx
  front := hs.front h.front
  mounting := by rw [hs.phase, hs.submitted]; exact h.mounting

/-- The steps behind `kv_queue_` keep the AIO counts. -/
theorem AiosCounted.lateStep {m m' : Mount} (h : AiosCounted m) (hs : LateStep m m')
    (hst : m'.started = m.started) (hfi : m'.finished = m.finished) : AiosCounted m' where
  le := by rw [hfi, hst]; exact h.le
  running x := by
    rw [hfi, hst, hs.state_iff x (by decide)]
    exact h.running x
  idle x hx := by
    rw [hst]
    exact h.idle x ((hs.state_iff x (by decide)).mp hx)
  submitted x hx := by
    rw [hs.submitted]
    exact h.submitted x ((hs.state_iff x (by decide)).mp hx)

/-! ## The completion of IO -/

/-- The walk towards the front of the queue ends without result when an earlier context waits for
its own IO and those after it have not been pushed. -/
theorem walkBack_eq_none (s : Store) {ps : List ℕ} (r : List ℕ)
    (hall : ∀ y ∈ ps, (s.txc y).state.rank ≤ TxcState.ioDone.rank)
    (hex : ∃ y ∈ ps, (s.txc y).state ≠ .ioDone) : s.walkBack (ps ++ r) = none := by
  induction ps with
  | nil => simp at hex
  | cons p ps ih =>
    rw [List.cons_append, Store.walkBack]
    by_cases hp : (s.txc p).state.rank < TxcState.ioDone.rank
    · rw [if_pos hp]
    · have hpe : (s.txc p).state = .ioDone := by
        have hle := hall p (by simp)
        cases hst : (s.txc p).state <;> simp [hst, TxcState.rank] at hp hle ⊢
      obtain ⟨y, hy, hyn⟩ := hex
      have hyp : y ∈ ps := by
        rcases List.mem_cons.mp hy with rfl | hy
        · exact absurd hpe hyn
        · exact hy
      rw [if_neg hp, if_neg (by simp [hpe]),
        ih (fun z hz => hall z (List.mem_cons_of_mem _ hz)) ⟨y, hyp, hyn⟩]
      rfl

/-- The walk stops at once at a context that has been pushed. -/
theorem walkBack_eq_nil (s : Store) {ps : List ℕ}
    (hall : ∀ y ∈ ps, TxcState.ioDone.rank < (s.txc y).state.rank) : s.walkBack ps = some [] := by
  cases ps with
  | nil => rfl
  | cons p ps =>
    have hp := hall p (by simp)
    rw [Store.walkBack, if_neg (by omega), if_pos hp]

/-- The state of a context after `_txc_finish_io` has marked `x`. -/
theorem ioDone_state (s : Store) (x y : ℕ) :
    ((s.ioDone x).txc y).state = if y = x then .ioDone else (s.txc y).state := by
  by_cases hy : y = x
  · subst hy; simp [Store.ioDone]
  · simp [Store.ioDone, hy]

/-- What `_txc_finish_io` passes on: the contexts in `IO_DONE` at the front of the second list of
the queue, whichever context of that list completes. -/
theorem ready_eq {m : Mount} {x : ℕ} {l w : List ℕ} (ho : m.Ordered (m.store.txc x).osr l w)
    (hl : ∀ y ∈ l, m.Late y) (hx : x ∈ w) (hn : (l ++ w).Nodup) :
    (m.store.ioDone x).ready x = w.takeWhile ((m.store.ioDone x).inState .ioDone) := by
  have hosr : ((m.store.ioDone x).txc x).osr = (m.store.txc x).osr := by simp [Store.ioDone]
  have hq : ((m.store.ioDone x).osr (m.store.txc x).osr).q = l ++ w := ho.queue
  obtain ⟨pre, post, rfl⟩ := List.append_of_mem hx
  have hxl : ∀ y ∈ l ++ pre, y ≠ x := by
    rintro y hy rfl
    rw [← List.append_assoc] at hn
    exact (List.nodup_append.mp hn).2.2 y hy y (by simp) rfl
  have htake : (l ++ (pre ++ x :: post)).takeWhile (· ≠ x) = l ++ pre := by
    rw [← List.append_assoc, List.takeWhile_append_of_pos (by simpa using hxl)]
    simp
  have hdrop : (l ++ (pre ++ x :: post)).dropWhile (· ≠ x) = x :: post := by
    rw [← List.append_assoc, List.dropWhile_append_of_pos (by simpa using hxl)]
    simp
  have hsame : ∀ y ∈ l ++ pre, ((m.store.ioDone x).txc y).state = m.state y := fun y hy => by
    rw [ioDone_state, if_neg (hxl y hy)]
    rfl
  simp only [Store.ready, hosr, hq, htake, hdrop, List.reverse_append]
  cases pre with
  | nil =>
    rw [List.reverse_nil, List.nil_append, walkBack_eq_nil]
    · simp
    · intro y hy
      have hy' : y ∈ l := by simpa using hy
      rw [hsame y (by simp [hy'])]
      exact hl y hy'
  | cons p pre =>
    -- The head of the second list is before `x`, and waits for its own IO.
    have hp : ((m.store.ioDone x).txc p).state ≠ .ioDone := by
      rw [hsame p (by simp)]
      exact ho.head p (by simp)
    rw [walkBack_eq_none]
    · simp [Store.inState, hp]
    · intro y hy
      have hy' : y ∈ p :: pre := List.mem_reverse.mp hy
      rw [hsame y (List.mem_append_right _ hy')]
      exact not_lt.mp (ho.early y (List.mem_append_left _ hy'))
    · exact ⟨p, by simp, hp⟩

/-- The states after `_txc_finish_io`. -/
theorem finishIo_state (m : Mount) (x y : ℕ) : (m.finishIo x).state y =
    if y ∈ (m.store.ioDone x).ready x then .kvQueued
    else if y = x then .ioDone else m.state y := by
  rw [Mount.state, Mount.finishIo, Store.finishIo, kvEnqueue_txc]
  split_ifs with h1 h2
  · rfl
  · rw [ioDone_state, if_pos h2]
  · rw [ioDone_state, if_neg h2]
    rfl

/-- `_txc_finish_io` leaves the contexts on their sequencers, and their deferred operations. -/
theorem finishIo_txc (m : Mount) (x y : ℕ) :
    ((m.finishIo x).store.txc y).osr = (m.store.txc y).osr ∧
      ((m.finishIo x).store.txc y).deferredTxn = (m.store.txc y).deferredTxn := by
  have hio : ((m.store.ioDone x).txc y).osr = (m.store.txc y).osr ∧
      ((m.store.ioDone x).txc y).deferredTxn = (m.store.txc y).deferredTxn := by
    by_cases hy : y = x
    · subst hy; simp [Store.ioDone]
    · simp [Store.ioDone, hy]
  rw [Mount.finishIo, Store.finishIo, kvEnqueue_txc]
  split_ifs <;> exact hio

/-- `_txc_finish_io` changes contexts and `kv_queue_` only. -/
theorem finishIo_frame (m : Mount) (x : ℕ) : (m.finishIo x).store = { m.store with
    txc := (m.finishIo x).store.txc
    kvQueue := m.store.kvQueue ++ (m.store.ioDone x).ready x } :=
  kvEnqueue_frame (m.store.ioDone x) ((m.store.ioDone x).ready x)

/-- What `_txc_finish_io` passes on has not been pushed, is on the sequencer of `x`, and has been
submitted. -/
theorem Sequenced.mem_ready {m : Mount} (h : Sequenced m) {x : ℕ} (hx : x ∈ m.submitted)
    (hn : ¬ m.Late x) {y : ℕ} (hy : y ∈ (m.store.ioDone x).ready x) :
    ¬ m.Late y ∧ (m.store.txc y).osr = (m.store.txc x).osr ∧ y ∈ m.submitted := by
  obtain ⟨l, w, ho⟩ := h.ordered (m.store.txc x).osr
  rw [ready_eq ho (h.late_of_ordered ho) (h.mem_waits ho hx hn) (h.ordered_nodup ho)] at hy
  have hyw : y ∈ w := (List.takeWhile_sublist _).subset hy
  have hs : y ∈ m.on (m.store.txc x).osr m.submitted := by
    rw [ho.waits]
    exact List.mem_append_right _ hyw
  exact ⟨ho.early y hyw, (mem_on.mp hs).2, (mem_on.mp hs).1⟩

/-- A context that has been pushed keeps its state when IO completes. -/
theorem Sequenced.finishIo_state_of_late {m : Mount} (h : Sequenced m) {x : ℕ}
    (hx : x ∈ m.submitted) (hn : ¬ m.Late x) {y : ℕ} (hy : m.Late y) :
    (m.finishIo x).state y = m.state y := by
  rw [finishIo_state, if_neg fun hr => (h.mem_ready hx hn hr).1 hy, if_neg]
  rintro rfl
  exact hn hy

/-- `_txc_finish_io` keeps the order on the sequencer of the context. -/
theorem Sequenced.finishIo_ordered {m : Mount} (h : Sequenced m) {x : ℕ} (hx : x ∈ m.submitted)
    (hn : ¬ m.Late x) : ∃ l w, (m.finishIo x).Ordered (m.store.txc x).osr l w := by
  obtain ⟨l, w, ho⟩ := h.ordered (m.store.txc x).osr
  have hxw := h.mem_waits ho hx hn
  have hnd := h.ordered_nodup ho
  have hready := ready_eq ho (h.late_of_ordered ho) hxw hnd
  have hon : ∀ l, (m.finishIo x).on (m.store.txc x).osr l = m.on (m.store.txc x).osr l :=
    fun l => on_congr _ fun y _ => (finishIo_txc m x y).1
  obtain ⟨t, ht⟩ : ∃ t, t = w.takeWhile ((m.store.ioDone x).inState .ioDone) := ⟨_, rfl⟩
  obtain ⟨u, hu⟩ : ∃ u, u = w.dropWhile ((m.store.ioDone x).inState .ioDone) := ⟨_, rfl⟩
  have hw : w = t ++ u := by rw [ht, hu, List.takeWhile_append_dropWhile]
  have hont : m.on (m.store.txc x).osr t = t := by
    refine on_eq_self fun y hy => (h.mem_ready hx hn ?_).2.1
    rw [hready, ← ht]
    exact hy
  have hut : ∀ y ∈ u, y ∉ (m.store.ioDone x).ready x := by
    intro y hy hr
    rw [hready, ← ht] at hr
    rw [hw] at hnd
    exact (List.nodup_append.mp hnd.of_append_right).2.2 y hr y hy rfl
  refine ⟨l ++ t, u, ?_, ?_, ?_, ?_, ?_⟩
  · calc (m.finishIo x).queue (m.store.txc x).osr
        = m.queue (m.store.txc x).osr := by rw [Mount.queue, finishIo_frame]; rfl
      _ = l ++ t ++ u := by rw [ho.queue, hw, List.append_assoc]
  · rw [hon, hon]
    change m.on _ (m.restored ++ (m.entered ++ (m.store.ioDone x).ready x)) = m.on _ m.released ++ _
    rw [← List.append_assoc, on_append, ho.passed, hready, ← ht, hont, List.append_assoc]
  · rw [hon, hon]
    change m.on _ m.submitted = m.on _ (m.entered ++ (m.store.ioDone x).ready x) ++ u
    rw [on_append, ho.waits, hready, ← ht, hont, hw, List.append_assoc]
  · intro y hy
    rw [Late, finishIo_state, if_neg (hut y hy)]
    split_ifs
    · simp
    · exact ho.early y (hw ▸ List.mem_append_right _ hy)
  · intro y hy
    have hyu : y ∈ u := List.mem_of_mem_head? hy
    have hd := List.head?_dropWhile_not ((m.store.ioDone x).inState .ioDone) w
    rw [← hu, hy] at hd
    have hd' : ((m.store.ioDone x).txc y).state ≠ .ioDone := by simpa [Store.inState] using hd
    rw [ioDone_state] at hd'
    rw [finishIo_state, if_neg (hut y hyu)]
    exact hd'

/-- `_txc_finish_io` keeps the invariant of the sequencers. -/
theorem Sequenced.finishIo {m : Mount} (h : Sequenced m) {x : ℕ} (hx : x ∈ m.submitted)
    (hn : ¬ m.Late x) : Sequenced (m.finishIo x) := by
  -- Neither the order nor the sequencers change, and what was late stays so.
  have hosr : ∀ y, ((m.finishIo x).store.txc y).osr = (m.store.txc y).osr :=
    fun y => (finishIo_txc m x y).1
  have hqueue : ∀ o, (m.finishIo x).queue o = m.queue o := fun o => by
    rw [Mount.queue, finishIo_frame]
    rfl
  have hlate : ∀ y, m.Late y → (m.finishIo x).Late y := fun y hy => by
    rw [Late, h.finishIo_state_of_late hx hn hy]
    exact hy
  constructor
  case nodup => exact h.nodup
  case fresh =>
    rw [finishIo_frame]
    exact h.fresh
  case unused =>
    intro y hy
    rw [finishIo_frame] at hy
    have hxy : ∀ z ∈ m.submitted, y ≠ z := by
      rintro z hz rfl
      exact absurd (h.fresh y (List.mem_append_right _ hz)) (not_lt.mpr hy)
    rw [finishIo_state, if_neg fun hr => hxy y (h.mem_ready hx hn hr).2.2 rfl,
      if_neg (hxy x hx)]
    exact h.unused y hy
  case late =>
    intro y hy
    have hy' : y ∈ (m.restored ++ m.entered) ++ (m.store.ioDone x).ready x := by
      rw [List.append_assoc]
      exact hy
    rcases List.mem_append.mp hy' with hy' | hy'
    · exact hlate y (h.late y hy')
    · rw [Late, finishIo_state, if_pos hy']
      decide
  case done =>
    intro y hy
    have hd := h.done y hy
    rw [h.finishIo_state_of_late hx hn (by rw [Late, hd]; decide), hd]
  -- Only the sequencer of the context has contexts that become ready.
  case ordered =>
    intro o
    by_cases ho : o = (m.store.txc x).osr
    · exact ho ▸ h.finishIo_ordered hx hn
    · obtain ⟨l, w, hord⟩ := h.ordered o
      have hon : ∀ l, (m.finishIo x).on o l = m.on o l := fun l => on_congr _ fun y _ => hosr y
      have hont : m.on o ((m.store.ioDone x).ready x) = [] :=
        on_eq_nil fun y hy => by rw [(h.mem_ready hx hn hy).2.1]; exact Ne.symm ho
      have hst : ∀ y ∈ w, (m.finishIo x).state y = m.state y := by
        intro y hy
        have hyo : (m.store.txc y).osr = o :=
          (h.mem_queue (by rw [hord.queue]; exact List.mem_append_right _ hy)).2
        rw [finishIo_state, if_neg, if_neg]
        · rintro rfl
          exact ho hyo.symm
        · exact fun hr => ho (hyo.symm.trans (h.mem_ready hx hn hr).2.1)
      refine ⟨l, w, (hqueue o).trans hord.queue, ?_, ?_, ?_, ?_⟩
      · rw [hon, hon]
        change m.on o (m.restored ++ (m.entered ++ (m.store.ioDone x).ready x)) = _
        rw [← List.append_assoc, on_append, hont, List.append_nil]
        exact hord.passed
      · rw [hon, hon]
        change m.on o m.submitted = m.on o (m.entered ++ (m.store.ioDone x).ready x) ++ w
        rw [on_append, hont, List.append_nil]
        exact hord.waits
      · intro y hy
        rw [Late, hst y hy]
        exact hord.early y hy
      · intro y hy
        rw [hst y (List.mem_of_mem_head? hy)]
        exact hord.head y hy
  -- What the step sets are states before `done`.
  case front =>
    intro o y hy
    rw [hqueue] at hy
    rw [finishIo_state]
    split_ifs
    · simp
    · simp
    · exact h.front o y hy
  case mounting =>
    rw [finishIo_frame]
    exact h.mounting

/-- A context that is being prepared starts its AIOs. -/
theorem Sequenced.aioWait {m : Mount} (h : Sequenced m) {x : ℕ} (hx : x ∈ m.submitted)
    (hn : ¬ m.Late x) : Sequenced (m.setState x .aioWait) := by
  have hst : ∀ y, (m.setState x .aioWait).state y = if y = x then .aioWait else m.state y := by
    intro y
    by_cases hy : y = x
    · simp [Mount.state, Mount.setState, hy]
    · simp [Mount.state, Mount.setState, hy]
  -- Only the state of this context changes.
  have hosr : ∀ y, ((m.setState x .aioWait).store.txc y).osr = (m.store.txc y).osr := by
    intro y
    by_cases hy : y = x
    · subst hy; simp [Mount.setState]
    · simp [Mount.setState, hy]
  have hlate : ∀ y, (m.setState x .aioWait).Late y ↔ m.Late y := by
    intro y
    rw [Late, hst]
    split_ifs with hy
    · subst hy
      exact ⟨fun hl => absurd hl (by decide), fun hl => absurd hl hn⟩
    · exact Iff.rfl
  have hon : ∀ o l, (m.setState x .aioWait).on o l = m.on o l :=
    fun o l => on_congr o fun y _ => hosr y
  -- It was being prepared, so it is past nothing and at the head of nothing.
  constructor
  case nodup => exact h.nodup
  case fresh => exact h.fresh
  case unused =>
    intro y hy
    have hyx : y ≠ x := by
      rintro rfl
      exact absurd (h.fresh y (List.mem_append_right _ hx)) (not_lt.mpr hy)
    rw [hst, if_neg hyx]
    exact h.unused y hy
  case late => exact fun y hy => (hlate y).mpr (h.late y hy)
  case done =>
    intro y hy
    have hyx : y ≠ x := by
      rintro rfl
      exact hn (h.late y (h.released_subset hy))
    rw [hst, if_neg hyx]
    exact h.done y hy
  case ordered =>
    intro o
    obtain ⟨l, w, ho⟩ := h.ordered o
    refine ⟨l, w, ho.queue, ?_, ?_, fun y hy => mt (hlate y).mp (ho.early y hy), ?_⟩
    · rw [hon, hon]
      exact ho.passed
    · rw [hon, hon]
      exact ho.waits
    · intro y hy
      rw [hst]
      split_ifs
      · simp
      · exact ho.head y hy
  case front =>
    intro o y hy
    rw [hst]
    split_ifs
    · simp
    · exact h.front o y hy
  case mounting => exact h.mounting

/-! ## New contexts -/

/-- `m'` is `m` with a new context in state `st` at the end of the queue of sequencer `o`. -/
structure NewContext (m m' : Mount) (o : ℕ) (st : TxcState) : Prop where
  /-- The other contexts are as before. -/
  txc : ∀ y, y ≠ m.store.nextTxn → m'.store.txc y = m.store.txc y
  /-- The new context is on the sequencer. -/
  osr : (m'.store.txc m.store.nextTxn).osr = o
  /-- It is in the given state. -/
  state : m'.state m.store.nextTxn = st
  /-- It is at the end of the queue. -/
  queue : ∀ o', m'.queue o' = m.queue o' ++ if o' = o then [m.store.nextTxn] else []
  /-- It is made last. -/
  made : m'.restored ++ m'.submitted = m.restored ++ m.submitted ++ [m.store.nextTxn]
  /-- Nothing is pushed. -/
  entered : m'.entered = m.entered
  /-- Nothing is released. -/
  released : m'.released = m.released
  /-- Its name is used up. -/
  nextTxn : m'.store.nextTxn = m.store.nextTxn + 1

/-- `queue_new` makes a new context. -/
theorem newContext_queueNew (m : Mount) (o : ℕ) (st : TxcState) (d : Option DeferredTxn)
    (p : Phase) (rs ss : List ℕ) (hs : rs ++ ss = m.restored ++ m.submitted ++ [m.store.nextTxn]) :
    NewContext m { m with
      store := queueNew { m.store with phase := p } o st d
      restored := rs
      submitted := ss } o st where
  txc y hy := by simp [queueNew, hy]
  osr := by simp [queueNew]
  state := by simp [queueNew, Mount.state]
  queue o' := by
    by_cases ho : o' = o
    · subst ho; simp [queueNew, Mount.queue]
    · simp [queueNew, Mount.queue, ho]
  made := hs
  entered := rfl
  released := rfl
  nextTxn := rfl

namespace NewContext

variable {m m' : Mount} {o : ℕ} {st : TxcState}

/-- The other contexts keep their states. -/
theorem state_eq (hs : NewContext m m' o st) {y : ℕ} (hy : y ≠ m.store.nextTxn) :
    m'.state y = m.state y := by
  rw [Mount.state, hs.txc y hy]
  rfl

/-- What has been made before is not new. -/
theorem ne_of_made (h : Sequenced m) {y : ℕ} (hy : y ∈ m.restored ++ m.submitted) :
    y ≠ m.store.nextTxn := (h.fresh y hy).ne

/-- What has been pushed, or restored, is not new. -/
theorem ne_of_passed (h : Sequenced m) {y : ℕ} (hy : y ∈ m.restored ++ m.entered) :
    y ≠ m.store.nextTxn := by
  refine ne_of_made h ?_
  rcases List.mem_append.mp hy with hy | hy
  · exact List.mem_append_left _ hy
  · exact List.mem_append_right _ (h.entered_subset hy)

/-- The part of an old list on a sequencer is the same before and after. -/
theorem on_eq (hs : NewContext m m' o st) (o' : ℕ) {l : List ℕ}
    (hl : ∀ y ∈ l, y ≠ m.store.nextTxn) : m'.on o' l = m.on o' l :=
  on_congr o' fun y hy => by rw [hs.txc y (hl y hy)]

/-- The new context is on its sequencer only. -/
theorem on_new (hs : NewContext m m' o st) (o' : ℕ) :
    m'.on o' [m.store.nextTxn] = if o' = o then [m.store.nextTxn] else [] := by
  by_cases ho : o' = o
  · rw [if_pos ho, on_eq_self]
    simp [hs.osr, ho]
  · rw [if_neg ho, on_eq_nil]
    simpa [hs.osr] using Ne.symm ho

/-- A new context that is not done keeps the invariant, when the order on the sequencers is
kept. -/
theorem sequenced (h : Sequenced m) (hs : NewContext m m' o st) (hst : st ≠ .done)
    (hlate : ∀ x ∈ m'.restored ++ m'.entered, m'.Late x)
    (hord : ∀ o', ∃ l w, m'.Ordered o' l w)
    (hm : m'.store.phase ≠ .up → m'.submitted = []) : Sequenced m' where
  nodup := by
    rw [hs.made, List.nodup_append]
    refine ⟨h.nodup, by simp, fun y hy z hz => ?_⟩
    rw [List.mem_singleton.mp hz]
    exact ne_of_made h hy
  fresh y hy := by
    rw [hs.nextTxn]
    rw [hs.made] at hy
    rcases List.mem_append.mp hy with hy | hy
    · have := h.fresh y hy
      omega
    · rw [List.mem_singleton.mp hy]
      omega
  unused y hy := by
    rw [hs.nextTxn] at hy
    rw [hs.state_eq (by omega)]
    exact h.unused y (by omega)
  late := hlate
  done y hy := by
    rw [hs.released] at hy
    rw [hs.state_eq (ne_of_passed h (h.released_subset hy))]
    exact h.done y hy
  ordered := hord
  front o' y hy := by
    by_cases hyx : y = m.store.nextTxn
    · rw [hyx, hs.state]
      exact hst
    · rw [hs.state_eq hyx]
      refine h.front o' y ?_
      rw [hs.queue] at hy
      cases hq : m.queue o' with
      | nil =>
        rw [hq] at hy
        split_ifs at hy <;> simp at hy
        exact absurd hy.symm hyx
      | cons z q => simpa [hq] using hy
  mounting := hm

/-- `_txc_create` keeps the invariant of the sequencers. -/
theorem sequenced_create (h : Sequenced m) (hs : NewContext m m' o .prepare)
    (hr : m'.restored = m.restored) (hsub : m'.submitted = m.submitted ++ [m.store.nextTxn])
    (hup : m'.store.phase = .up) : Sequenced m' := by
  refine hs.sequenced h (by simp) ?_ ?_ fun hp => absurd hup hp
  · intro y hy
    rw [hr, hs.entered] at hy
    rw [Late, hs.state_eq (ne_of_passed h hy)]
    exact h.late y hy
  · intro o'
    obtain ⟨l, w, ho⟩ := h.ordered o'
    have hw : ∀ y ∈ w, y ≠ m.store.nextTxn := fun y hy => ne_of_made h
      (h.mem_queue (o := o') (by rw [ho.queue]; exact List.mem_append_right _ hy)).1
    refine ⟨l, w ++ (if o' = o then [m.store.nextTxn] else []), ?_, ?_, ?_, ?_, ?_⟩
    · rw [hs.queue, ho.queue, List.append_assoc]
    · rw [hr, hs.entered, hs.released, hs.on_eq _ fun y hy => ne_of_passed h hy,
        hs.on_eq _ fun y hy => ne_of_passed h (h.released_subset hy)]
      exact ho.passed
    · rw [hsub, hs.entered, on_append, hs.on_new,
        hs.on_eq _ fun y hy => ne_of_made h (List.mem_append_right _ hy),
        hs.on_eq _ fun y hy => ne_of_passed h (List.mem_append_right _ hy), ho.waits,
        List.append_assoc]
    · intro y hy
      by_cases hyx : y = m.store.nextTxn
      · rw [Late, hyx, hs.state]
        decide
      · have hyw : y ∈ w := by
          rcases List.mem_append.mp hy with hy | hy
          · exact hy
          · split_ifs at hy <;> simp at hy
            exact absurd hy hyx
        rw [Late, hs.state_eq hyx]
        exact ho.early y hyw
    · intro y hy
      by_cases hyx : y = m.store.nextTxn
      · rw [hyx, hs.state]
        simp
      · rw [hs.state_eq hyx]
        refine ho.head y ?_
        cases w with
        | nil =>
          split_ifs at hy <;> simp at hy
          exact absurd hy.symm hyx
        | cons z w => simpa using hy

/-- A restored context keeps the invariant of the sequencers. No client has come yet. -/
theorem sequenced_restore (h : Sequenced m) (hs : NewContext m m' o .kvDone)
    (hr : m'.restored = m.restored ++ [m.store.nextTxn]) (hsub : m'.submitted = [])
    (hsub' : m.submitted = []) : Sequenced m' := by
  have hent : m.entered = [] := by
    rw [List.eq_nil_iff_forall_not_mem]
    intro y hy
    simpa [hsub'] using h.entered_subset hy
  have hnew : m'.Late m.store.nextTxn := by
    rw [Late, hs.state]
    decide
  refine hs.sequenced h (by simp) ?_ ?_ fun _ => hsub
  · intro y hy
    rw [hr, hs.entered, hent, List.append_nil] at hy
    rcases List.mem_append.mp hy with hy | hy
    · have hy' : y ∈ m.restored ++ m.entered := List.mem_append_left _ hy
      rw [Late, hs.state_eq (ne_of_passed h hy')]
      exact h.late y hy'
    · rw [List.mem_singleton.mp hy]
      exact hnew
  · intro o'
    obtain ⟨l, w, ho⟩ := h.ordered o'
    have hw : w = [] := by
      have := ho.waits
      rw [hsub', hent] at this
      simpa using this.symm
    have hpass := ho.passed
    rw [hent, List.append_nil] at hpass
    refine ⟨l ++ (if o' = o then [m.store.nextTxn] else []), [], ?_, ?_, ?_, by simp, by simp⟩
    · rw [hs.queue, ho.queue, hw, List.append_nil, List.append_nil]
    · rw [hr, hs.entered, hs.released, hent, List.append_nil, on_append, hs.on_new,
        hs.on_eq _ fun y hy => ne_of_passed h (List.mem_append_left _ hy),
        hs.on_eq _ fun y hy => ne_of_passed h (h.released_subset hy), hpass, List.append_assoc]
    · rw [hsub, hs.entered, hent]
      simp

end NewContext

end Mount

end CxxLab.Bluestore
