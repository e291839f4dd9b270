import CxxLab.Lib.Runs
import Mathlib.Data.List.Count
import Mathlib.Tactic

/-!
# The deferred writer

`DeferredWriter` of `deferred_writer.h` and `deferred_writer.cc`: transactions are put into the
pending batch of their sequencer, and one batch of a sequencer at a time is written. Any number of
threads call it. A step is what one of them does under one lock; `queue` takes both locks, the one
of the sequencer and inside it `lock_`. A call that is under way is a stack of frames, since
`try_submit` calls `flush_done` for a batch that has nothing to wait for, and `flush_done` calls
`try_submit`.

What is in a batch is left out: whether it comes to any writes that are to be waited for is an
argument of the step that submits them. A completion is the callback of the device, which comes
once, after the last of the writes.
-/

namespace CxxLab.Bluestore.DeferredWriter

open Runs

/-! ## States -/

/-- `DeferredBatch`. -/
structure Batch where
  osr : ℕ
  txcs : List ℕ

/-- What happens on a sequencer. -/
inductive Event where
  /-- `queue` has put a transaction into the pending batch. -/
  | queued (txc : ℕ)
  /-- The writes of a batch are submitted. -/
  | issued (b : ℕ)
  /-- The writes of a batch have completed. -/
  | completed (b : ℕ)

/-- Where a call is. -/
inductive Frame where
  /-- `try_submit`, before it takes `deferred_queue_`. -/
  | trySubmit
  /-- `try_submit`, in its loop over the sequencers that are left. -/
  | submitLoop (osrs : List ℕ)
  /-- `try_submit`, with a batch that is running and whose writes are not submitted. -/
  | issue (b : ℕ) (osrs : List ℕ)
  /-- `flush_done`, before it takes the lock of the sequencer. -/
  | flushDone (b : ℕ)
  /-- `flush_done`, before it takes `lock_`. -/
  | flushPush (b : ℕ) (hasPending : Bool)

/-- The writer, without the calls that are under way. A batch is known by its address; `batches`
of them have been made. -/
structure Core where
  batch : ℕ → Batch := fun _ => ⟨0, []⟩
  batches : ℕ := 0
  /-- `deferred_pending` of a sequencer. -/
  pending : ℕ → Option ℕ := fun _ => none
  /-- `deferred_running` of a sequencer. -/
  running : ℕ → Option ℕ := fun _ => none
  /-- `deferred_queue_`. -/
  queue : List ℕ := []
  /-- `deferred_done_queue_`. -/
  done : List ℕ := []
  /-- `deferred_stable_queue_`. -/
  stable : List ℕ := []
  /-- What `swap_stable_queue` has handed out. -/
  taken : List ℕ := []
  /-- The batches whose writes the device has. -/
  aios : List ℕ := []
  /-- An assertion has failed. -/
  failed : Bool := false
  /-- What happened on each sequencer. -/
  log : ℕ → List Event := fun _ => []

/-- The writer. -/
structure Writer where
  core : Core := {}
  /-- The calls that are under way, each with the frame on top first. -/
  calls : List (List Frame) := []

/-! ## The functions of the source -/

namespace Core

/-- Something happens on a sequencer. -/
def note (s : Core) (o : ℕ) (e : Event) : Core :=
  { s with log := Function.update s.log o (s.log o ++ [e]) }

/-- A new pending batch, unless the sequencer has one. -/
def withPending (s : Core) (o : ℕ) : Core :=
  match s.pending o with
  | some _ => s
  | none =>
    { s with
      batch := Function.update s.batch s.batches ⟨o, []⟩
      batches := s.batches + 1
      pending := Function.update s.pending o (some s.batches) }

/-- `queue`, up to its call of `try_submit`. -/
def queueTxc (s : Core) (o txc : ℕ) : Core :=
  let s := s.withPending o
  match s.pending o with
  | none => s
  | some b =>
    let s := { s with
      batch := Function.update s.batch b { s.batch b with txcs := (s.batch b).txcs ++ [txc] }
      queue := if s.running o = none then s.queue ++ [o] else s.queue }
    s.note o (.queued txc)

/-- The next step of a call: the frames that take the place of the one on top. `pendingAios` is what
`has_pending_aios` says of a batch. -/
def next (s : Core) (pendingAios : Bool) : Frame → Core × List Frame
  | .trySubmit => ({ s with queue := [] }, [.submitLoop s.queue])
  | .submitLoop [] => (s, [])
  | .submitLoop (o :: osrs) =>
    match s.pending o, s.running o with
    | some b, none =>
      ({ s with
          running := Function.update s.running o (some b)
          pending := Function.update s.pending o none },
        [.issue b osrs])
    | _, _ => (s, [.submitLoop osrs])
  | .issue b osrs =>
    let s := s.note (s.batch b).osr (.issued b)
    if pendingAios then ({ s with aios := b :: s.aios }, [.submitLoop osrs])
    else (s.note (s.batch b).osr (.completed b), [.flushDone b, .submitLoop osrs])
  | .flushDone b =>
    let o := (s.batch b).osr
    if s.running o = some b then
      ({ s with running := Function.update s.running o none },
        [.flushPush b (s.pending o).isSome])
    else ({ s with failed := true }, [])
  | .flushPush b hasPending =>
    ({ s with
        done := s.done ++ [b]
        queue := if hasPending then s.queue ++ [(s.batch b).osr] else s.queue },
      if hasPending then [.trySubmit] else [])

end Core

/-- What threads and the device do. -/
inductive Action where
  /-- A call of `queue`. -/
  | queue (osr txc : ℕ)
  /-- A call of `try_submit`. -/
  | trySubmit
  /-- The next step of a call. -/
  | step (call : ℕ) (pendingAios : Bool)
  /-- The writes of a batch have completed; the device calls `flush_done`. -/
  | aioDone (i : ℕ)
  /-- `flush_done_to_stable`. -/
  | flushDoneToStable
  /-- `swap_stable_queue`. -/
  | swapStableQueue

/-- One action. -/
def act (w : Writer) : Action → Option Writer
  | .queue o txc => some ⟨w.core.queueTxc o txc, w.calls ++ [[.trySubmit]]⟩
  | .trySubmit => some ⟨w.core, w.calls ++ [[.trySubmit]]⟩
  | .step i pendingAios =>
    match w.calls[i]? with
    | some (f :: frames) =>
      let (s, fs) := w.core.next pendingAios f
      some ⟨s, w.calls.set i (fs ++ frames)⟩
    | _ => none
  | .aioDone i =>
    match w.core.aios[i]? with
    | none => none
    | some b =>
      let s := { w.core with aios := w.core.aios.eraseIdx i }
      some ⟨s.note (s.batch b).osr (.completed b), w.calls ++ [[.flushDone b]]⟩
  | .flushDoneToStable =>
    some { w with core := { w.core with stable := w.core.stable ++ w.core.done, done := [] } }
  | .swapStableQueue =>
    some { w with core := { w.core with taken := w.core.taken ++ w.core.stable, stable := [] } }

/-! ## What is kept -/

/-- The batch that a frame has in its hands. -/
def Frame.batch? : Frame → Option ℕ
  | .issue b _ | .flushDone b | .flushPush b _ => some b
  | .trySubmit | .submitLoop _ => none

/-- The batches that are not pending any more, each where it is. -/
def places (s : Core) (fr : List Frame) : List ℕ :=
  fr.filterMap Frame.batch? ++ (s.aios ++ (s.done ++ (s.stable ++ s.taken)))

/-- The batch has been taken from its sequencer's pending slot. -/
def Started (s : Core) (b : ℕ) : Prop := b < s.batches ∧ s.pending (s.batch b).osr ≠ some b

/-- The transactions that were queued on a sequencer. -/
def queuedTxcs (l : List Event) : List ℕ :=
  l.filterMap fun
    | .queued x => some x
    | _ => none

/-- The writes on a sequencer: what is issued and what has completed. -/
def writes (l : List Event) : List Event :=
  l.filter fun
    | .queued _ => false
    | _ => true

/-- The writes of a batch, from beginning to end. -/
def written (b : ℕ) : List Event := [.issued b, .completed b]

/-- The running batch, and what its sequencer has seen of it. -/
inductive Phase (s : Core) (fr : List Frame) (b : ℕ) : List Event → Prop
  | starting (osrs : List ℕ) (h : .issue b osrs ∈ fr) : Phase s fr b []
  | issued (h : b ∈ s.aios) : Phase s fr b [.issued b]
  | completed (h : .flushDone b ∈ fr) : Phase s fr b (written b)

/-- What has happened on the sequencer `o`: the batches `bs` are done with, one after the other; the
transactions that were queued are in them, in the running batch and in the pending one. -/
structure History (s : Core) (fr : List Frame) (o : ℕ) (bs : List ℕ) : Prop where
  writes : ∃ tail, writes (s.log o) = bs.flatMap written ++ tail ∧
    (s.running o = none → tail = []) ∧ ∀ b, s.running o = some b → Phase s fr b tail
  txcs : queuedTxcs (s.log o) = (bs ++ ((s.running o).toList ++ (s.pending o).toList)).flatMap
    fun b => (s.batch b).txcs
  nodup : (bs ++ ((s.running o).toList ++ (s.pending o).toList)).Nodup
  owned : ∀ b, b ∈ bs ++ ((s.running o).toList ++ (s.pending o).toList) ↔
    (s.batch b).osr = o ∧ b < s.batches

/-- A frame that will look at the pending batch of a sequencer. -/
def Serves (s : Core) (o : ℕ) : Frame → Prop
  | .submitLoop osrs | .issue _ osrs => o ∈ osrs
  | .flushPush b hasPending => hasPending = true ∧ (s.batch b).osr = o
  | .trySubmit | .flushDone _ => False

/-- What every step keeps; `fr` are the frames of all calls. -/
structure Inv (s : Core) (fr : List Frame) : Prop where
  failed : s.failed = false
  nodup : (places s fr).Nodup
  mem : ∀ b, b ∈ places s fr ↔ Started s b
  active : ∀ b, (∃ tail, Phase s fr b tail) → s.running (s.batch b).osr = some b
  history : ∀ o, ∃ bs, History s fr o bs
  waiting : ∀ o, s.pending o ≠ none → s.running o ≠ none ∨ o ∈ s.queue ∨ ∃ f ∈ fr, Serves s o f
  queue : s.queue ≠ [] → .trySubmit ∈ fr

/-! ## The frames of all calls -/

variable {s : Core} {fr fr' : List Frame}

/-- The order of the frames does not matter to where a batch is. -/
theorem places_perm (h : fr.Perm fr') : (places s fr).Perm (places s fr') :=
  (h.filterMap _).append_right _

/-- The order of the frames does not matter to the phase of a batch. -/
theorem Phase.perm (h : fr.Perm fr') {b : ℕ} {tail : List Event} (hp : Phase s fr b tail) :
    Phase s fr' b tail := by
  cases hp with
  | starting osrs hf => exact .starting osrs (h.mem_iff.mp hf)
  | issued hb => exact .issued hb
  | completed hf => exact .completed (h.mem_iff.mp hf)

/-- The order of the frames does not matter. -/
theorem Inv.perm (h : Inv s fr) (hp : fr.Perm fr') : Inv s fr' where
  failed := h.failed
  nodup := (places_perm hp).nodup_iff.mp h.nodup
  mem b := (places_perm hp).mem_iff.symm.trans (h.mem b)
  active b := fun ⟨tail, ht⟩ => h.active b ⟨tail, ht.perm hp.symm⟩
  history o := by
    obtain ⟨bs, ⟨tail, hw, hn, hr⟩, htxcs, hnodup, howned⟩ := h.history o
    exact ⟨bs, ⟨tail, hw, hn, fun b hb => (hr b hb).perm hp⟩, htxcs, hnodup, howned⟩
  waiting o ho := by
    rcases h.waiting o ho with hr | hq | ⟨f, hf, hs⟩
    · exact .inl hr
    · exact .inr (.inl hq)
    · exact .inr (.inr ⟨f, hp.mem_iff.mp hf, hs⟩)
  queue hq := hp.mem_iff.mp (h.queue hq)

/-! ## One frame is replaced -/

variable {s' : Core} {f : Frame} {fs fs' rest : List Frame} {o b : ℕ}

/-- What a sequencer has seen of a batch that the replaced frames do not have. -/
theorem Phase.replace {tail : List Event} (fs fs' : List Frame) (h : Phase s (fs ++ rest) b tail)
    (hfs : ∀ g ∈ fs, g.batch? ≠ some b) (haios : b ∈ s.aios → b ∈ s'.aios) :
    Phase s' (fs' ++ rest) b tail := by
  cases h with
  | starting osrs h =>
    refine .starting osrs (List.mem_append_right _ ?_)
    exact (List.mem_append.mp h).resolve_left fun hin => hfs _ hin rfl
  | issued h => exact .issued (haios h)
  | completed h =>
    refine .completed (List.mem_append_right _ ?_)
    exact (List.mem_append.mp h).resolve_left fun hin => hfs _ hin rfl

/-- The batch of a frame is nowhere else. -/
theorem Inv.only (h : Inv s (f :: rest)) (hf : f.batch? = some b) :
    (∀ g ∈ rest, g.batch? ≠ some b) ∧ b ∉ s.aios := by
  have hnodup := h.nodup
  rw [places, List.filterMap_cons_some hf, List.cons_append, List.nodup_cons, List.mem_append,
    List.mem_append] at hnodup
  push Not at hnodup
  refine ⟨fun g hg hgb => ?_, hnodup.1.2.1⟩
  exact hnodup.1.1 (List.mem_filterMap.mpr ⟨g, hg, hgb⟩)

/-- What a sequencer has seen of a batch is in the frames and with the device. -/
theorem Phase.same {tail : List Event} (h : Phase s fr b tail) (haios : s'.aios = s.aios) :
    Phase s' fr b tail := by
  cases h with
  | starting osrs hf => exact .starting osrs hf
  | issued hb => exact .issued (haios ▸ hb)
  | completed hf => exact .completed hf

/-- The history of a sequencer on which nothing happens. -/
theorem History.same {bs : List ℕ} (h : History s fr o bs) (hlog : s'.log o = s.log o)
    (hrun : s'.running o = s.running o) (hpend : s'.pending o = s.pending o)
    (hbatch : ∀ b, b < s.batches → (s.batch b).osr = o → s'.batch b = s.batch b)
    (hosr : ∀ b, (s'.batch b).osr = o ∧ b < s'.batches ↔ (s.batch b).osr = o ∧ b < s.batches)
    (hphase : ∀ b tail, s.running o = some b → Phase s fr b tail → Phase s' fr' b tail) :
    History s' fr' o bs := by
  obtain ⟨⟨tail, hw, hn, hr⟩, htxcs, hnodup, howned⟩ := h
  refine ⟨⟨tail, by rw [hlog, hw], by rwa [hrun], fun b hb => ?_⟩, ?_, ?_, ?_⟩
  · rw [hrun] at hb
    exact hphase b tail hb (hr b hb)
  · rw [hlog, htxcs, hrun, hpend]
    refine List.flatMap_congr fun b hb => ?_
    obtain ⟨hb, hlt⟩ := (howned b).mp hb
    rw [hbatch b hlt hb]
  · rwa [hrun, hpend]
  · rw [hrun, hpend]
    exact fun b => (howned b).trans (hosr b).symm

/-- What a pending batch is. -/
theorem Inv.pending (h : Inv s fr) (hp : s.pending o = some b) :
    (s.batch b).osr = o ∧ b < s.batches := by
  obtain ⟨bs, hh⟩ := h.history o
  exact (hh.owned b).mp (by simp [hp])

/-- A step that moves batches between the queues at most. The frames that have a batch before it is
done with stay. -/
theorem Inv.moved (h : Inv s fr) (q d t k : List ℕ)
    (hplaces : (places { s with queue := q, done := d, stable := t, taken := k } fr').Perm
      (places s fr))
    (hmem : ∀ g, g.batch? ≠ none → (∀ b p, g ≠ .flushPush b p) → (g ∈ fr' ↔ g ∈ fr))
    (hwait : ∀ o, s.pending o ≠ none → s.running o = none →
      o ∈ s.queue ∨ (∃ f ∈ fr, Serves s o f) → o ∈ q ∨ ∃ f ∈ fr', Serves s o f)
    (hq : q ≠ [] → .trySubmit ∈ fr') :
    Inv { s with queue := q, done := d, stable := t, taken := k } fr' := by
  have hphase : ∀ b tail, Phase { s with queue := q, done := d, stable := t, taken := k } fr' b
      tail ↔ Phase s fr b tail := by
    intro b tail
    constructor
    · rintro (⟨osrs, hf⟩ | hb | hf)
      · exact .starting osrs ((hmem _ (by simp [Frame.batch?]) (by simp)).mp hf)
      · exact .issued hb
      · exact .completed ((hmem _ (by simp [Frame.batch?]) (by simp)).mp hf)
    · rintro (⟨osrs, hf⟩ | hb | hf)
      · exact .starting osrs ((hmem _ (by simp [Frame.batch?]) (by simp)).mpr hf)
      · exact .issued hb
      · exact .completed ((hmem _ (by simp [Frame.batch?]) (by simp)).mpr hf)
  refine ⟨h.failed, hplaces.nodup_iff.mpr h.nodup, fun b => hplaces.mem_iff.trans (h.mem b),
    fun b ⟨tail, ht⟩ => ?_, fun o => ?_, fun o ho => ?_, hq⟩
  · exact h.active b ⟨tail, (hphase b tail).mp ht⟩
  · obtain ⟨bs, hh⟩ := h.history o
    exact ⟨bs, hh.same rfl rfl rfl (fun _ _ _ => rfl) (fun _ => Iff.rfl)
      fun b tail _ ht => (hphase b tail).mpr ht⟩
  · by_cases hr : s.running o = none
    · exact .inr (hwait o ho hr ((h.waiting o ho).resolve_left (not_not.mpr hr)))
    · exact .inl hr

/-- A step of a frame without a batch, which changes the queue at most. -/
theorem Inv.idle (h : Inv s fr) (q : List ℕ) (hbatch : fr'.filterMap Frame.batch? =
      fr.filterMap Frame.batch?) (hmem : ∀ g, g.batch? ≠ none → (g ∈ fr' ↔ g ∈ fr))
    (hwait : ∀ o, s.pending o ≠ none → s.running o = none →
      o ∈ s.queue ∨ (∃ f ∈ fr, Serves s o f) → o ∈ q ∨ ∃ f ∈ fr', Serves s o f)
    (hq : q ≠ [] → .trySubmit ∈ fr') : Inv { s with queue := q } fr' :=
  h.moved q s.done s.stable s.taken (by unfold places; rw [hbatch]) (fun g hg _ => hmem g hg)
    hwait hq

/-! ## The steps of a call -/

namespace Inv

/-- A sequencer is taken from the queue, and its batch is submitted. -/
theorem step_trySubmit (h : Inv s (.trySubmit :: rest)) :
    Inv { s with queue := [] } (.submitLoop s.queue :: rest) := by
  refine h.idle [] rfl (fun g hg => ?_) (fun o _ _ ho => .inr ?_) fun hne => absurd rfl hne
  · constructor <;> intro hmem <;> rcases List.mem_cons.mp hmem with rfl | hmem
    · exact absurd rfl hg
    · exact List.mem_cons_of_mem _ hmem
    · exact absurd rfl hg
    · exact List.mem_cons_of_mem _ hmem
  · rcases ho with hq | ⟨f, hf, hs⟩
    · exact ⟨_, List.mem_cons_self, hq⟩
    · rcases List.mem_cons.mp hf with rfl | hf
      · exact absurd hs id
      · exact ⟨f, List.mem_cons_of_mem _ hf, hs⟩

/-- The loop over a batch ends. -/
theorem step_loopEnd (h : Inv s (.submitLoop [] :: rest)) : Inv s rest := by
  refine h.idle s.queue rfl (fun g hg => ?_) (fun o _ _ ho => ?_) fun hne => ?_
  · refine ⟨List.mem_cons_of_mem _, fun hmem => (List.mem_cons.mp hmem).resolve_left ?_⟩
    rintro rfl
    exact hg rfl
  · refine ho.imp_right fun ⟨f, hf, hs⟩ => ?_
    rcases List.mem_cons.mp hf with rfl | hf
    · exact absurd hs List.not_mem_nil
    · exact ⟨f, hf, hs⟩
  · exact (List.mem_cons.mp (h.queue hne)).resolve_left fun heq => by cases heq

/-- A sequencer is passed over that has no pending batch, or a running one. -/
theorem step_skip {osrs : List ℕ} (h : Inv s (.submitLoop (o :: osrs) :: rest))
    (ho : s.pending o = none ∨ s.running o ≠ none) : Inv s (.submitLoop osrs :: rest) := by
  refine h.idle s.queue rfl (fun g hg => ?_) (fun o' hp hr hw => ?_) fun hne => ?_
  · constructor <;> intro hmem <;> rcases List.mem_cons.mp hmem with rfl | hmem
    · exact absurd rfl hg
    · exact List.mem_cons_of_mem _ hmem
    · exact absurd rfl hg
    · exact List.mem_cons_of_mem _ hmem
  · refine hw.imp_right fun ⟨f, hf, hs⟩ => ?_
    rcases List.mem_cons.mp hf with rfl | hf
    · rcases List.mem_cons.mp hs with rfl | hs
      · exact absurd ho (not_or.mpr ⟨hp, not_not.mpr hr⟩)
      · exact ⟨_, List.mem_cons_self, hs⟩
    · exact ⟨f, List.mem_cons_of_mem _ hf, hs⟩
  · have hin := (List.mem_cons.mp (h.queue hne)).resolve_left fun heq => by cases heq
    exact List.mem_cons_of_mem _ hin

/-- The pending batch of a sequencer is started. -/
theorem step_start {osrs : List ℕ} (h : Inv s (.submitLoop (o :: osrs) :: rest))
    (hp : s.pending o = some b) (hr : s.running o = none) :
    Inv { s with
        running := Function.update s.running o (some b)
        pending := Function.update s.pending o none } (.issue b osrs :: rest) := by
  obtain ⟨hosr, hlt⟩ := h.pending hp
  -- The batch was in no queue.
  have hnew : b ∉ places s (.submitLoop (o :: osrs) :: rest) := by
    rw [h.mem]
    exact fun hs => hs.2 (hosr ▸ hp)
  have hother : ∀ b' tail, b' ≠ b → Phase s (.submitLoop (o :: osrs) :: rest) b' tail →
      (s.batch b').osr ≠ o := by
    intro b' tail hne ht heq
    have := h.active b' ⟨tail, ht⟩
    rw [heq, hr] at this
    cases this
  -- Clause by clause: the batch is now running, any other one is where it was.
  refine ⟨h.failed, ?_, fun b' => ?_, fun b' => ?_, fun o' => ?_, fun o' ho' => ?_, fun hne => ?_⟩
  · exact List.nodup_cons.mpr ⟨hnew, h.nodup⟩
  · show b' ∈ b :: places s (.submitLoop (o :: osrs) :: rest) ↔
      b' < s.batches ∧ Function.update s.pending o none (s.batch b').osr ≠ some b'
    rw [List.mem_cons, h.mem, Started]
    by_cases hb : b' = b
    · subst hb
      simp [hosr, hlt]
    · by_cases ho : (s.batch b').osr = o
      · simp [hb, ho, hp, Ne.symm hb]
      · simp [hb, Function.update_of_ne ho]
  · rintro ⟨tail, ht⟩
    show Function.update s.running o (some b) (s.batch b').osr = some b'
    by_cases hb : b' = b
    · subst hb
      rw [hosr, Function.update_self]
    · have hold : Phase s (.submitLoop (o :: osrs) :: rest) b' tail :=
        ht.replace [_] [_] (fun g hg => by
          rw [List.mem_singleton.mp hg]
          exact fun heq => hb (Option.some.inj heq).symm) id
      rw [Function.update_of_ne (hother b' tail hb hold)]
      exact h.active b' ⟨tail, hold⟩
  · obtain ⟨bs, hh⟩ := h.history o'
    by_cases ho : o' = o
    · subst ho
      obtain ⟨⟨tail, hw, hn, -⟩, htxcs, hnodup, howned⟩ := hh
      rw [hr, hp] at htxcs hnodup howned
      refine ⟨bs, ⟨tail, hw, fun _ => hn hr, fun b' hb' => ?_⟩, ?_, ?_, ?_⟩
      · have hb' : b = b' := by simpa using hb'
        rw [← hb', hn hr]
        exact .starting osrs List.mem_cons_self
      all_goals
        show _
        simp only [Function.update_self]
        assumption
    -- Another sequencer has the history that it had.
    · refine ⟨bs, hh.same rfl (Function.update_of_ne ho _ _) (Function.update_of_ne ho _ _)
        (fun _ _ _ => rfl) (fun _ => Iff.rfl) fun b' tail hb' ht => ?_⟩
      exact ht.replace [_] [_] (fun g hg => by
        rw [List.mem_singleton.mp hg]
        exact fun heq => by cases heq) id
  · show Function.update s.running o (some b) o' ≠ none ∨ _
    by_cases ho : o' = o
    · subst ho
      exact absurd (Function.update_self ..) ho'
    · rw [Function.update_of_ne ho]
      have hpend : s.pending o' ≠ none := by
        change Function.update s.pending o none o' ≠ none at ho'
        rwa [Function.update_of_ne ho] at ho'
      rcases h.waiting o' hpend with hrun | hq | ⟨f, hf, hs⟩
      · exact .inl hrun
      · exact .inr (.inl hq)
      · rcases List.mem_cons.mp hf with rfl | hf
        · exact .inr (.inr ⟨_, List.mem_cons_self, (List.mem_cons.mp hs).resolve_left ho⟩)
        · refine .inr (.inr ⟨f, List.mem_cons_of_mem _ hf, ?_⟩)
          cases f <;> exact hs
  · have hin := (List.mem_cons.mp (h.queue hne)).resolve_left fun heq => by cases heq
    exact List.mem_cons_of_mem _ hin

/-- What a frame waits for is waited for by the frames that take its place. -/
theorem waiting_replace (h : Inv s (fs ++ rest)) {s' : Core}
    (hpend : s'.pending = s.pending) (hrun : s'.running = s.running) (hbatch : s'.batch = s.batch)
    (hqueue : s'.queue = s.queue)
    (hserves : ∀ o, ∀ f ∈ fs, Serves s o f → ∃ g ∈ fs', Serves s o g) (o : ℕ)
    (ho : s'.pending o ≠ none) :
    s'.running o ≠ none ∨ o ∈ s'.queue ∨ ∃ g ∈ fs' ++ rest, Serves s' o g := by
  have hsame : ∀ g, Serves s' o g ↔ Serves s o g := by
    intro g
    cases g <;> simp only [Serves, hbatch]
  rw [hpend] at ho
  rw [hrun, hqueue]
  simp only [hsame]
  rcases h.waiting o ho with hr | hq | ⟨g, hg, hs⟩
  · exact .inl hr
  · exact .inr (.inl hq)
  · rcases List.mem_append.mp hg with hg | hg
    · obtain ⟨g, hg, hs⟩ := hserves o g hg hs
      exact .inr (.inr ⟨g, List.mem_append_left _ hg, hs⟩)
    · exact .inr (.inr ⟨g, List.mem_append_right _ hg, hs⟩)

/-- A note goes to the history of its sequencer. -/
theorem note_self (s : Core) (o : ℕ) (e : Event) : (s.note o e).log o = s.log o ++ [e] :=
  Function.update_self ..

/-- The other histories stay. -/
theorem note_of_ne {o' : ℕ} (hne : o' ≠ o) (s : Core) (e : Event) :
    (s.note o e).log o' = s.log o' :=
  Function.update_of_ne hne ..

/-- The running batch goes from one phase to the next: `es` happens on its sequencer, and the frames
`fs'` take the place of `fs`. -/
theorem step_phase (fs fs' : List Frame) (es tail : List Event) (h : Inv s (fs ++ rest)) {s' : Core}
    (hrun : s.running (s.batch b).osr = some b)
    (hold : ∀ t, Phase s (fs ++ rest) b t → t = tail)
    (hnew : Phase s' (fs' ++ rest) b (tail ++ es)) (hes : queuedTxcs es = [] ∧ writes es = es)
    (hfs : ∀ g ∈ fs, ∀ b', g.batch? = some b' → b' = b)
    (hfs' : ∀ g ∈ fs', ∀ b', g.batch? = some b' → b' = b)
    (haios : ∀ b', b' ≠ b → (b' ∈ s'.aios ↔ b' ∈ s.aios))
    (hlog : s'.log (s.batch b).osr = s.log (s.batch b).osr ++ es)
    (hlogs : ∀ o, o ≠ (s.batch b).osr → s'.log o = s.log o)
    (hplaces : (places s' (fs' ++ rest)).Perm (places s (fs ++ rest)))
    (hfailed : s'.failed = s.failed) (hbatch : s'.batch = s.batch)
    (hbatches : s'.batches = s.batches) (hpend : s'.pending = s.pending)
    (hrunning : s'.running = s.running) (hqueue : s'.queue = s.queue)
    (hserves : ∀ o, ∀ f ∈ fs, Serves s o f → ∃ g ∈ fs', Serves s o g) (htry : .trySubmit ∉ fs) :
    Inv s' (fs' ++ rest) := by
  refine ⟨hfailed.trans h.failed, hplaces.nodup_iff.mpr h.nodup, fun b' => ?_, fun b' => ?_,
    fun o => ?_, h.waiting_replace hpend hrunning hbatch hqueue hserves, fun hne => ?_⟩
  · rw [hplaces.mem_iff, h.mem, Started, Started, hbatch, hbatches, hpend]
  · rintro ⟨t, ht⟩
    rw [hrunning, hbatch]
    by_cases hb : b' = b
    · rw [hb]
      exact hrun
    · exact h.active b' ⟨t, ht.replace _ _ (fun g hg heq => hb (hfs' g hg b' heq)) (haios b' hb).mp⟩
  · obtain ⟨bs, hh⟩ := h.history o
    by_cases ho : o = (s.batch b).osr
    · subst ho
      obtain ⟨⟨t, hw, -, hr⟩, htxcs, hnodup, howned⟩ := hh
      obtain rfl := hold t (hr b hrun)
      refine ⟨bs, ⟨t ++ es, ?_, fun hn => ?_, fun b' hb' => ?_⟩, ?_, ?_, ?_⟩
      · rw [hlog, writes, List.filter_append]
        exact (congrArg₂ (· ++ ·) hw hes.2).trans (List.append_assoc _ _ _)
      · rw [hrunning, hrun] at hn
        cases hn
      · rw [hrunning, hrun] at hb'
        obtain rfl := Option.some.inj hb'
        exact hnew
      · rw [hlog, queuedTxcs, List.filterMap_append, hrunning, hpend, hbatch]
        exact (congrArg₂ (· ++ ·) htxcs hes.1).trans (List.append_nil _)
      · rwa [hrunning, hpend]
      · rwa [hrunning, hpend, hbatch, hbatches]
    · refine ⟨bs, hh.same (hlogs o ho) (congrFun hrunning o) (congrFun hpend o)
        (fun b' _ _ => congrFun hbatch b') (fun b' => by rw [hbatch, hbatches])
        fun b' t hb' ht => ?_⟩
      -- The running batch of another sequencer is another one.
      have hne : b' ≠ b := by
        rintro rfl
        obtain ⟨-, -, -, howned⟩ := hh
        exact ho ((howned b').mp (by simp [hb'])).1.symm
      exact ht.replace _ _ (fun g hg heq => hne (hfs g hg b' heq)) (haios b' hne).mpr
  · rw [hqueue] at hne
    exact List.mem_append_right _ ((List.mem_append.mp (h.queue hne)).resolve_left htry)

/-- A batch that is not issued yet has seen nothing. -/
theorem phase_issue {osrs : List ℕ} (h : Inv s (.issue b osrs :: rest)) {tail : List Event}
    (ht : Phase s (.issue b osrs :: rest) b tail) : tail = [] := by
  obtain ⟨hrest, haios⟩ := h.only rfl
  cases ht with
  | starting => rfl
  | issued hb => exact absurd hb haios
  | completed hf =>
    rcases List.mem_cons.mp hf with heq | hf
    · cases heq
    · exact absurd rfl (hrest _ hf)

/-- The writes of a batch are submitted. -/
theorem step_issue {osrs : List ℕ} (h : Inv s (.issue b osrs :: rest)) :
    Inv { s.note (s.batch b).osr (.issued b) with aios := b :: s.aios }
      (.submitLoop osrs :: rest) := by
  have hrun := h.active b ⟨_, .starting osrs List.mem_cons_self⟩
  refine step_phase [_] [_] [.issued b] [] h hrun
    (fun t ht => h.phase_issue ht) (.issued List.mem_cons_self) ⟨rfl, rfl⟩
    (fun g hg b' hb' => ?_) (fun g hg b' hb' => ?_) (fun b' hb' => ?_)
    (note_self _ _ _) (fun o ho => note_of_ne ho _ _) ?_ rfl rfl rfl rfl rfl rfl
    (fun o f hf ho => ⟨_, List.mem_singleton_self _, ?_⟩) (by simp)
  · rw [List.mem_singleton.mp hg] at hb'
    exact (Option.some.inj hb').symm
  · rw [List.mem_singleton.mp hg] at hb'
    cases hb'
  · exact List.mem_cons.trans (or_iff_right hb')
  · exact List.perm_middle
  · rw [List.mem_singleton.mp hf] at ho
    exact ho

/-- A batch without writes to wait for has completed. -/
theorem step_issue_none {osrs : List ℕ} (h : Inv s (.issue b osrs :: rest)) :
    Inv ((s.note (s.batch b).osr (.issued b)).note (s.batch b).osr (.completed b))
      (.flushDone b :: .submitLoop osrs :: rest) := by
  have hrun := h.active b ⟨_, .starting osrs List.mem_cons_self⟩
  refine step_phase [_] [.flushDone b, .submitLoop osrs] (written b) [] h hrun
    (fun t ht => h.phase_issue ht) (.completed List.mem_cons_self) ⟨rfl, rfl⟩
    (fun g hg b' hb' => ?_) (fun g hg b' hb' => ?_) (fun b' hb' => Iff.rfl)
    ?_ (fun o ho => (note_of_ne ho _ _).trans (note_of_ne ho _ _)) (.refl _) rfl rfl rfl rfl rfl rfl
    (fun o f hf ho => ⟨_, List.mem_cons_of_mem _ (List.mem_singleton_self _), ?_⟩) (by simp)
  · rw [List.mem_singleton.mp hg] at hb'
    exact (Option.some.inj hb').symm
  · rcases List.mem_pair.mp hg with rfl | rfl
    · exact (Option.some.inj hb').symm
    · cases hb'
  · rw [note_self, note_self, List.append_assoc]
    rfl
  · rw [List.mem_singleton.mp hf] at ho
    exact ho

/-- The device has completed the writes of a batch. -/
theorem step_aioDone {i : ℕ} (h : Inv s fr) (hi : s.aios[i]? = some b) :
    Inv ({ s with aios := s.aios.eraseIdx i }.note (s.batch b).osr (.completed b))
      (.flushDone b :: fr) := by
  obtain ⟨hlt, hget⟩ := List.getElem?_eq_some_iff.mp hi
  have hperm : (b :: s.aios.eraseIdx i).Perm s.aios := hget ▸ List.getElem_cons_eraseIdx_perm hlt
  have hmem : b ∈ s.aios := hperm.mem_iff.mp List.mem_cons_self
  have hrun := h.active b ⟨_, .issued hmem⟩
  -- The batch is with the device, so no frame has it.
  have honly : ∀ g ∈ fr, g.batch? ≠ some b := by
    intro g hg hgb
    have hnodup := h.nodup
    rw [places, List.nodup_append] at hnodup
    exact hnodup.2.2 b (List.mem_filterMap.mpr ⟨g, hg, hgb⟩) b (List.mem_append_left _ hmem) rfl
  refine step_phase [] [.flushDone b] [.completed b] [.issued b] h hrun
    (fun t ht => ?_) (.completed List.mem_cons_self) ⟨rfl, rfl⟩
    (fun g hg => absurd hg List.not_mem_nil) (fun g hg b' hb' => ?_) (fun b' hb' => ?_)
    (note_self _ _ _) (fun o ho => note_of_ne ho _ _) ?_ rfl rfl rfl rfl rfl rfl
    (fun o f hf => absurd hf List.not_mem_nil) List.not_mem_nil
  · cases ht with
    | starting osrs hf => exact absurd rfl (honly _ hf)
    | issued => rfl
    | completed hf => exact absurd rfl (honly _ hf)
  · rw [List.mem_singleton.mp hg] at hb'
    exact (Option.some.inj hb').symm
  · rw [← hperm.mem_iff, List.mem_cons, or_iff_right hb']
    exact Iff.rfl
  · show (b :: (fr.filterMap Frame.batch? ++ (s.aios.eraseIdx i ++ _))).Perm
      (fr.filterMap Frame.batch? ++ (s.aios ++ _))
    exact List.perm_middle.symm.trans ((hperm.append_right _).append_left _)

/-- `flush_done` finds the batch running. -/
theorem running_flushDone (h : Inv s (.flushDone b :: rest)) :
    s.running (s.batch b).osr = some b := h.active b ⟨_, .completed List.mem_cons_self⟩

/-- The running batch is done with. -/
theorem step_flushDone (h : Inv s (.flushDone b :: rest)) :
    Inv { s with running := Function.update s.running (s.batch b).osr none }
      (.flushPush b (s.pending (s.batch b).osr).isSome :: rest) := by
  have hrun := h.running_flushDone
  obtain ⟨hrest, haios⟩ := h.only rfl
  -- No frame is left that speaks of the batch.
  have hgone : ∀ t s', s'.aios = s.aios →
      ¬ Phase s' (.flushPush b (s.pending (s.batch b).osr).isSome :: rest) b t := by
    intro t s' hs' ht
    cases ht with
    | starting osrs hf =>
      rcases List.mem_cons.mp hf with heq | hf
      · cases heq
      · exact hrest _ hf rfl
    | issued hb => exact haios (hs' ▸ hb)
    | completed hf =>
      rcases List.mem_cons.mp hf with heq | hf
      · cases heq
      · exact hrest _ hf rfl
  -- Clause by clause: the sequencer runs nothing now.
  refine ⟨h.failed, h.nodup, h.mem, fun b' => ?_, fun o => ?_, fun o ho => ?_, fun hne => ?_⟩
  · rintro ⟨t, ht⟩
    show Function.update s.running (s.batch b).osr none (s.batch b').osr = some b'
    by_cases hb : b' = b
    · subst hb
      exact absurd ht (hgone t _ rfl)
    · have hact := h.active b' ⟨t, ht.replace [_] [.flushDone b] (fun g hg => by
        rw [List.mem_singleton.mp hg]
        exact fun heq => hb (Option.some.inj heq).symm) id⟩
      have hosr : (s.batch b').osr ≠ (s.batch b).osr := by
        intro heq
        rw [heq, hrun] at hact
        exact hb (Option.some.inj hact).symm
      rwa [Function.update_of_ne hosr]
  · obtain ⟨bs, hh⟩ := h.history o
    -- Its history ends with what the batch wrote.
    by_cases ho : o = (s.batch b).osr
    · subst ho
      obtain ⟨⟨t, hw, -, hr⟩, htxcs, hnodup, howned⟩ := hh
      have ht : t = written b := by
        cases hr b hrun with
        | starting osrs hf =>
          rcases List.mem_cons.mp hf with heq | hf
          · cases heq
          · exact absurd rfl (hrest _ hf)
        | issued hb => exact absurd hb haios
        | completed => rfl
      have hlist : (bs ++ [b]) ++ ((none : Option ℕ).toList ++ (s.pending (s.batch b).osr).toList) =
          bs ++ ((s.running (s.batch b).osr).toList ++ (s.pending (s.batch b).osr).toList) := by
        rw [hrun, List.append_assoc]
        rfl
      refine ⟨bs ++ [b], ⟨[], ?_, fun _ => rfl, fun b' hb' => ?_⟩, ?_, ?_, ?_⟩
      · rw [List.append_nil, List.flatMap_append, List.flatMap_singleton, ← ht]
        exact hw
      · change Function.update s.running _ none _ = some b' at hb'
        rw [Function.update_self] at hb'
        cases hb'
      all_goals
        show _
        simp only [Function.update_self]
        rw [hlist]
        assumption
    · refine ⟨bs, hh.same rfl (Function.update_of_ne ho _ _) rfl (fun _ _ _ => rfl)
        (fun _ => Iff.rfl) fun b' t hb' ht => ?_⟩
      refine ht.replace [_] [_] (fun g hg => ?_) id
      rw [List.mem_singleton.mp hg]
      intro heq
      obtain rfl := Option.some.inj heq
      exact ho ((hh.owned _).mp (by simp [hb'])).1.symm
  · show Function.update s.running (s.batch b).osr none o ≠ none ∨ _
    by_cases heq : o = (s.batch b).osr
    · subst heq
      exact .inr (.inr ⟨_, List.mem_cons_self, Option.isSome_iff_ne_none.mpr ho, rfl⟩)
    · rw [Function.update_of_ne heq]
      rcases h.waiting o ho with hr | hq | ⟨f, hf, hs⟩
      · exact .inl hr
      · exact .inr (.inl hq)
      · rcases List.mem_cons.mp hf with rfl | hf
        · exact absurd hs id
        · refine .inr (.inr ⟨f, List.mem_cons_of_mem _ hf, ?_⟩)
          cases f <;> exact hs
  · have hin := (List.mem_cons.mp (h.queue hne)).resolve_left fun heq => by cases heq
    exact List.mem_cons_of_mem _ hin

/-- The batch goes to the done queue, and the sequencer to the other one when it has a pending
batch. -/
theorem step_flushPush {p : Bool} (h : Inv s (.flushPush b p :: rest)) :
    Inv { s with
        done := s.done ++ [b]
        queue := if p then s.queue ++ [(s.batch b).osr] else s.queue }
      ((if p then [.trySubmit] else []) ++ rest) := by
  have hnone : (if p then [Frame.trySubmit] else []).filterMap Frame.batch? = [] := by
    cases p <;> rfl
  refine h.moved _ _ s.stable s.taken ?_ (fun g hg hne => ?_) (fun o _ _ ho => ?_) fun hne => ?_
  · show (List.filterMap Frame.batch? (_ ++ rest) ++
      (s.aios ++ ((s.done ++ [b]) ++ (s.stable ++ s.taken)))).Perm
      (b :: (rest.filterMap Frame.batch? ++ (s.aios ++ (s.done ++ (s.stable ++ s.taken)))))
    rw [List.filterMap_append, hnone, List.nil_append]
    -- The batch goes past the frames, the device and the done queue.
    have hmid : ((rest.filterMap Frame.batch? ++ (s.aios ++ s.done)) ++
        b :: (s.stable ++ s.taken)).Perm
        (b :: ((rest.filterMap Frame.batch? ++ (s.aios ++ s.done)) ++ (s.stable ++ s.taken))) :=
      List.perm_middle
    simpa only [List.append_assoc, List.singleton_append] using hmid
  · have htry : g ∉ (if p then [Frame.trySubmit] else []) := by
      intro hin
      cases p
      · exact List.not_mem_nil hin
      · exact hg (List.mem_singleton.mp hin ▸ rfl)
    rw [List.mem_append, List.mem_cons, or_iff_right htry, or_iff_right (hne b p)]
  · rcases ho with hq | ⟨f, hf, hs⟩
    · left
      cases p
      · exact hq
      · exact List.mem_append_left _ hq
    · rcases List.mem_cons.mp hf with rfl | hf
      · obtain ⟨rfl, rfl⟩ := hs
        exact .inl (List.mem_append_right _ (List.mem_singleton_self _))
      · exact .inr ⟨f, List.mem_append_right _ hf, hs⟩
  · cases p
    · have hin := (List.mem_cons.mp (h.queue hne)).resolve_left fun heq => by cases heq
      exact List.mem_append_right _ hin
    · exact List.mem_cons_self

/-! ## The other steps -/

/-- A call of `try_submit` begins. -/
theorem step_call (h : Inv s fr) : Inv s (.trySubmit :: fr) := by
  refine h.idle s.queue rfl (fun g hg => ?_) (fun o _ _ ho => ?_) fun _ => List.mem_cons_self
  · rw [List.mem_cons, or_iff_right]
    rintro rfl
    exact hg rfl
  · exact ho.imp_right fun ⟨f, hf, hs⟩ => ⟨f, List.mem_cons_of_mem _ hf, hs⟩

/-- The done batches become stable. -/
theorem step_flushDoneToStable (h : Inv s fr) :
    Inv { s with stable := s.stable ++ s.done, done := [] } fr := by
  refine h.moved s.queue _ _ s.taken (List.Perm.append_left _ (List.Perm.append_left _ ?_))
    (fun _ _ _ => Iff.rfl) (fun _ _ _ => id) h.queue
  show ((s.stable ++ s.done) ++ s.taken).Perm (s.done ++ (s.stable ++ s.taken))
  rw [← List.append_assoc]
  exact List.perm_append_comm.append_right _

/-- The stable batches are handed on. -/
theorem step_swapStableQueue (h : Inv s fr) :
    Inv { s with taken := s.taken ++ s.stable, stable := [] } fr := by
  refine h.moved s.queue s.done _ _ (List.Perm.append_left _ (List.Perm.append_left _
    (List.Perm.append_left _ ?_))) (fun _ _ _ => Iff.rfl) (fun _ _ _ => id) h.queue
  show (s.taken ++ s.stable).Perm (s.stable ++ s.taken)
  exact List.perm_append_comm

/-- A batch that is somewhere has been made. -/
theorem lt_of_phase (h : Inv s fr) {tail : List Event} (ht : Phase s fr b tail) :
    b < s.batches := by
  refine ((h.mem b).mp (List.mem_append.mpr ?_)).1
  cases ht with
  | starting osrs hf => exact .inl (List.mem_filterMap.mpr ⟨_, hf, rfl⟩)
  | issued hb => exact .inr (List.mem_append_left _ hb)
  | completed hf => exact .inl (List.mem_filterMap.mpr ⟨_, hf, rfl⟩)

/-- The sequencer gets a pending batch and comes to the queue, unless it has one running. -/
theorem step_withPending (h : Inv s fr) (o : ℕ) :
    Inv { s.withPending o with
        queue := if s.running o = none then s.queue ++ [o] else s.queue } (.trySubmit :: fr) := by
  have h := h.step_call
  unfold Core.withPending
  cases hp : s.pending o with
  -- It has a pending batch already.
  | some b =>
    refine h.idle _ rfl (fun g hg => Iff.rfl) (fun o' _ _ ho' => ?_) fun _ => List.mem_cons_self
    refine ho'.imp_left fun hq => ?_
    split
    · exact List.mem_append_left _ hq
    · exact hq
  -- It gets a new one, with the next name.
  | none =>
    have hbatch : ∀ b, b < s.batches →
        Function.update s.batch s.batches ⟨o, []⟩ b = s.batch b := fun b hb =>
      Function.update_of_ne hb.ne ..
    refine ⟨h.failed, h.nodup, fun b => (h.mem b).trans ?_, fun b ⟨tail, ht⟩ => ?_, fun o' => ?_,
      fun o' ho' => ?_, fun _ => List.mem_cons_self⟩
    · show b < s.batches ∧ _ ↔ b < s.batches + 1 ∧ Function.update s.pending o (some s.batches)
        (Function.update s.batch s.batches ⟨o, []⟩ b).osr ≠ some b
      rcases lt_trichotomy b s.batches with hb | rfl | hb
      · rw [hbatch b hb]
        by_cases ho : (s.batch b).osr = o
        · rw [ho, Function.update_self, hp]
          simp [hb, hb.ne', Nat.lt_succ_of_lt hb]
        · rw [Function.update_of_ne ho]
          simp [hb, Nat.lt_succ_of_lt hb]
      · simp
      · simp [hb.not_gt, hb.not_ge]
    · have hold : Phase s (.trySubmit :: fr) b tail := ht.same rfl
      show s.running (Function.update s.batch s.batches ⟨o, []⟩ b).osr = some b
      rw [hbatch b (h.lt_of_phase hold)]
      exact h.active b ⟨tail, hold⟩
    · obtain ⟨bs, hh⟩ := h.history o'
      refine ⟨bs, ?_⟩
      by_cases ho : o' = o
      · subst ho
        obtain ⟨⟨tail, hw, hn, hr⟩, htxcs, hnodup, howned⟩ := hh
        rw [hp, Option.toList_none, List.append_nil] at htxcs hnodup howned
        -- The new batch has the last address, and no transaction.
        have hlist : bs ++ ((s.running o').toList ++ (some s.batches).toList) =
            (bs ++ (s.running o').toList) ++ [s.batches] := (List.append_assoc _ _ _).symm
        refine ⟨⟨tail, hw, hn, fun b hb => ?_⟩, ?_, ?_, ?_⟩
        · exact (hr b hb).same rfl
        all_goals
          show _
          simp only [Function.update_self]
          rw [hlist]
        · rw [List.flatMap_append, List.flatMap_singleton, Function.update_self, List.append_nil]
          refine htxcs.trans (List.flatMap_congr fun b hb => ?_)
          rw [hbatch b ((howned b).mp hb).2]
        · refine List.nodup_append.mpr ⟨hnodup, List.nodup_singleton _, fun b hb b' hb' => ?_⟩
          rw [List.mem_singleton.mp hb']
          exact ((howned b).mp hb).2.ne
        · intro b
          rw [List.mem_append, List.mem_singleton, howned]
          rcases lt_trichotomy b s.batches with hb | rfl | hb
          · simp [hb, hb.ne, Nat.lt_succ_of_lt hb]
          · simp
          · simp [hb.not_gt, hb.ne', hb.not_ge]
      · refine hh.same rfl rfl (Function.update_of_ne ho _ _) (fun b hb _ => hbatch b hb)
          (fun b => ?_) fun b tail _ ht => ht.same rfl
        show (Function.update s.batch s.batches ⟨o, []⟩ b).osr = o' ∧ b < s.batches + 1 ↔ _
        rcases lt_trichotomy b s.batches with hb | rfl | hb
        · simp [hbatch b hb, hb, Nat.lt_succ_of_lt hb]
        · simp [Ne.symm ho]
        · simp [hb.not_gt, hb.not_ge]
    · show s.running o' ≠ none ∨ o' ∈ (if s.running o = none then s.queue ++ [o] else s.queue) ∨ _
      by_cases ho : o' = o
      · subst ho
        by_cases hr : s.running o' = none
        · rw [if_pos hr]
          exact .inr (.inl (List.mem_append_right _ (List.mem_singleton_self _)))
        · exact .inl hr
      · change Function.update s.pending o (some s.batches) o' ≠ none at ho'
        rw [Function.update_of_ne ho] at ho'
        rcases h.waiting o' ho' with hr | hq | ⟨f, hf, hs⟩
        · exact .inl hr
        · refine .inr (.inl ?_)
          split
          · exact List.mem_append_left _ hq
          · exact hq
        · refine .inr (.inr ⟨f, hf, ?_⟩)
          cases f with
          | flushPush b p =>
            have hin : b ∈ places s (.trySubmit :: fr) :=
              List.mem_append_left _ (List.mem_filterMap.mpr ⟨_, hf, rfl⟩)
            refine ⟨hs.1, ?_⟩
            show (Function.update s.batch s.batches ⟨o, []⟩ b).osr = o'
            rw [hbatch b ((h.mem b).mp hin).1, hs.2]
          | _ => exact hs

/-- A pending batch leaves the one that runs. -/
@[simp] theorem withPending_running (s : Core) (o : ℕ) :
    (s.withPending o).running = s.running := by
  unfold Core.withPending
  split <;> rfl

/-- A pending batch leaves the queue. -/
@[simp] theorem withPending_queue (s : Core) (o : ℕ) : (s.withPending o).queue = s.queue := by
  unfold Core.withPending
  split <;> rfl

/-- There is a pending batch to put the transaction into. -/
theorem withPending_pending (s : Core) (o : ℕ) : ∃ b, (s.withPending o).pending o = some b := by
  unfold Core.withPending
  cases hp : s.pending o with
  | none => exact ⟨_, Function.update_self ..⟩
  | some b => exact ⟨b, hp⟩

/-- A transaction is put into the pending batch. -/
theorem step_addTxc (h : Inv s fr) (hp : s.pending o = some b) (x : ℕ) :
    Inv (Core.note { s with
      batch := Function.update s.batch b { s.batch b with txcs := (s.batch b).txcs ++ [x] } }
        o (.queued x)) fr := by
  have hosr : ∀ b', (Function.update s.batch b { s.batch b with txcs := (s.batch b).txcs ++ [x] }
      b').osr = (s.batch b').osr := by
    intro b'
    by_cases hb : b' = b
    · rw [hb, Function.update_self]
    · rw [Function.update_of_ne hb]
  refine ⟨h.failed, h.nodup, fun b' => (h.mem b').trans ?_, fun b' ⟨tail, ht⟩ => ?_, fun o' => ?_,
    fun o' ho' => ?_, h.queue⟩
  · show _ ↔ b' < s.batches ∧ s.pending (Function.update s.batch b _ b').osr ≠ some b'
    rw [hosr, Started]
  · show s.running (Function.update s.batch b _ b').osr = some b'
    rw [hosr]
    exact h.active b' ⟨tail, ht.same rfl⟩
  · obtain ⟨bs, hh⟩ := h.history o'
    refine ⟨bs, ?_⟩
    by_cases ho : o' = o
    · subst ho
      obtain ⟨⟨tail, hw, hn, hr⟩, htxcs, hnodup, howned⟩ := hh
      refine ⟨⟨tail, ?_, hn, fun b' hb' => (hr b' hb').same rfl⟩, ?_, hnodup, fun b' => ?_⟩
      · rw [note_self, writes, List.filter_append]
        exact (List.append_nil _).trans hw
      · -- The pending batch is the last, and no other one changes.
        have hlist : bs ++ ((s.running o').toList ++ (some b).toList) =
            (bs ++ (s.running o').toList) ++ [b] := (List.append_assoc _ _ _).symm
        show _ = List.flatMap (fun b' => (Function.update s.batch b _ b').txcs)
          (bs ++ ((s.running o').toList ++ (s.pending o').toList))
        rw [hp, hlist] at htxcs hnodup
        rw [note_self, queuedTxcs, List.filterMap_append, hp, hlist, List.flatMap_append,
          List.flatMap_singleton, Function.update_self, ← List.append_assoc]
        refine congrArg (· ++ [x]) (htxcs.trans ?_)
        rw [List.flatMap_append, List.flatMap_singleton]
        refine congrArg (· ++ _) (List.flatMap_congr fun b' hb' => ?_)
        have hne : b' ≠ b := (List.nodup_append.mp hnodup).2.2 b' hb' b (List.mem_singleton_self b)
        rw [Function.update_of_ne hne]
      · show _ ↔ (Function.update s.batch b _ b').osr = o' ∧ b' < s.batches
        rw [hosr]
        exact howned b'
    · refine hh.same (note_of_ne ho _ _) rfl rfl (fun b' _ hb' => ?_)
        (fun b' => and_congr_left' (Eq.congr_left (hosr b')))
        fun b' tail _ ht => ht.same rfl
      have hne : b' ≠ b := by
        rintro rfl
        exact ho (hb'.symm.trans (h.pending hp).1)
      exact Function.update_of_ne hne ..
  · rcases h.waiting o' ho' with hr | hq | ⟨f, hf, hs⟩
    · exact .inl hr
    · exact .inr (.inl hq)
    · refine .inr (.inr ⟨f, hf, ?_⟩)
      cases f with
      | flushPush b' p => exact ⟨hs.1, (hosr b').trans hs.2⟩
      | _ => exact hs

/-- A transaction is queued. -/
theorem step_queue (h : Inv s fr) (o x : ℕ) : Inv (s.queueTxc o x) (.trySubmit :: fr) := by
  obtain ⟨b, hb⟩ := withPending_pending s o
  have hstep := (h.step_withPending o).step_addTxc hb x
  simpa only [Core.queueTxc, hb, withPending_running, withPending_queue] using hstep

/-- The next step of a call. -/
theorem next {f : Frame} (h : Inv s (f :: rest)) (pendingAios : Bool) :
    Inv (s.next pendingAios f).1 ((s.next pendingAios f).2 ++ rest) := by
  cases f with
  | trySubmit => exact h.step_trySubmit
  | submitLoop osrs =>
    cases osrs with
    | nil => exact h.step_loopEnd
    | cons o osrs =>
      simp only [Core.next]
      split
      next b hp hr => exact h.step_start hp hr
      next hno =>
        refine h.step_skip ?_
        by_contra hboth
        push Not at hboth
        obtain ⟨b, hb⟩ := Option.ne_none_iff_exists'.mp hboth.1
        exact hno b hb hboth.2
  | issue b osrs =>
    cases pendingAios
    · exact h.step_issue_none
    · exact h.step_issue
  | flushDone b =>
    simp only [Core.next, if_pos h.running_flushDone]
    exact h.step_flushDone
  | flushPush b hasPending => exact h.step_flushPush

end Inv

/-! ## Runs -/

/-- The frames of a call, and those of the other calls. -/
theorem flatten_perm {calls : List (List Frame)} {i : ℕ} {frames : List Frame}
    (hi : calls[i]? = some frames) :
    calls.flatten.Perm (frames ++ (calls.eraseIdx i).flatten) ∧
      ∀ frames', (calls.set i frames').flatten.Perm (frames' ++ (calls.eraseIdx i).flatten) := by
  obtain ⟨hlt, hget⟩ := List.getElem?_eq_some_iff.mp hi
  constructor
  · have hperm := (List.getElem_cons_eraseIdx_perm hlt).symm.flatten
    rwa [hget] at hperm
  · exact fun frames' => (List.set_perm_cons_eraseIdx hlt frames').flatten

/-- A call takes its next step when it has one to take. -/
theorem act_step {w w' : Writer} {i : ℕ} {p : Bool} : act w (.step i p) = some w' ↔
    ∃ f frames, w.calls[i]? = some (f :: frames) ∧
      w' = ⟨(w.core.next p f).1, w.calls.set i ((w.core.next p f).2 ++ frames)⟩ := by
  rcases hi : w.calls[i]? with _ | ⟨_ | ⟨f, frames⟩⟩
  · simp [act, hi]
  · simp [act, hi]
  · simp [act, hi, eq_comm]

/-- The device completes writes that it has. -/
theorem act_aioDone {w w' : Writer} {i : ℕ} : act w (.aioDone i) = some w' ↔
    ∃ b, w.core.aios[i]? = some b ∧
      w' = ⟨{ w.core with aios := w.core.aios.eraseIdx i }.note (w.core.batch b).osr (.completed b),
        w.calls ++ [[.flushDone b]]⟩ := by
  rcases hi : w.core.aios[i]? with _ | b
  · simp [act, hi]
  · simp [act, hi, eq_comm]

/-- What one action keeps. -/
theorem Inv.act {w w' : Writer} {a : Action} (h : Inv w.core w.calls.flatten)
    (ha : act w a = some w') : Inv w'.core w'.calls.flatten := by
  cases a with
  | queue o x =>
    obtain rfl := Option.some.inj ha
    exact (h.step_queue o x).perm (by simpa using (List.perm_append_singleton _ _).symm)
  | trySubmit =>
    obtain rfl := Option.some.inj ha
    exact h.step_call.perm (by simpa using (List.perm_append_singleton _ _).symm)
  | step i pendingAios =>
    obtain ⟨f, frames, hi, rfl⟩ := act_step.mp ha
    obtain ⟨hold, hnew⟩ := flatten_perm hi
    have hfirst : Inv w.core (f :: (frames ++ (w.calls.eraseIdx i).flatten)) := h.perm hold
    refine Inv.perm (hfirst.next pendingAios) ?_
    rw [← List.append_assoc]
    exact (hnew _).symm
  | aioDone i =>
    obtain ⟨b, hi, rfl⟩ := act_aioDone.mp ha
    exact (h.step_aioDone hi).perm (by simpa using (List.perm_append_singleton _ _).symm)
  | flushDoneToStable =>
    obtain rfl := Option.some.inj ha
    exact h.step_flushDoneToStable
  | swapStableQueue =>
    obtain rfl := Option.some.inj ha
    exact h.step_swapStableQueue

/-- The writer as it is constructed. -/
theorem inv_init : Inv {} [] where
  failed := rfl
  nodup := List.nodup_nil
  mem b := iff_of_false List.not_mem_nil fun h => absurd h.1 (Nat.not_lt_zero b)
  active b := by
    rintro ⟨tail, ⟨osrs, hf⟩ | hb | hf⟩
    · exact absurd hf List.not_mem_nil
    · exact absurd hb List.not_mem_nil
    · exact absurd hf List.not_mem_nil
  history o := ⟨[], ⟨[], rfl, fun _ => rfl, fun b hb => by cases hb⟩, rfl, List.nodup_nil,
    fun b => iff_of_false List.not_mem_nil fun h => absurd h.2 (Nat.not_lt_zero b)⟩
  waiting o ho := absurd rfl ho
  queue h := absurd rfl h

/-- What every run keeps. -/
theorem inv_exec {as : List Action} {w : Writer} (h : exec act {} as = some w) :
    Inv w.core w.calls.flatten := by
  have hmeets : Meets act (fun _ _ => True) {} as := meets_of_forall (fun _ _ => trivial) _ as
  have hstep : ∀ w a w', Inv w.core w.calls.flatten → True → act w a = some w' →
      Inv w'.core w'.calls.flatten := fun _ _ _ hw _ => hw.act
  exact exec_invariant hstep as {} w inv_init hmeets h

/-! ## No batch is stranded -/

/-- The work that is left to a frame: its steps, and those of the frames it leads to. -/
def Frame.work : Frame → ℕ
  | .trySubmit => 2
  | .submitLoop osrs => 1 + osrs.length
  | .issue _ osrs => 8 + osrs.length
  | .flushDone _ => 5
  | .flushPush _ _ => 4

/-- The pending batches. -/
def pendings (s : Core) : Finset ℕ :=
  (Finset.range s.batches).filter fun b => s.pending (s.batch b).osr = some b

/-- The work that is left. -/
def work (s : Core) (fr : List Frame) : ℕ :=
  7 * (pendings s).card + 6 * s.aios.length + (fr.map Frame.work).sum + s.queue.length

/-- The order of the frames does not matter to the work. -/
theorem work_perm (h : fr.Perm fr') : work s fr = work s fr' := by
  unfold work
  rw [(h.map Frame.work).sum_eq]

/-- The work left to the frames on top of the others. -/
theorem work_append (fs : List Frame) : work s (fs ++ rest) = 7 * (pendings s).card +
    6 * s.aios.length + ((fs.map Frame.work).sum + (rest.map Frame.work).sum) + s.queue.length := by
  rw [work, List.map_append, List.sum_append]

/-- A batch that is started is pending no more. -/
theorem Inv.card_pendings (h : Inv s fr) (hp : s.pending o = some b) :
    (pendings { s with
      running := Function.update s.running o (some b)
      pending := Function.update s.pending o none }).card < (pendings s).card := by
  obtain ⟨hosr, hlt⟩ := h.pending hp
  refine Finset.card_lt_card (Finset.ssubset_iff_subset_ne.mpr ⟨fun b' hb' => ?_, fun heq => ?_⟩)
  · obtain ⟨hin, hb'⟩ := Finset.mem_filter.mp hb'
    refine Finset.mem_filter.mpr ⟨hin, ?_⟩
    change Function.update s.pending o none (s.batch b').osr = some b' at hb'
    by_cases ho : (s.batch b').osr = o
    · rw [ho, Function.update_self] at hb'
      cases hb'
    · rwa [Function.update_of_ne ho] at hb'
  · have hin : b ∈ pendings s :=
      Finset.mem_filter.mpr ⟨Finset.mem_range.mpr hlt, by rw [hosr, hp]⟩
    rw [← heq] at hin
    have hb := (Finset.mem_filter.mp hin).2
    change Function.update s.pending o none (s.batch b).osr = some b at hb
    rw [hosr, Function.update_self] at hb
    cases hb

/-- Each step of a call leaves less work. -/
theorem Inv.work_next (h : Inv s (f :: rest)) (pendingAios : Bool) :
    work (s.next pendingAios f).1 ((s.next pendingAios f).2 ++ rest) < work s ([f] ++ rest) := by
  rw [work_append, work_append]
  -- One case for the frame on top, in the order of the call.
  cases f with
  | trySubmit =>
    have hp : pendings (s.next pendingAios .trySubmit).1 = pendings s := rfl
    rw [hp]
    simp only [Core.next, Frame.work, List.map_cons, List.map_nil, List.sum_cons, List.sum_nil,
      List.length_nil]
    omega
  | submitLoop osrs =>
    cases osrs with
    | nil =>
      simp only [Core.next, Frame.work, List.map_cons, List.map_nil, List.sum_cons, List.sum_nil,
        List.length_nil]
      omega
    | cons o osrs =>
      simp only [Core.next]
      split
      next b hp hr =>
        have hcard := h.card_pendings hp
        simp only [Frame.work, List.map_cons, List.map_nil, List.sum_cons, List.sum_nil,
          List.length_cons]
        omega
      next =>
        simp only [Frame.work, List.map_cons, List.map_nil, List.sum_cons, List.sum_nil,
          List.length_cons]
        omega
  | issue b osrs =>
    cases pendingAios
    · have hp : pendings (s.next false (.issue b osrs)).1 = pendings s := rfl
      rw [hp]
      simp only [Core.next, Core.note, Frame.work, List.map_cons, List.map_nil, List.sum_cons,
        List.sum_nil, Bool.false_eq_true, if_false]
      omega
    · have hp : pendings (s.next true (.issue b osrs)).1 = pendings s := rfl
      rw [hp]
      simp only [Core.next, Core.note, Frame.work, List.map_cons, List.map_nil, List.sum_cons,
        List.sum_nil, List.length_cons, if_true]
      omega
  | flushDone b =>
    simp only [Core.next, if_pos h.running_flushDone]
    have hp : pendings { s with running := Function.update s.running (s.batch b).osr none } =
      pendings s := rfl
    rw [hp]
    simp only [Frame.work, List.map_cons, List.map_nil, List.sum_cons, List.sum_nil]
    omega
  | flushPush b hasPending =>
    have hp : pendings (s.next pendingAios (.flushPush b hasPending)).1 = pendings s := rfl
    rw [hp]
    cases hasPending
    · simp only [Core.next, Frame.work, List.map_cons, List.map_nil, List.sum_cons, List.sum_nil,
        Bool.false_eq_true, if_false]
      omega
    · simp only [Core.next, Frame.work, List.map_cons, List.map_nil, List.sum_cons, List.sum_nil,
        List.length_append, List.length_cons, List.length_nil, if_true]
      omega

/-- What is under way goes on: a call takes its next step, or the device completes writes. -/
def Action.goesOn : Action → Prop
  | .step _ _ | .aioDone _ => True
  | _ => False

/-- What goes on leaves less work. -/
theorem Inv.work_act {w w' : Writer} {a : Action} (h : Inv w.core w.calls.flatten)
    (hgo : a.goesOn) (ha : DeferredWriter.act w a = some w') :
    work w'.core w'.calls.flatten < work w.core w.calls.flatten := by
  cases a with
  | step i pendingAios =>
    obtain ⟨f, frames, hi, rfl⟩ := act_step.mp ha
    obtain ⟨hold, hnew⟩ := flatten_perm hi
    have hfirst : Inv w.core (f :: (frames ++ (w.calls.eraseIdx i).flatten)) := h.perm hold
    show work _ (w.calls.set i _).flatten < _
    rw [work_perm (hnew _), work_perm hold, List.append_assoc]
    exact hfirst.work_next pendingAios
  | aioDone i =>
    obtain ⟨b, hi, rfl⟩ := act_aioDone.mp ha
    have hlen : (w.core.aios.eraseIdx i).length + 1 = w.core.aios.length :=
      List.length_eraseIdx_add_one (List.getElem?_eq_some_iff.mp hi).1
    have hp : pendings ({ w.core with aios := w.core.aios.eraseIdx i }.note
      (w.core.batch b).osr (.completed b)) = pendings w.core := rfl
    unfold work
    rw [hp]
    simp only [Core.note, List.flatten_append, List.flatten_singleton,
      List.map_append, List.sum_append, List.map_cons, List.map_nil, List.sum_cons, List.sum_nil,
      Frame.work]
    omega
  | _ => exact absurd hgo id

/-- What goes on comes to an end. -/
theorem Inv.work_exec : ∀ (as : List Action) {w w' : Writer}, Inv w.core w.calls.flatten →
    (∀ a ∈ as, a.goesOn) → exec DeferredWriter.act w as = some w' →
    work w'.core w'.calls.flatten + as.length ≤ work w.core w.calls.flatten
  | [], w, w', _, _, h => by
    obtain rfl := Option.some.inj h
    exact le_refl _
  | a :: as, w, w', hw, hgo, h => by
    obtain ⟨t, ht, hrun⟩ := exec_cons.mp h
    have hlt := hw.work_act (hgo a List.mem_cons_self) ht
    have hle := work_exec as (hw.act ht) (fun a ha => hgo a (List.mem_cons_of_mem _ ha)) hrun
    rw [List.length_cons]
    omega

/-- Nothing goes on. -/
def Idle (w : Writer) : Prop := ∀ a, a.goesOn → act w a = none

/-- An idle writer is in no call. -/
theorem Idle.flatten {w : Writer} (h : Idle w) : w.calls.flatten = [] := by
  refine List.flatten_eq_nil_iff.mpr fun frames hf => ?_
  obtain ⟨i, hi⟩ := List.mem_iff_getElem?.mp hf
  cases frames with
  | nil => rfl
  | cons f frames =>
    have hnone := h (.step i false) trivial
    rw [act_step.mpr ⟨f, frames, hi, rfl⟩] at hnone
    cases hnone

/-- An idle writer has no AIO in flight. -/
theorem Idle.aios {w : Writer} (h : Idle w) : w.core.aios = [] := by
  cases haios : w.core.aios with
  | nil => rfl
  | cons b aios =>
    have hnone := h (.aioDone 0) trivial
    rw [act_aioDone.mpr ⟨b, by rw [haios]; rfl, rfl⟩] at hnone
    cases hnone

/-- When nothing goes on, no sequencer has a running batch or a pending one. -/
theorem Inv.idle_slots {w : Writer} (h : Inv w.core w.calls.flatten) (hidle : Idle w) (o : ℕ) :
    w.core.running o = none ∧ w.core.pending o = none := by
  rw [hidle.flatten] at h
  have hrun : w.core.running o = none := by
    cases hr : w.core.running o with
    | none => rfl
    | some b =>
      obtain ⟨bs, ⟨tail, -, -, hphase⟩, -⟩ := h.history o
      rcases hphase b hr with ⟨osrs, hf⟩ | hb | hf
      · exact absurd hf List.not_mem_nil
      · rw [hidle.aios] at hb
        exact absurd hb List.not_mem_nil
      · exact absurd hf List.not_mem_nil
  refine ⟨hrun, ?_⟩
  by_contra hp
  rcases h.waiting o hp with hr | hq | ⟨f, hf, -⟩
  · exact hr hrun
  · exact absurd (h.queue (List.ne_nil_of_mem hq)) List.not_mem_nil
  · exact absurd hf List.not_mem_nil

/-! ## The protocol -/

/-- The batch has been taken from the pending slot, and `flush_done` has not let go of it. -/
def InFlight (w : Writer) (b : ℕ) : Prop := ∃ tail, Phase w.core w.calls.flatten b tail

/-- The batches of a sequencer in the order in which they were filled: `bs` are done with, one
after the other, and of `rest` at most the first has seen its writes submitted or completed. -/
structure Order (s : Core) (o : ℕ) (bs rest : List ℕ) : Prop where
  txcs : queuedTxcs (s.log o) = (bs ++ rest).flatMap fun b => (s.batch b).txcs
  writes : ∃ tail, writes (s.log o) = bs.flatMap written ++ tail ∧
    (tail = [] ∨ ∃ b ∈ rest.head?, tail <+: written b)
  nodup : (bs ++ rest).Nodup
  osr : ∀ b, b ∈ bs ++ rest ↔ (s.batch b).osr = o ∧ b < s.batches

/-- The protocol of the batches. -/
structure Protocol (w : Writer) : Prop where
  /-- The assertion in `flush_done` has not failed. -/
  asserted : w.core.failed = false
  /-- At most one batch of a sequencer is running. -/
  one : ∀ b b', InFlight w b → InFlight w b' → (w.core.batch b).osr = (w.core.batch b').osr → b = b'
  /-- The batches of a sequencer are issued in the order of the queue, each after the one before it
  has completed. -/
  order : ∀ o, ∃ bs rest, Order w.core o bs rest
  /-- A batch is pending or in one place, once. -/
  once : (places w.core w.calls.flatten).Nodup ∧ ∀ b < w.core.batches,
    b ∈ places w.core w.calls.flatten ↔ w.core.pending (w.core.batch b).osr ≠ some b
  /-- A pending batch without a running one is looked for. -/
  served : ∀ o, w.core.pending o ≠ none → w.core.running o = none →
    (o ∈ w.core.queue ∧ .trySubmit ∈ w.calls.flatten) ∨ ∃ f ∈ w.calls.flatten, Serves w.core o f
  /-- The calls that are under way and the device come to an end. -/
  ends : ∃ n, ∀ as w', (∀ a ∈ as, a.goesOn) → exec act w as = some w' → as.length ≤ n
  /-- Then every batch is done with, and it is in the stable queue after the next
  `flush_done_to_stable`. -/
  settled : Idle w → ∀ o, w.core.running o = none ∧ w.core.pending o = none ∧
    ∃ bs, Order w.core o bs [] ∧ ∀ w', act w .flushDoneToStable = some w' →
      ∀ b ∈ bs, b ∈ w'.core.stable ++ w'.core.taken

/-- What a sequencer has seen of a batch is the beginning of its writes. -/
theorem Phase.begins {tail : List Event} (h : Phase s fr b tail) : tail <+: written b := by
  cases h with
  | starting => exact List.nil_prefix
  | issued => exact ⟨[.completed b], rfl⟩
  | completed => exact List.prefix_refl _

/-- The history of a sequencer has its batches in order. -/
theorem History.order {bs : List ℕ} (h : History s fr o bs) :
    Order s o bs ((s.running o).toList ++ (s.pending o).toList) := by
  obtain ⟨⟨tail, hw, hn, hr⟩, htxcs, hnodup, howned⟩ := h
  refine ⟨htxcs, ⟨tail, hw, ?_⟩, hnodup, howned⟩
  cases hrun : s.running o with
  | none => exact .inl (hn hrun)
  | some b => exact .inr ⟨b, rfl, (hr b hrun).begins⟩

/-- When nothing goes on, the batches are in the queues of those that are done with. -/
theorem Inv.settled {w : Writer} (h : Inv w.core w.calls.flatten) (hidle : Idle w) (o : ℕ) :
    ∃ bs, Order w.core o bs [] ∧ ∀ w', DeferredWriter.act w .flushDoneToStable = some w' →
      ∀ b ∈ bs, b ∈ w'.core.stable ++ w'.core.taken := by
  obtain ⟨hr, hp⟩ := h.idle_slots hidle o
  obtain ⟨bs, hh⟩ := h.history o
  have horder := hh.order
  rw [hr, hp] at horder
  refine ⟨bs, horder, fun w' hw' b hb => ?_⟩
  obtain rfl := Option.some.inj hw'
  obtain ⟨hosr, hlt⟩ := (horder.osr b).mp (by simpa using hb)
  have hin : b ∈ places w.core w.calls.flatten := (h.mem b).mpr ⟨hlt, by rw [hosr, hp]; simp⟩
  rw [places, hidle.flatten, hidle.aios] at hin
  show b ∈ (w.core.stable ++ w.core.done) ++ w.core.taken
  simp only [List.filterMap_nil, List.nil_append, List.mem_append] at hin ⊢
  tauto

/-- Every run of the writer keeps to the protocol. -/
theorem protocol_of_exec (as : List Action) (w : Writer) (h : exec act {} as = some w) :
    Protocol w := by
  have hinv := inv_exec h
  constructor
  case asserted => exact hinv.failed
  case one =>
    intro b b' hb hb' hosr
    have hrun := hinv.active b hb
    rw [hosr, hinv.active b' hb'] at hrun
    exact (Option.some.inj hrun).symm
  case order =>
    intro o
    obtain ⟨bs, hh⟩ := hinv.history o
    exact ⟨bs, _, hh.order⟩
  case once =>
    refine ⟨hinv.nodup, fun b hb => (hinv.mem b).trans ?_⟩
    exact and_iff_right hb
  case served =>
    intro o hp hr
    rcases hinv.waiting o hp with hrun | hq | hserved
    · exact absurd hr hrun
    · exact .inl ⟨hq, hinv.queue (List.ne_nil_of_mem hq)⟩
    · exact .inr hserved
  case ends =>
    refine ⟨work w.core w.calls.flatten, fun is w' hgo hrun => ?_⟩
    have hwork := hinv.work_exec is hgo hrun
    omega
  case settled =>
    intro hidle o
    obtain ⟨hr, hp⟩ := hinv.idle_slots hidle o
    exact ⟨hr, hp, hinv.settled hidle o⟩

/-- Two transactions of a sequencer, the second of which is queued while the first is written. -/
theorem protocol_of_exec_two : ∃ w, exec act {} [.queue 0 7, .step 0 false, .step 0 false,
    .step 0 true, .queue 0 8, .step 1 false, .aioDone 0, .step 2 false, .step 2 false,
    .step 2 false, .step 2 false, .step 2 true] = some w ∧ Protocol w :=
  (Option.isSome_iff_exists.mp rfl).imp fun w h => ⟨h, protocol_of_exec _ w h⟩

end CxxLab.Bluestore.DeferredWriter
