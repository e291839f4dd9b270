import CxxLab.Blk.AioRuns

/-!
# What the asynchronous I/O promises

Over every run of the device: no I/O is lost or done twice, `aio_wait` comes back when all is done
and not before (`aio_wait_returns`, `aio_wait_comes_back`), the callback comes once for a batch
(`called_back_once`), and what `flush` answers for is on the medium (`flush_durable`), as long as no
`fdatasync` fails.
-/

open scoped List

namespace CxxLab.Blk.Device

variable {d d' : Device} {c t : ℕ} {callback : Bool} {size blockSize : ℕ} {priv : ℕ → Bool}
  {as : List Action}

/-- What every run reaches. -/
theorem outcome_of_run (hrun : exec (opened callback size blockSize priv) as = some d) :
    d.Outcome :=
  outcome_run (outcome_opened callback size blockSize priv) hrun

/-- A write and a read in one context: the kernel takes them one by one, the write completes before
the read is handed over, a thread waits meanwhile, and the read fails. -/
def sampleRun : List Action :=
  [.aioWrite 0 0 4096, .aioRead 0 4096 4096, .aioSubmit 0, .ioSubmit 0 1,
    .waitCall 0 7, .waitLock 0 7, .waitTest 0 7, .waitSleep 0 7,
    .complete 0 4096, .getNextCompleted 1, .deliver, .count,
    .ioSubmit 0 (-EAGAIN), .ioSubmit 0 1, .complete 0 (- EIO), .getNextCompleted 1, .deliver, .count,
    .waitLock 0 7, .flushEnter, .flushExchange, .fdatasync true]

/-- Whatever the order of the steps of all threads and of the kernel, the assertion of
`try_aio_wake` holds; and each aio that was prepared is in one place, and once: pending, in flight
or counted off. `num_pending` and `num_running` say how many there are, and the buffers of what is
in flight are there. -/
theorem aios_accounted (hrun : exec (opened callback size blockSize priv) as = some d) :
    d.fault ≠ some .noneRunning ∧ (d.fault = none → ∀ c,
      ((d.iocs c).pendingAios ++ d.inFlight c ++ d.countedOff c) ~ (d.iocs c).issued ∧
        ((d.iocs c).issued.map (·.id)).Nodup ∧
        (d.iocs c).numPending = (d.iocs c).pendingAios.length ∧
        (d.iocs c).numRunning = (d.inFlight c).length ∧
        ∀ a ∈ d.inFlight c, a ∈ (d.iocs c).runningAios) := by
  obtain ⟨hne, hsound⟩ := outcome_of_run hrun
  refine ⟨hne, fun hf c => ?_⟩
  have h := hsound hf c
  exact ⟨h.conserved, (numbered_run hrun c).2, h.pending, h.running, h.alive⟩

/-- Among others, over the sample run. -/
theorem aios_accounted_sample :
    ∃ d, exec (opened false 8192 4096 fun _ => false) sampleRun = some d ∧ d.fault = none ∧
      (d.iocs 0).numRunning = (d.inFlight 0).length := by
  obtain ⟨d, hrun, hf⟩ := Option.map_eq_some_iff.mp (by decide :
    (exec (opened false 8192 4096 fun _ => false) sampleRun).map (·.fault) = some none)
  exact ⟨d, hrun, hf, ((aios_accounted hrun).2 hf 0).2.2.2.1⟩

/-! ## Waiting -/

/-- An action of those that are at work already: the kernel, the completion thread, the threads in
`aio_wait`, and the owners that are inside `submit_batch`, whose `io_submit` takes an aio at least. No
call comes in. -/
def Action.goesOn : Action → Bool
  | .ioSubmit _ submitted => 0 < submitted
  | .complete _ _ | .getNextCompleted _ | .deliver | .count => true
  | .waitLock _ _ | .waitTest _ _ | .waitSleep _ _ => true
  | _ => false

/-- What the kernel, the completion thread and the owner of a context have to do until the
context is done with. -/
def work (d : Device) (c : ℕ) : ℕ :=
  5 * (d.iocs c).left.length + 4 * d.inKernel.length + 3 * d.events.length +
    2 * d.reaped.length + d.current.toList.length

/-- A way on. -/
def Leads (d : Device) (P : Device → Prop) : Prop :=
  ∃ bs d', (∀ b ∈ bs, b.goesOn = true) ∧ exec d bs = some d' ∧ d'.fault = none ∧ P d'

/-- One step on. -/
theorem leads_step {P : Device → Prop} {a : Action} (ha : a.goesOn = true)
    (hs : step d a = some d') (hf : d'.fault = none) (hP : P d') : d.Leads P :=
  ⟨[a], d', by simpa using ha, Runs.exec_cons.mpr ⟨d', hs, rfl⟩, hf, hP⟩

/-- One way after the other. -/
theorem Leads.trans {P Q : Device → Prop} (h : d.Leads P) (hPQ : ∀ e, e.Outcome →
    e.fault = none → (∀ c, (e.iocs c).calledBack e.callback = (d.iocs c).calledBack d.callback) →
    P e → e.Leads Q) (hd : d.Outcome) : d.Leads Q := by
  obtain ⟨bs, e, hbs, hrun, hf, hP⟩ := h
  obtain ⟨bs', d', hbs', hrun', hf', hQ⟩ :=
    hPQ e (outcome_run hd hrun) hf (calledBack_run hrun) hP
  refine ⟨bs ++ bs', d', ?_, Runs.exec_append.mpr ⟨e, hrun, hrun'⟩, hf', hQ⟩
  intro b hb
  exact (List.mem_append.mp hb).elim (hbs b) (hbs' b)

/-- Two changes of one context are one. -/
theorem modify_modify (x y : IoContext) : (d.modify c x).modify c y = d.modify c y := by
  simp only [Device.modify, Function.update_idem]

/-- A change to what is there changes nothing. -/
theorem modify_self : d.modify c (d.iocs c) = d := by
  simp only [Device.modify, Function.update_eq_self]

/-- The context that changed. -/
theorem iocs_modify (x : IoContext) : (d.modify c x).iocs c = x :=
  Function.update_self (β := fun _ => IoContext) c x d.iocs

/-- A thread gets the free mutex. -/
theorem step_waitLock (hf : d.fault = none) (hw : (d.iocs c).waits t = .locking)
    (hl : (d.iocs c).lock = none) : step d (.waitLock c t) =
      some (d.modify c { (d.iocs c).goto t .testing with lock := some t }) := by
  simp [step, hf, Device.waitLock, hw, hl]

/-- A thread sees that something runs. -/
theorem step_waitTest_on (hf : d.fault = none) (hw : (d.iocs c).waits t = .testing)
    (hr : (d.iocs c).numRunning > 0) :
    step d (.waitTest c t) = some (d.modify c ((d.iocs c).goto t .waiting)) := by
  simp [step, hf, Device.waitTest, hw, hr]

/-- A thread sees that nothing runs. -/
theorem step_waitTest_out (hf : d.fault = none) (hw : (d.iocs c).waits t = .testing)
    (hr : ¬(d.iocs c).numRunning > 0) :
    step d (.waitTest c t) = some (d.modify c { (d.iocs c).goto t .out with lock := none }) := by
  simp [step, hf, Device.waitTest, hw, hr]

/-- A thread goes to sleep. -/
theorem step_waitSleep (hf : d.fault = none) (hw : (d.iocs c).waits t = .waiting) :
    step d (.waitSleep c t) =
      some (d.modify c { (d.iocs c).goto t .asleep with lock := none }) := by
  simp [step, hf, Device.waitSleep, hw]

/-- Who holds a mutex comes to leave it, and changes nothing else. -/
theorem leads_unlock (h : d.Sound) (hf : d.fault = none) (k : ℕ) : d.Leads fun e =>
    ∃ w, e = d.modify k { d.iocs k with waits := w, lock := none } := by
  cases hl : (d.iocs k).lock with
  | none =>
    refine ⟨[], d, by simp, rfl, hf, (d.iocs k).waits, ?_⟩
    calc d = d.modify k (d.iocs k) := modify_self.symm
      _ = d.modify k { d.iocs k with lock := (d.iocs k).lock } := rfl
      _ = _ := by rw [hl]
  | some t =>
    rcases ((h k).held t).mp hl with hw | hw
    · by_cases hrun : (d.iocs k).numRunning > 0
      · have hw' : ((d.modify k ((d.iocs k).goto t .waiting)).iocs k).waits t = .waiting := by
          rw [iocs_modify]
          exact Function.update_self t _ _
        refine ⟨[.waitTest k t, .waitSleep k t], _, by simp [Action.goesOn],
          Runs.exec_cons.mpr ⟨_, step_waitTest_on hf hw hrun,
            Runs.exec_cons.mpr ⟨_, step_waitSleep hf hw', rfl⟩⟩, hf,
          Function.update (Function.update (d.iocs k).waits t .waiting) t .asleep, ?_⟩
        rw [modify_modify, iocs_modify]
        rfl
      · exact leads_step rfl (step_waitTest_out hf hw hrun) hf ⟨_, rfl⟩
    · exact leads_step rfl (step_waitSleep hf hw) hf ⟨_, rfl⟩

/-- An event that is looked at is counted off, if the mutex of its context is free. -/
theorem count_enabled {e : Event} (h : d.Sound) (hf : d.fault = none) (hcur : d.current = some e)
    (hl : (d.iocs e.1.ioc).lock = none) : ∃ x : IoContext, x.left = (d.iocs e.1.ioc).left ∧
      step d .count =
        some (Device.modify { d with current := none, counted := d.counted ++ [e] } e.1.ioc x) := by
  have hrun : (d.iocs e.1.ioc).numRunning ≥ 1 := by
    have hmem : e.1 ∈ d.inFlight e.1.ioc := by
      simp [inFlight, queued, hcur]
    have hlen := (h e.1.ioc).running
    have hpos := List.length_pos_of_mem hmem
    omega
  by_cases hcb : ((d.iocs e.1.ioc).priv && d.callback) = true
  · refine ⟨(d.iocs e.1.ioc).tryCallback, ?_, ?_⟩
    · unfold IoContext.tryCallback
      split <;> rfl
    · simp [step, hf, Device.count, hcur, hcb]
  · refine ⟨if (d.iocs e.1.ioc).numRunning = 1 then (d.iocs e.1.ioc).countOff.notifyAll
      else (d.iocs e.1.ioc).countOff, ?_, ?_⟩
    · split <;> rfl
    · simp [step, hf, Device.count, hcur, hcb, hl, IoContext.tryAioWake, hrun]

/-- The work of a context with as much left to hand over. -/
theorem work_modify {k : ℕ} {x : IoContext} (hx : x.left = (d.iocs k).left) (c : ℕ) :
    (d.modify k x).work c = d.work c := by
  have hleft : ((d.modify k x).iocs c).left = (d.iocs c).left := by
    simp only [Device.modify, Function.update_apply]
    split
    case isTrue hc => rw [hx, hc]
    case isFalse => rfl
  unfold work
  rw [hleft]
  rfl

/-- What the completion thread looks at gets counted off, perhaps after a wait for the mutex. -/
theorem leads_count {e : Event} (h : d.Sound) (hf : d.fault = none) (hcur : d.current = some e)
    (c : ℕ) : d.Leads fun d' => d'.work c < d.work c := by
  refine (leads_unlock h hf e.1.ioc).trans ?_ (h.outcome hf)
  rintro d1 hout hf1 - ⟨w, hd1⟩
  have hcur1 : d1.current = some e := by
    rw [hd1]
    exact hcur
  have hlock1 : (d1.iocs e.1.ioc).lock = none := by rw [hd1, iocs_modify]
  have hwork1 : d1.work c = d.work c := by
    rw [hd1]
    exact work_modify (x := { d.iocs e.1.ioc with waits := w, lock := none }) rfl c
  obtain ⟨x, hleft, hs⟩ := count_enabled (hout.2 hf1) hf1 hcur1 hlock1
  refine leads_step rfl hs hf1 ?_
  have hwork2 := work_modify (d := { d1 with current := none, counted := d1.counted ++ [e] })
    hleft c
  rw [hwork2, ← hwork1]
  simp [work, hcur1]

/-- The completion thread takes up the next event. -/
theorem leads_deliver {e : Event} {rest : List Event} (hf : d.fault = none)
    (hcur : d.current = none) (hreap : d.reaped = e :: rest) (c : ℕ) :
    d.Leads fun d' => d'.work c < d.work c := by
  obtain ⟨d', hd⟩ : ∃ d', d.deliver = some d' := by simp [Device.deliver, hcur, hreap]
  have hs : step d .deliver = some d' := by simp [step, hf, hd]
  simp only [Device.deliver, hcur, hreap, Option.some.injEq] at hd
  refine leads_step rfl hs (hd ▸ hf) ?_
  have hleft : (if e.bad then { d.iocs e.1.ioc with r := - EIO } else d.iocs e.1.ioc).left =
      (d.iocs e.1.ioc).left := by split <;> rfl
  have hwork : d'.work c + 1 = d.work c := by
    rw [← work_modify hleft c, ← hd]
    simp only [work, Device.modify, hcur, hreap, Option.toList_none, Option.toList_some,
      List.length_cons, List.length_nil]
    omega
  omega

/-- The completion thread gets an event. -/
theorem leads_getNextCompleted {e : Event} {rest : List Event} (hf : d.fault = none)
    (hcur : d.current = none) (hreap : d.reaped = []) (hev : d.events = e :: rest) (c : ℕ) :
    d.Leads fun d' => d'.work c < d.work c := by
  have hs : step d (.getNextCompleted 1) = some { d with events := rest, reaped := [e] } := by
    simp [step, hf, Device.getNextCompleted, hcur, hreap, hev, kMaxReap]
  refine leads_step rfl hs hf ?_
  simp only [work, hcur, hreap, hev, List.length_cons, List.length_nil]
  omega

/-- The kernel completes an aio. -/
theorem leads_complete {a : Aio} {rest : List Aio} (hf : d.fault = none)
    (hker : d.inKernel = a :: rest) (c : ℕ) : d.Leads fun d' => d'.work c < d.work c := by
  obtain ⟨d', hd⟩ : ∃ d', d.complete 0 0 = some d' := by simp [Device.complete, hker]
  have hs : step d (.complete 0 0) = some d' := by simp [step, hf, hd]
  simp only [Device.complete, hker, List.getElem?_cons_zero, List.eraseIdx_cons_zero,
    Option.some.injEq] at hd
  refine leads_step rfl hs (hd ▸ hf) ?_
  simp only [work, ← hd, hker, List.length_cons, List.length_append, List.length_nil]
  omega

/-- The owner hands over an aio. -/
theorem leads_ioSubmit (hf : d.fault = none) (hleft : (d.iocs c).left ≠ []) :
    d.Leads fun d' => d'.work c < d.work c := by
  cases hb : (d.iocs c).batch with
  | none => exact absurd (by simp [IoContext.left, hb]) hleft
  | some b =>
    have hl : (d.iocs c).left = b.left := by simp [IoContext.left, hb]
    have hpos : 0 < b.left.length := List.length_pos_of_ne_nil (hl ▸ hleft)
    have hturn : b.turn 1 = .ok { b with left := b.left.drop 1, r := b.r + 1 } := rfl
    obtain ⟨d', hd⟩ : ∃ d', d.ioSubmit c 1 = some d' := by
      simp only [Device.ioSubmit, hb, hturn]
      rw [if_neg (by omega)]
      exact ⟨_, rfl⟩
    have hs : step d (.ioSubmit c 1) = some d' := by simp [step, hf, hd]
    simp only [Device.ioSubmit, hb, hturn] at hd
    rw [if_neg (by omega)] at hd
    have hd := Option.some.inj hd
    refine leads_step rfl hs (hd ▸ hf) ?_
    have hleft' : (d'.iocs c).left = b.left.drop 1 := by
      rw [← hd]
      exact (congrArg IoContext.left (iocs_modify _)).trans
        (left_batch (d.iocs c) { b with left := b.left.drop 1, r := b.r + 1 })
    have hker : d'.inKernel.length = d.inKernel.length + 1 := by
      rw [← hd, List.length_append, List.length_take]
      omega
    have hrest : d'.events = d.events ∧ d'.reaped = d.reaped ∧ d'.current = d.current :=
      hd ▸ ⟨rfl, rfl, rfl⟩
    simp only [work, hleft', hker, hrest.1, hrest.2.1, hrest.2.2, hl, List.length_drop]
    omega

/-- As long as there is work, some of it gets done: an aio moves on by one place. -/
theorem leads_less (h : d.Sound) (hf : d.fault = none) (c : ℕ) (hw : 0 < d.work c) :
    d.Leads fun e => e.work c < d.work c := by
  cases hcur : d.current with
  | some e => exact leads_count h hf hcur c
  | none =>
    cases hreap : d.reaped with
    | cons e rest => exact leads_deliver hf hcur hreap c
    | nil =>
      cases hev : d.events with
      | cons e rest => exact leads_getNextCompleted hf hcur hreap hev c
      | nil =>
        cases hker : d.inKernel with
        | cons a rest => exact leads_complete hf hker c
        | nil =>
          refine leads_ioSubmit hf fun hleft => ?_
          simp [work, hcur, hreap, hev, hker, hleft] at hw

/-- A context comes to have nothing in flight. -/
theorem leads_done (c : ℕ) : ∀ n (d : Device), d.work c = n → d.Sound → d.fault = none →
    d.Leads fun e => e.work c = 0
  | 0, d, hn, _, hf => ⟨[], d, by simp, rfl, hf, hn⟩
  | n + 1, d, hn, h, hf => by
    refine (leads_less h hf c (by omega)).trans ?_ (h.outcome hf)
    intro e hout hfe _ hlt
    exact leads_done c (e.work c) e rfl (hout.2 hfe) hfe
  termination_by n => n
  decreasing_by omega

/-- With no work left nothing runs. -/
theorem numRunning_of_work (h : d.Sound) (hw : d.work c = 0) : (d.iocs c).numRunning = 0 := by
  have hlen : (d.iocs c).left.length = 0 ∧ d.inKernel.length = 0 ∧ d.events.length = 0 ∧
      d.reaped.length = 0 ∧ d.current.toList.length = 0 := by
    unfold work at hw
    omega
  simp only [List.length_eq_zero_iff] at hlen
  rw [(h c).running, inFlight, queued, hlen.1, hlen.2.1, hlen.2.2.1, hlen.2.2.2.1, hlen.2.2.2.2]
  rfl

/-- With nothing running, a thread in `aio_wait` comes out of it. -/
theorem leads_out (h : d.Sound) (hf : d.fault = none)
    (hc : (d.iocs c).calledBack d.callback = false) (hr : (d.iocs c).numRunning = 0) (t : ℕ) :
    d.Leads fun e => (e.iocs c).waits t = .out := by
  refine (leads_unlock h hf c).trans ?_ (h.outcome hf)
  rintro d1 hout hf1 hc1 ⟨w, hd1⟩
  have hs1 := (hout.2 hf1) c
  have hlock1 : (d1.iocs c).lock = none := by rw [hd1, iocs_modify]
  have hr1 : (d1.iocs c).numRunning = 0 := by rw [hd1, iocs_modify, hr]
  have hfree := hs1.held t
  have hawake := hs1.awake ((hc1 c).trans hc) t
  cases hw : (d1.iocs c).waits t with
  | out => exact ⟨[], d1, by simp, rfl, hf1, hw⟩
  | testing => simp [hlock1, hw] at hfree
  | waiting => simp [hlock1, hw] at hfree
  | asleep =>
    -- The last `try_aio_wake` has woken it.
    have hpos := hawake (Or.inr hw)
    omega
  | locking =>
    obtain ⟨d2, hs2⟩ : ∃ d2, step d1 (.waitLock c t) = some d2 :=
      ⟨_, step_waitLock hf1 hw hlock1⟩
    have hd2 := Option.some.inj ((step_waitLock hf1 hw hlock1).symm.trans hs2)
    have hw2 : (d2.iocs c).waits t = .testing := by
      rw [← hd2, iocs_modify]
      exact Function.update_self t _ _
    have hr2 : ¬(d2.iocs c).numRunning > 0 := by
      rw [← hd2, iocs_modify]
      exact hr1.le.not_gt
    have hf2 : d2.fault = none := hd2 ▸ hf1
    refine ⟨[.waitLock c t, .waitTest c t], _, by simp [Action.goesOn], Runs.exec_cons.mpr
      ⟨d2, hs2, Runs.exec_cons.mpr ⟨_, step_waitTest_out hf2 hw2 hr2, rfl⟩⟩, hf2, ?_⟩
    show ((Device.modify _ c _).iocs c).waits t = .out
    rw [iocs_modify]
    exact Function.update_self t _ _

/-- `aio_wait` comes back: wherever a run has led, and whatever the threads were doing, the kernel,
the completion thread and the threads that wait can go on such that a thread in `aio_wait` of a
context without a callback leaves it. No wakeup is lost on the way: no thread sleeps on such a
context while nothing is in flight. -/
theorem aio_wait_comes_back (hrun : exec (opened callback size blockSize priv) as = some d)
    (hf : d.fault = none) (hc : (priv c && callback) = false) (t : ℕ) :
    ((d.iocs c).waits t = .asleep → d.inFlight c ≠ []) ∧
      ∃ bs d', (∀ b ∈ bs, b.goesOn = true) ∧ exec d bs = some d' ∧
        (d'.iocs c).waits t = .out := by
  have hout := outcome_of_run hrun
  have h := hout.2 hf
  have hmode : (d.iocs c).calledBack d.callback = false := (calledBack_run hrun c).trans hc
  constructor
  · intro hw hnil
    have hpos := (h c).awake hmode t (Or.inr hw)
    rw [(h c).running, hnil] at hpos
    exact absurd hpos (by decide)
  · have hlead : d.Leads fun e => (e.iocs c).waits t = .out := by
      refine (leads_done c _ d rfl h hf).trans ?_ hout
      intro e houte hfe hce hw
      exact leads_out (houte.2 hfe) hfe ((hce c).trans hmode)
        (numRunning_of_work (houte.2 hfe) hw) t
    obtain ⟨bs, d', hbs, hgo, _, hw⟩ := hlead
    exact ⟨bs, d', hbs, hgo, hw⟩

/-- Among others, from the middle of the sample run, where a thread sleeps. -/
theorem aio_wait_comes_back_sample :
    ∃ d, exec (opened false 8192 4096 fun _ => false) (sampleRun.take 8) = some d ∧
      (d.iocs 0).waits 7 = .asleep ∧ ∃ bs d', (∀ b ∈ bs, b.goesOn = true) ∧
        exec d bs = some d' ∧ (d'.iocs 0).waits 7 = .out := by
  obtain ⟨d, hrun, hd⟩ := Option.map_eq_some_iff.mp (by decide :
    (exec (opened false 8192 4096 fun _ => false) (sampleRun.take 8)).map
      (fun d => (d.fault, (d.iocs 0).waits 7)) = some (none, .asleep))
  obtain ⟨hf, hw⟩ := Prod.mk.inj hd
  exact ⟨d, hrun, hw, (aio_wait_comes_back hrun hf rfl 7).2⟩

/-- `aio_wait` comes back only when every aio that was handed over is counted off, each once, and
then the return value says whether one of them went wrong. -/
theorem aio_wait_returns (hrun : exec (opened callback size blockSize priv) as = some d)
    (hs : step d (.waitTest c t) = some d') (hw : (d'.iocs c).waits t = .out) :
    d'.inFlight c = [] ∧ ((d'.iocs c).pendingAios ++ d'.countedOff c) ~ (d'.iocs c).issued ∧
      (d'.iocs c).r = if (d'.counted.filter (·.1.ioc = c)).any Event.bad then - EIO else 0 := by
  have hf := step_live hs
  have hout := step_outcome ((outcome_of_run hrun).2 hf) hs
  have hs' := hs
  simp only [step, hf, Device.waitTest, Option.isSome_none, Bool.false_eq_true, if_false] at hs'
  obtain ⟨ht, hd⟩ := Option.ite_none_right_eq_some.mp hs'
  split at hd
  case isTrue hr =>
    rw [← Option.some.inj hd, iocs_modify] at hw
    exact absurd (hw.symm.trans (Function.update_self t _ _)) (by decide)
  case isFalse hr =>
    have hd := Option.some.inj hd
    have hf' : d'.fault = none := hd ▸ hf
    have h := hout.2 hf' c
    have hr' : ¬(d'.iocs c).numRunning > 0 := by
      rw [← hd, iocs_modify]
      exact hr
    have hnil : d'.inFlight c = [] := by
      have hlen := h.running
      exact List.eq_nil_of_length_eq_zero (by omega)
    have hcons := h.conserved
    rw [hnil, List.append_nil] at hcons
    refine ⟨hnil, hcons, ?_⟩
    -- What is looked at and not counted off would be in flight.
    have hcur : d'.current.toList.filter (·.1.ioc = c) = [] := by
      rw [List.filter_eq_nil_iff]
      intro e he hec
      have hmem : e.1 ∈ d'.inFlight c := by
        simp only [inFlight, queued, List.mem_append, List.mem_filter, List.mem_map]
        exact Or.inr ⟨Or.inr ⟨e, Or.inr he, rfl⟩, hec⟩
      rw [hnil] at hmem
      cases hmem
    rw [h.returned, seen, List.filter_append, hcur, List.append_nil]

/-- Among others, at the end of the sample run, where the read has failed. -/
theorem aio_wait_returns_sample :
    ∃ d d', exec (opened false 8192 4096 fun _ => false) sampleRun = some d ∧
      step d (.waitTest 0 7) = some d' ∧ d'.inFlight 0 = [] ∧
      (d'.iocs 0).r = if (d'.counted.filter (·.1.ioc = 0)).any Event.bad then - EIO else 0 := by
  obtain ⟨d', hrun, hw⟩ := Option.map_eq_some_iff.mp (by decide :
    (exec (opened false 8192 4096 fun _ => false) (sampleRun ++ [.waitTest 0 7])).map
      (fun d => (d.iocs 0).waits 7) = some .out)
  obtain ⟨d, hrun, hlast⟩ := Runs.exec_append.mp hrun
  obtain ⟨e, hs, he⟩ := Runs.exec_cons.mp hlast
  rw [Option.some.inj he] at hs
  have h := aio_wait_returns hrun hs hw
  exact ⟨d, d', hrun, hs, h.1, h.2.2⟩

/-! ## Calling back -/

/-- `tryCallback` calls back when it counts off the last aio. -/
theorem tryCallback_last {x : IoContext} (h : x.tryCallback.callbacks ≠ x.callbacks) :
    x.tryCallback.numRunning = 0 := by
  unfold IoContext.tryCallback at h ⊢
  split
  case isTrue h1 => simp [IoContext.countOff, h1]
  case isFalse h1 => simp [h1, IoContext.countOff] at h

/-- `try_aio_wake` does not call back. -/
theorem tryAioWake_callbacks {x x' : IoContext} (h : x.tryAioWake = some x') :
    x'.callbacks = x.callbacks := by
  obtain ⟨_, h⟩ := Option.ite_none_right_eq_some.mp h
  rw [← Option.some.inj h]
  split <;> rfl

/-- The count calls back when it counts off the last aio. -/
theorem count_last (hs : d.count = some d')
    (hne : (d'.iocs c).callbacks ≠ (d.iocs c).callbacks) : (d'.iocs c).numRunning = 0 := by
  unfold Device.count at hs
  split at hs
  · cases hs
  case h_2 e hcur =>
    -- Only the context of the event changes.
    have hkey : ∀ {d0 : Device} {x : IoContext}, d0 = d' →
        d0.iocs = Function.update d.iocs e.1.ioc x →
        (x.callbacks ≠ (d.iocs e.1.ioc).callbacks → x.numRunning = 0) →
        (d'.iocs c).numRunning = 0 := by
      intro d0 x hd hio hx
      rw [← hd, hio, Function.update_apply] at hne ⊢
      split at hne
      case isTrue hc => rw [if_pos hc]; exact hx (hc ▸ hne)
      case isFalse => exact absurd rfl hne
    dsimp only at hs
    split at hs
    · exact hkey (Option.some.inj hs) rfl tryCallback_last
    · split at hs
      · cases hs
      · split at hs
        case h_1 x' hx' =>
          exact hkey (Option.some.inj hs) rfl
            (fun hx => absurd (tryAioWake_callbacks hx') hx)
        case h_2 => exact absurd (Option.some.inj hs ▸ rfl) hne

/-- A context whose owner is called back is called back at most once for each batch, never while
an aio is in flight, and when the last is counted off; so for one batch it is called back once, and
in the step that counts off its last aio. -/
theorem called_back_once (hrun : exec (opened callback size blockSize priv) as = some d)
    (hf : d.fault = none) (hc : (priv c && callback) = true) :
    ((d.iocs c).submits = 1 →
      (d.iocs c).callbacks = if d.inFlight c = [] then 1 else 0) ∧
    (d.iocs c).callbacks + (if d.inFlight c = [] then 0 else 1) ≤ (d.iocs c).submits ∧
    ∀ a d', step d a = some d' → d'.fault = none →
      (d'.iocs c).callbacks ≠ (d.iocs c).callbacks → a = .count ∧ d'.inFlight c = [] := by
  have h := (outcome_of_run hrun).2 hf c
  have hmode : (d.iocs c).calledBack d.callback = true := (calledBack_run hrun c).trans hc
  have hrunning := h.running
  have hlate := h.late hmode
  have hearly : (d.iocs c).callbacks + (if d.inFlight c = [] then 0 else 1) ≤
      (d.iocs c).submits := by
    have hle := h.early hmode
    split
    case isTrue => split at hle <;> omega
    case isFalse hne =>
      have hpos : 0 < (d.iocs c).numRunning := by
        have := List.length_pos_of_ne_nil hne
        omega
      rwa [if_pos hpos] at hle
  refine ⟨fun h1 => ?_, hearly, ?_⟩
  · split
    case isTrue hnil =>
      rw [if_pos hnil] at hearly
      have hzero : (d.iocs c).numRunning = 0 := by rw [hrunning, hnil]; rfl
      have := hlate (by omega) hzero
      omega
    case isFalse hne =>
      rw [if_neg hne] at hearly
      omega
  · intro a d' hs hf' hne
    have ha : a = .count := by
      by_contra ha
      exact hne (step_callbacks hs ha c)
    refine ⟨ha, ?_⟩
    have hs' : d.count = some d' := by
      rw [ha] at hs
      simpa only [step, hf, Option.isSome_none, Bool.false_eq_true, if_false] using hs
    have hlen := ((step_outcome ((outcome_of_run hrun).2 hf) hs).2 hf' c).running
    have hzero := count_last hs' hne
    exact List.eq_nil_of_length_eq_zero (by omega)

/-- Among others, over the sample run of a device that calls back. -/
theorem called_back_once_sample :
    ∃ d, exec (opened true 8192 4096 fun _ => true) (sampleRun.take 18) = some d ∧
      (d.iocs 0).callbacks = if d.inFlight 0 = [] then 1 else 0 := by
  obtain ⟨d, hrun, hd⟩ := Option.map_eq_some_iff.mp (by decide :
    (exec (opened true 8192 4096 fun _ => true) (sampleRun.take 18)).map
      (fun d => (d.fault, (d.iocs 0).submits)) = some (none, 1))
  obtain ⟨hf, h1⟩ := Prod.mk.inj hd
  exact ⟨d, hrun, (called_back_once hrun hf rfl).1 h1⟩

/-! ## Flushing -/

/-- What holds of the flag and the medium between two actions, while no `fdatasync` has failed. -/
structure Synced (d : Device) : Prop where
  /-- What is on its way to be reported has reached the device. -/
  reached : ∀ e ∈ d.events ++ d.reaped, e.1.write = true → e.bad = false →
    e.1.id ∈ d.cached ∨ e.1.id ∈ d.durable
  /-- So have the synchronous writes. -/
  written : ∀ id ∈ d.writing, id ∈ d.cached ∨ id ∈ d.durable
  /-- And what was reported. -/
  known : ∀ id ∈ d.reported, id ∈ d.cached ∨ id ∈ d.durable
  /-- While the flag is down and no `fdatasync` is due, all that was reported is durable. -/
  covered : d.ioSinceFlush = true ∨ (∃ owed, d.flusher = some ⟨true, owed⟩) ∨
    ∀ id ∈ d.reported, id ∈ d.durable
  /-- A `flush` answers for what was reported before it. -/
  owed : ∀ f, d.flusher = some f → ∀ id ∈ f.owed, id ∈ d.reported
  /-- What a `flush` has answered for is durable. -/
  flushed : ∀ id ∈ d.flushed, id ∈ d.durable

namespace Synced

/-- An action that leaves the flag, the medium and the events alone. -/
theorem same (h : d.Synced) (hev : ∀ e ∈ d'.events ++ d'.reaped, e ∈ d.events ++ d.reaped)
    (hm : (d'.writing, d'.cached, d'.durable, d'.reported, d'.ioSinceFlush, d'.flusher,
        d'.flushed) =
      (d.writing, d.cached, d.durable, d.reported, d.ioSinceFlush, d.flusher, d.flushed)) :
    d'.Synced := by
  simp only [Prod.mk.injEq] at hm
  obtain ⟨h1, h2, h3, h4, h5, h6, h7⟩ := hm
  constructor
  · rw [h2, h3]
    exact fun e he => h.reached e (hev e he)
  · rw [h1, h2, h3]
    exact h.written
  · rw [h4, h2, h3]
    exact h.known
  · rw [h5, h6, h4, h3]
    exact h.covered
  · rw [h6, h4]
    exact h.owed
  · rw [h7, h3]
    exact h.flushed

/-- The completion of an I/O keeps it: a write that is done in full is in the cache. -/
theorem complete {i : ℕ} {res : ℤ} (h : d.Synced) (hs : d.complete i res = some d') :
    d'.Synced := by
  unfold Device.complete at hs
  split at hs
  · cases hs
  case h_2 a ha =>
    have hd := Option.some.inj hs
    have hmono : ∀ id, id ∈ d.cached ∨ id ∈ d.durable → id ∈ d'.cached ∨ id ∈ d'.durable := by
      intro id hid
      rw [← hd]
      refine hid.imp (fun hc => ?_) (fun hd => hd)
      split
      · exact List.mem_append_left _ hc
      · exact hc
    have hnew : a.write = true → Event.bad (a, res) = false → a.id ∈ d'.cached := by
      intro hw hb
      have hres : res = (a.length : ℤ) := by
        simp only [Event.bad, decide_eq_false_iff_not, not_or, not_not] at hb
        exact hb.2
      rw [← hd]
      simp [hw, hres]
    constructor
    · intro e he hw hb
      have he : e ∈ d.events ++ d.reaped ∨ e = (a, res) := by
        rw [← hd] at he
        simp only [List.mem_append, List.mem_singleton] at he ⊢
        tauto
      rcases he with he | rfl
      · exact hmono _ (h.reached e he hw hb)
      · exact Or.inl (hnew hw hb)
    · have hsame : d'.writing = d.writing := hd ▸ rfl
      exact fun id hid => hmono id (h.written id (hsame ▸ hid))
    · have hsame : d'.reported = d.reported := hd ▸ rfl
      exact fun id hid => hmono id (h.known id (hsame ▸ hid))
    · exact hd ▸ h.covered
    · exact hd ▸ h.owed
    · exact hd ▸ h.flushed

/-- What reports a write sets the flag first. -/
theorem report (ids : List ℕ) (h : d.Synced) (hids : ∀ id ∈ ids, id ∈ d.cached ∨ id ∈ d.durable)
    (hev : ∀ e ∈ d'.events ++ d'.reaped, e ∈ d.events ++ d.reaped)
    (hwr : ∀ id ∈ d'.writing, id ∈ d.writing) (hrep : d'.reported = d.reported ++ ids)
    (hflag : d'.ioSinceFlush = true)
    (hm : (d'.cached, d'.durable, d'.flusher, d'.flushed) =
      (d.cached, d.durable, d.flusher, d.flushed)) : d'.Synced := by
  simp only [Prod.mk.injEq] at hm
  obtain ⟨h1, h2, h3, h4⟩ := hm
  constructor
  · rw [h1, h2]
    exact fun e he => h.reached e (hev e he)
  · rw [h1, h2]
    exact fun id hid => h.written id (hwr id hid)
  · rw [h1, h2, hrep]
    exact fun id hid => (List.mem_append.mp hid).elim (h.known id) (hids id)
  · exact Or.inl hflag
  · rw [h3, hrep]
    exact fun f hf id hid => List.mem_append_left _ (h.owed f hf id hid)
  · rw [h4, h2]
    exact h.flushed

/-- The completion thread reports the writes that were done in full. -/
theorem deliver (h : d.Synced) (hs : d.deliver = some d') : d'.Synced := by
  unfold Device.deliver at hs
  split at hs
  case h_2 => cases hs
  case h_1 e rest hcur hreap =>
    have hd := Option.some.inj hs
    have hmem : e ∈ d.events ++ d.reaped := by simp [hreap]
    refine report (if e.1.write ∧ !e.bad then [e.1.id] else []) h ?_ ?_ ?_ ?_
      (hd ▸ rfl) (hd ▸ rfl)
    · intro id hid
      split at hid
      case isTrue hc =>
        rw [List.mem_singleton.mp hid]
        exact h.reached e hmem hc.1 (by simpa using hc.2)
      case isFalse => cases hid
    · intro e' he'
      rw [← hd] at he'
      rw [hreap]
      exact (List.mem_append.mp he').elim (List.mem_append_left _)
        (fun hr => List.mem_append_right _ (List.mem_cons_of_mem _ hr))
    · exact fun id hid => by rw [← hd] at hid; exact hid
    · have hrep : (if e.1.write ∧ !e.bad then d.reported ++ [e.1.id] else d.reported) =
          d.reported ++ if e.1.write ∧ !e.bad then [e.1.id] else [] := by split <;> simp
      rw [← hd]
      exact hrep

/-- `write` reports when it returns. -/
theorem writeDone {i : ℕ} (h : d.Synced) (hs : d.writeDone i = some d') : d'.Synced := by
  unfold Device.writeDone at hs
  split at hs
  · cases hs
  case h_2 id hid =>
    have hd := Option.some.inj hs
    refine report [id] h ?_ ?_ ?_ (hd ▸ rfl) (hd ▸ rfl) (hd ▸ rfl)
    · intro id' hid'
      rw [List.mem_singleton.mp hid']
      exact h.written id (List.mem_of_getElem? hid)
    · exact fun e he => by rw [← hd] at he; exact he
    · intro id' hid'
      rw [← hd] at hid'
      exact List.mem_of_mem_eraseIdx hid'

/-- The exchange: a flag that is down says that all is durable. -/
theorem flushExchange (h : d.Synced) (hs : d.flushExchange = some d') : d'.Synced := by
  unfold Device.flushExchange at hs
  split at hs
  case h_2 => cases hs
  case h_1 owed hfl =>
    split at hs
    case isTrue hflag =>
      have hd := Option.some.inj hs
      rw [← hd]
      exact { h with
        covered := Or.inr (Or.inl ⟨owed, rfl⟩)
        owed := fun f hf => by
          rw [← Option.some.inj hf]
          exact h.owed ⟨false, owed⟩ hfl }
    case isFalse hflag =>
      have hdur : ∀ id ∈ d.reported, id ∈ d.durable := by
        rcases h.covered with hf | ⟨_, hf⟩ | hdur
        · exact absurd hf hflag
        · rw [hfl] at hf
          cases hf
        · exact hdur
      rw [← Option.some.inj hs]
      exact { h with
        covered := Or.inr (Or.inr hdur)
        owed := fun f hf => by cases hf
        flushed := fun id hid => (List.mem_append.mp hid).elim (h.flushed id)
          (fun ho => hdur id (h.owed _ hfl id ho)) }

/-- `fdatasync` makes durable what has reached the device, so what was reported. -/
theorem fdatasync (h : d.Synced) (hs : d.fdatasync true = some d') : d'.Synced := by
  unfold Device.fdatasync at hs
  split at hs
  case h_2 => cases hs
  case h_1 owed hfl =>
    rw [if_pos rfl] at hs
    have hdur : ∀ {id}, id ∈ d.cached ∨ id ∈ d.durable → id ∈ d.durable ++ d.cached :=
      fun hid => List.mem_append.mpr hid.symm
    rw [← Option.some.inj hs]
    exact {
      reached := fun e he hw hb => Or.inr (hdur (h.reached e he hw hb))
      written := fun id hid => Or.inr (hdur (h.written id hid))
      known := fun id hid => Or.inr (hdur (h.known id hid))
      covered := Or.inr (Or.inr fun id hid => hdur (h.known id hid))
      owed := fun f hf => by cases hf
      flushed := fun id hid => (List.mem_append.mp hid).elim
        (fun hf => List.mem_append_left _ (h.flushed id hf))
        (fun ho => hdur (h.known id (h.owed _ hfl id ho))) }

/-- Every action but a `fdatasync` that fails keeps it. -/
theorem step {a : Action} (h : d.Synced) (ha : a ≠ .fdatasync false)
    (hs : d.step a = some d') : d'.Synced := by
  have hlive := step_live hs
  -- Most actions leave both the events and what writes and flushes have noted.
  have hpart : ∀ {e : Device}, e = d' → e.events ++ e.reaped = d.events ++ d.reaped →
      (e.writing, e.cached, e.durable, e.reported, e.ioSinceFlush, e.flusher, e.flushed) =
        (d.writing, d.cached, d.durable, d.reported, d.ioSinceFlush, d.flusher, d.flushed) →
      d'.Synced := fun he hev hm => he ▸ h.same (fun _ hmem => hev ▸ hmem) hm
  simp only [Device.step, hlive, Option.isSome_none, Bool.false_eq_true, if_false] at hs
  cases a with
  | aioRead c off len | aioWrite c off len =>
    simp only [Device.aioRead, Device.aioWrite, Device.prepare] at hs
    split at hs
    · cases hs
    · split at hs <;> exact hpart (Option.some.inj hs) rfl rfl
  | aioSubmit c =>
    simp only [Device.aioSubmit] at hs
    split at hs
    · cases hs
    · exact hpart (Option.some.inj hs) rfl rfl
  | ioSubmit c submitted =>
    simp only [Device.ioSubmit] at hs
    split at hs
    · cases hs
    · split at hs
      · cases hs
      · split at hs <;> exact hpart (Option.some.inj hs) rfl rfl
  | release c =>
    simp only [Device.release] at hs
    split at hs
    · cases hs
    · split at hs <;> exact hpart (Option.some.inj hs) rfl rfl
  | complete i res => exact h.complete hs
  | getNextCompleted n =>
    obtain ⟨_, hd⟩ := Option.ite_none_right_eq_some.mp hs
    rw [← Option.some.inj hd]
    -- An event only moves on to the thread.
    refine h.same (fun e he => List.mem_append_left _ ?_) rfl
    exact (List.mem_append.mp he).elim List.mem_of_mem_drop List.mem_of_mem_take
  | getEventsFails =>
    obtain ⟨_, hd⟩ := Option.ite_none_right_eq_some.mp hs
    exact hpart (Option.some.inj hd) rfl rfl
  | deliver => exact h.deliver hs
  | count =>
    simp only [Device.count] at hs
    split at hs
    · cases hs
    · split at hs
      · exact hpart (Option.some.inj hs) rfl rfl
      · split at hs
        · cases hs
        · split at hs <;> exact hpart (Option.some.inj hs) rfl rfl
  | waitCall c t | waitLock c t | waitSleep c t | waitWake c t =>
    obtain ⟨_, hd⟩ := Option.ite_none_right_eq_some.mp hs
    exact hpart (Option.some.inj hd) rfl rfl
  | waitTest c t =>
    obtain ⟨_, hd⟩ := Option.ite_none_right_eq_some.mp hs
    split at hd <;> exact hpart (Option.some.inj hd) rfl rfl
  | pwritev =>
    have hd := Option.some.inj hs
    rw [← hd]
    -- A write ends in the cache of the device, and nothing leaves it or the medium.
    have hmono : ∀ {id}, id ∈ d.cached ∨ id ∈ d.durable →
        id ∈ d.cached ++ [d.next] ∨ id ∈ d.durable :=
      fun hid => hid.imp_left (List.mem_append_left _)
    exact { h with
      reached := fun e he hw hb => hmono (h.reached e he hw hb)
      written := fun id hid => (List.mem_append.mp hid).elim (fun hid => hmono (h.written id hid))
        (fun hid => Or.inl (List.mem_append_right _ hid))
      known := fun id hid => hmono (h.known id hid) }
  | writeDone i => exact h.writeDone hs
  | flushEnter =>
    obtain ⟨hfree, hd⟩ := Option.ite_none_right_eq_some.mp hs
    have hnone : d.flusher = none := by simpa using hfree
    -- A flush that has just begun owes nothing.
    rw [← Option.some.inj hd]
    exact { h with
      covered := h.covered.imp_right fun hc => Or.inr (hc.resolve_left (by simp [hnone]))
      owed := fun f hf => by
        rw [← Option.some.inj hf]
        exact fun id hid => hid }
  | flushExchange => exact h.flushExchange hs
  | fdatasync ok =>
    cases ok with
    | true => exact h.fdatasync hs
    | false => exact absurd rfl ha

end Synced

/-- While no `fdatasync` fails, a `flush` that returns 0 leaves on the medium every write that was
reported before it came, whichever thread syncs and whatever runs meanwhile. -/
theorem flush_durable (hrun : exec (opened callback size blockSize priv) as = some d)
    (hok : Action.fdatasync false ∉ as) : ∀ id ∈ d.flushed, id ∈ d.durable := by
  have hmeets : ∀ (as : List Action) (d : Device), Action.fdatasync false ∉ as →
      Runs.Meets step (fun _ a => a ≠ .fdatasync false) d as := by
    intro as
    induction as with
    | nil => exact fun _ _ => trivial
    | cons a as ih =>
      intro d hok
      rw [List.mem_cons, not_or] at hok
      exact ⟨Ne.symm hok.1, fun e _ => ih e hok.2⟩
  have h0 : (opened callback size blockSize priv).Synced :=
    { reached := by simp [opened]
      written := by simp [opened]
      known := by simp [opened]
      covered := by simp [opened]
      owed := by simp [opened]
      flushed := by simp [opened] }
  exact (Runs.exec_invariant (fun _ _ _ h ha hs => h.step ha hs) as _ d h0
    (hmeets as _ hok) hrun).flushed

/-- Among others, over the sample run, whose write is flushed. -/
theorem flush_durable_sample :
    ∃ d, exec (opened false 8192 4096 fun _ => false) sampleRun = some d ∧ d.flushed = [0] ∧
      ∀ id ∈ d.flushed, id ∈ d.durable := by
  obtain ⟨d, hrun, hd⟩ := Option.map_eq_some_iff.mp (by decide :
    (exec (opened false 8192 4096 fun _ => false) sampleRun).map (·.flushed) = some [0])
  exact ⟨d, hrun, hd, flush_durable hrun (by decide)⟩

/-- After a `fdatasync` that fails the flag stays down: with nothing written since, the next
`flush` answers for all that was reported and makes none of it durable. -/
theorem flush_after_failure {owed : List ℕ} (hf : d.fault = none)
    (hfl : d.flusher = some ⟨true, owed⟩) (hflag : d.ioSinceFlush = false) :
    ∃ d', exec d [.fdatasync false, .flushEnter, .flushExchange] = some d' ∧
      d'.flushed = d.flushed ++ d.reported ∧ d'.durable = d.durable := by
  refine ⟨{ d with flusher := none, flushed := d.flushed ++ d.reported }, ?_, rfl, rfl⟩
  simp [exec, Runs.exec, step, hf, Device.fdatasync, hfl, Device.flushEnter, Device.flushExchange,
    hflag]

end CxxLab.Blk.Device
