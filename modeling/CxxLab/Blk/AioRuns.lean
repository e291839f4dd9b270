import Mathlib
import CxxLab.Blk.KernelDevice

/-!
# Runs of the asynchronous I/O

What holds of every context in every run, whatever the order in which the owners, the kernel, the
completion thread and the waiting threads take their steps (`Sound`): each aio is pending, in
flight or counted off, `num_running` is the number in flight, their buffers stay, and nobody who
could not be woken sleeps. From it follow what `aio_wait` promises, that it comes back, how often
the callback is called, and, with the flag and the medium (`Synced`), what `flush` promises.
-/

open scoped List

namespace CxxLab.Blk

namespace IoContext

/-- A context whose owner is called back and not woken. -/
def calledBack (x : IoContext) (callback : Bool) : Bool := x.priv && callback

/-- What holds of the context `c` between two actions, `fl` being its aios in flight, `co` those
counted off and `sn` the completions that were looked at. -/
structure Sound (callback : Bool) (c : ℕ) (x : IoContext) (fl co : List Aio)
    (sn : List Event) : Prop where
  /-- A context's aios point back at it. -/
  own : ∀ a ∈ x.pendingAios ++ x.left, a.ioc = c
  /-- `submit_batch` has something left. -/
  unsent : ∀ b, x.batch = some b → b.left ≠ []
  /-- `num_pending` is the length of `pending_aios`. -/
  pending : x.numPending = x.pendingAios.length
  /-- `num_running` is the number of aios in flight. -/
  running : x.numRunning = fl.length
  /-- The buffers of what is in flight stay. -/
  alive : ∀ a ∈ fl, a ∈ x.runningAios
  /-- No aio is lost, none is there twice. -/
  conserved : (x.pendingAios ++ fl ++ co).Perm x.issued
  /-- The mutex is held by the thread that is past it. -/
  held : ∀ t, x.lock = some t ↔ x.waits t = .testing ∨ x.waits t = .waiting
  /-- Who is about to sleep, or asleep, will be woken. -/
  awake : x.calledBack callback = false → ∀ t, x.waits t = .waiting ∨ x.waits t = .asleep →
    0 < x.numRunning
  /-- The return value tells of every I/O that went wrong. -/
  returned : x.r = if sn.any Event.bad then - EIO else 0
  /-- No callback comes before its time. -/
  early : x.calledBack callback = true →
    x.callbacks + (if 0 < x.numRunning then 1 else 0) ≤ x.submits
  /-- One comes when the last aio is counted off. -/
  late : x.calledBack callback = true → 0 < x.submits → x.numRunning = 0 → 0 < x.callbacks

variable {callback : Bool} {c : ℕ} {x : IoContext} {fl fl' co co' : List Aio} {sn : List Event}

/-- `notify_all` moves no thread but those that sleep, and all of them. -/
theorem waits_notifyAll (x : IoContext) (t : ℕ) :
    (x.notifyAll.waits t = .testing ↔ x.waits t = .testing) ∧
      (x.notifyAll.waits t = .waiting ↔ x.waits t = .waiting) ∧ x.notifyAll.waits t ≠ .asleep := by
  unfold notifyAll
  cases h : x.waits t <;> simp [h]

/-- A context as it is made is sound. -/
theorem sound_fresh (callback : Bool) (c : ℕ) (priv : Bool) :
    Sound callback c (fresh priv) [] [] [] where
  own := by simp [fresh, left]
  unsent := by simp [fresh]
  pending := rfl
  running := rfl
  alive := by simp
  conserved := List.Perm.refl _
  held := by simp [fresh]
  awake := by simp [fresh]
  returned := rfl
  early := by simp [fresh]
  late := by simp [fresh]

namespace Sound

/-- The order of what is in flight does not matter. -/
theorem perm (h : Sound callback c x fl co sn) (hp : fl'.Perm fl) :
    Sound callback c x fl' co sn where
  __ := h
  running := by rw [h.running, hp.length_eq]
  alive a ha := h.alive a (hp.mem_iff.mp ha)
  conserved := ((hp.append_left _).append_right _).trans h.conserved

/-- `aio_read` and `aio_write` keep a context sound. -/
theorem prepare {a : Aio} (h : Sound callback c x fl co sn) (ha : a.ioc = c) :
    Sound callback c (x.prepare a) fl co sn where
  __ := h
  own b hb := by
    rcases List.mem_append.mp hb with hb | hb
    · rcases List.mem_append.mp hb with hb | hb
      · exact h.own b (List.mem_append_left _ hb)
      · exact List.mem_singleton.mp hb ▸ ha
    · exact h.own b (List.mem_append_right _ hb)
  pending := by
    simp only [IoContext.prepare, h.pending, List.length_append, List.length_singleton]
    push_cast
    rfl
  conserved := calc
    x.pendingAios ++ [a] ++ fl ++ co
      = x.pendingAios ++ ([a] ++ (fl ++ co)) := by simp only [List.append_assoc]
    _ ~ x.pendingAios ++ ((fl ++ co) ++ [a]) := List.perm_append_comm.append_left _
    _ = x.pendingAios ++ fl ++ co ++ [a] := by simp only [List.append_assoc]
    _ ~ x.issued ++ [a] := h.conserved.append_right _

/-- `aio_submit` keeps a context sound: all that was pending is in flight before the kernel has
any of it. -/
theorem submit (h : Sound callback c x fl co sn) (hn : x.numPending ≠ 0) :
    Sound callback c x.submit (x.pendingAios ++ fl) co sn := by
  have hne : x.pendingAios ≠ [] := by
    intro hnil
    exact hn (by rw [h.pending, hnil]; rfl)
  have hpos : 0 < x.pendingAios.length := List.length_pos_of_ne_nil hne
  have hx : x.submit = { x with
      pendingAios := [], runningAios := x.pendingAios ++ x.runningAios
      numRunning := x.numRunning + x.numPending, numPending := 0
      batch := some ⟨x.pendingAios, 16, 0⟩, submits := x.submits + 1 } := if_neg hn
  have hrun := h.running
  have hpend := h.pending
  rw [hx]
  exact {
    own := fun a ha => h.own a (List.mem_append_left _ (by simpa [left] using ha))
    unsent := fun b hb => by
      simp only [Option.some.injEq] at hb
      exact hb ▸ hne
    pending := rfl
    running := by simp only [List.length_append]; omega
    alive := fun a ha => by
      rcases List.mem_append.mp ha with ha | ha
      · exact List.mem_append_left _ ha
      · exact List.mem_append_right _ (h.alive a ha)
    conserved := by simpa using h.conserved
    held := h.held
    awake := fun hc t ht => by
      have hpos := h.awake hc t ht
      simp only
      omega
    returned := h.returned
    early := fun hc => by
      have hle := h.early hc
      simp only
      split <;> omega
    late := fun _ _ h0 => by
      simp only at h0
      omega }

/-- What `submit_batch` hands over moves from the owner to the kernel. -/
theorem batch {b : Option Batch} (h : Sound callback c x fl co sn)
    (hl : ∀ b', b = some b' → b'.left ≠ [] ∧ ∀ a ∈ b'.left, a ∈ x.left) :
    Sound callback c { x with batch := b } fl co sn where
  __ := h
  own a ha := by
    refine h.own a ?_
    rcases List.mem_append.mp ha with ha | ha
    · exact List.mem_append_left _ ha
    · cases b with
      | none => cases ha
      | some b' => exact List.mem_append_right _ ((hl b' rfl).2 a ha)
  unsent b' hb := (hl b' hb).1

/-- `release_running_aios` keeps a context sound: nothing is in flight. -/
theorem release (h : Sound callback c x fl co sn) (h0 : x.numRunning = 0) :
    Sound callback c { x with runningAios := [] } fl co sn where
  __ := h
  alive a ha := by
    have hlen := h.running
    have hnil : fl = [] := List.eq_nil_of_length_eq_zero (by omega)
    rw [hnil] at ha
    cases ha

/-- Noting a return value keeps a context sound. -/
theorem see {e : Event} (h : Sound callback c x fl co sn) :
    Sound callback c (if e.bad then { x with r := - EIO } else x) fl co (sn ++ [e]) := by
  have hr : (if e.bad then { x with r := - EIO } else x) =
      { x with r := if e.bad then - EIO else x.r } := by split <;> rfl
  rw [hr]
  exact { h with
    returned := by
      have hany : (sn ++ [e]).any Event.bad = (sn.any Event.bad || e.bad) := by
        rw [List.any_append, List.any_cons, List.any_nil, Bool.or_false]
      rw [hany, h.returned]
      generalize e.bad = b
      cases b
      · rw [Bool.or_false]; rfl
      · rw [Bool.or_true]; rfl }

/-- One aio less runs than in flight: the state between the count and what follows from it. -/
theorem running_pos {a : Aio} (h : Sound callback c x fl co sn) (hp : fl.Perm (a :: fl')) :
    x.numRunning = fl'.length + 1 := by
  rw [h.running, hp.length_eq, List.length_cons]
  push_cast
  rfl

/-- What the count does to the places of the aios. -/
theorem countOff {a : Aio} (h : Sound callback c x fl co sn) (hp : fl.Perm (a :: fl')) :
    (∀ b ∈ fl', b ∈ x.runningAios) ∧ (x.pendingAios ++ fl' ++ (co ++ [a])).Perm x.issued := by
  refine ⟨fun b hb => h.alive b (hp.mem_iff.mpr (List.mem_cons_of_mem _ hb)), ?_⟩
  calc
    x.pendingAios ++ fl' ++ (co ++ [a])
      = x.pendingAios ++ ((fl' ++ co) ++ [a]) := by simp only [List.append_assoc]
    _ ~ x.pendingAios ++ ([a] ++ (fl' ++ co)) := List.perm_append_comm.append_left _
    _ = x.pendingAios ++ ((a :: fl') ++ co) := rfl
    _ ~ x.pendingAios ++ (fl ++ co) := (hp.symm.append_right _).append_left _
    _ = x.pendingAios ++ fl ++ co := by simp only [List.append_assoc]
    _ ~ x.issued := h.conserved

/-- The callback branch keeps a context sound. -/
theorem tryCallback {a : Aio} (h : Sound callback c x fl co sn) (hp : fl.Perm (a :: fl'))
    (hc : x.calledBack callback = true) :
    Sound callback c x.tryCallback fl' (co ++ [a]) sn := by
  have hn := h.running_pos hp
  obtain ⟨halive, hcons⟩ := h.countOff hp
  have hx : x.tryCallback = { x with
      numRunning := x.numRunning - 1
      callbacks := if x.numRunning = 1 then x.callbacks + 1 else x.callbacks } := by
    unfold IoContext.tryCallback IoContext.countOff
    split <;> rfl
  rw [hx]
  exact { h with
    running := by simp only; omega
    alive := halive
    conserved := hcons
    awake := fun hf => by simp_all [calledBack]
    early := fun _ => by
      have hle := h.early hc
      have hpos : 0 < x.numRunning := by omega
      simp only [hpos, if_true] at hle
      simp only
      split <;> split <;> omega
    late := fun _ _ h0 => by
      have h1 : x.numRunning = 1 := by simp only at h0; omega
      simp [h1] }

/-- `try_aio_wake` finds its assertion true and keeps a context sound, as nobody holds the
mutex. -/
theorem tryAioWake {a : Aio} (h : Sound callback c x fl co sn) (hp : fl.Perm (a :: fl'))
    (hc : x.calledBack callback = false) (hl : x.lock = none) :
    ∃ x', x.tryAioWake = some x' ∧ Sound callback c x' fl' (co ++ [a]) sn := by
  have hn := h.running_pos hp
  obtain ⟨halive, hcons⟩ := h.countOff hp
  have hfree : ∀ t, x.waits t ≠ .testing ∧ x.waits t ≠ .waiting := by
    intro t
    have ht := h.held t
    rw [hl] at ht
    simpa using ht
  refine ⟨_, if_pos (by omega), ?_⟩
  split
  case isTrue h1 =>
    -- The last one: whoever sleeps is at the mutex now, and nobody else is on the way to sleep.
    have hwaits := x.countOff.waits_notifyAll
    exact { h with
      running := by simp only [notifyAll, IoContext.countOff]; omega
      alive := halive
      conserved := hcons
      held := fun t => by
        rw [(hwaits t).1, (hwaits t).2.1]
        exact h.held t
      awake := fun _ t ht => by
        rw [(hwaits t).2.1] at ht
        exact ht.elim (fun hw => absurd hw (hfree t).2) (fun hs => absurd hs (hwaits t).2.2)
      early := fun hf => by simp_all [calledBack, notifyAll, IoContext.countOff]
      late := fun hf => by simp_all [calledBack, notifyAll, IoContext.countOff] }
  case isFalse h1 =>
    exact { h with
      running := by simp only [IoContext.countOff]; omega
      alive := halive
      conserved := hcons
      awake := fun _ _ _ => by simp only [IoContext.countOff]; omega
      early := fun hf => by simp_all [calledBack, IoContext.countOff]
      late := fun hf => by simp_all [calledBack, IoContext.countOff] }

/-- A thread's move in `aio_wait` keeps a context sound when it takes or leaves the mutex as its
new place says, and goes to sleep only while something runs. -/
theorem goto {t : ℕ} {pc : WaitPc} {l : Option ℕ} (h : Sound callback c x fl co sn)
    (hown : l = some t ↔ pc = .testing ∨ pc = .waiting)
    (hothers : ∀ u, u ≠ t → (l = some u ↔ x.lock = some u))
    (hrun : pc = .waiting ∨ pc = .asleep → x.calledBack callback = false → 0 < x.numRunning) :
    Sound callback c { x.goto t pc with lock := l } fl co sn where
  __ := h
  held u := by
    simp only [IoContext.goto]
    by_cases hu : u = t
    · rw [hu, Function.update_self]
      exact hown
    · rw [Function.update_of_ne hu, hothers u hu]
      exact h.held u
  awake hc u hu := by
    simp only [IoContext.goto] at hu
    by_cases hut : u = t
    · rw [hut, Function.update_self] at hu
      exact hrun hu hc
    · rw [Function.update_of_ne hut] at hu
      exact h.awake hc u hu

end Sound

end IoContext

namespace Device

/-- All contexts of a device are sound. -/
def Sound (d : Device) : Prop :=
  ∀ c, (d.iocs c).Sound d.callback c (d.inFlight c) (d.countedOff c) (d.seen c)

variable {d d' : Device} {c : ℕ}

/-- A device after `open` is sound. -/
theorem sound_opened (callback : Bool) (size blockSize : ℕ) (priv : ℕ → Bool) :
    (opened callback size blockSize priv).Sound :=
  fun c => IoContext.sound_fresh callback c (priv c)

/-- An action on one context, for which the others' aios only change their places, keeps a device
sound when it keeps that context sound. -/
theorem Sound.modify {x : IoContext} (h : d.Sound) (hcb : d'.callback = d.callback)
    (hio : d'.iocs = Function.update d.iocs c x)
    (hothers : ∀ k, k ≠ c → d'.queued.filter (·.ioc = k) ~ d.queued.filter (·.ioc = k) ∧
      d'.countedOff k = d.countedOff k ∧ d'.seen k = d.seen k)
    (hc : x.Sound d.callback c (x.left ++ d'.queued.filter (·.ioc = c)) (d'.countedOff c)
      (d'.seen c)) : d'.Sound := by
  intro k
  unfold inFlight
  rw [hcb, hio]
  by_cases hk : k = c
  · rw [hk, Function.update_self]
    exact hc
  · obtain ⟨hq, hco, hsn⟩ := hothers k hk
    rw [Function.update_of_ne hk, hco, hsn]
    exact (h k).perm (hq.append_left _)

/-- An action on one context alone keeps a device sound when it keeps that context sound with the
same aios in flight. -/
theorem Sound.modify_same {x : IoContext} (h : d.Sound) (hl : x.left = (d.iocs c).left)
    (hc : x.Sound d.callback c (d.inFlight c) (d.countedOff c) (d.seen c)) :
    (d.modify c x).Sound :=
  h.modify rfl rfl (fun _ _ => ⟨List.Perm.refl _, rfl, rfl⟩) (hl ▸ hc)

/-- An action that only moves aios between the queues keeps a device sound. -/
theorem Sound.move (h : d.Sound) (hcb : d'.callback = d.callback) (hio : d'.iocs = d.iocs)
    (hq : d'.queued ~ d.queued) (hco : d'.counted = d.counted) (hcur : d'.current = d.current) :
    d'.Sound := by
  intro k
  have hk : d'.countedOff k = d.countedOff k ∧ d'.seen k = d.seen k := by
    unfold countedOff seen
    rw [hco, hcur]
    exact ⟨rfl, rfl⟩
  unfold inFlight
  rw [hcb, hio, hk.1, hk.2]
  exact (h k).perm ((hq.filter _).append_left _)

/-- `aio_read` and `aio_write` keep a device sound. -/
theorem Sound.prepare {write : Bool} {off len : ℕ} (h : d.Sound)
    (hs : d.prepare write c off len = some d') : d'.Sound := by
  simp only [Device.prepare] at hs
  split at hs
  · cases hs
  · split at hs
    · exact Option.some.inj hs ▸ h
    · rw [← Option.some.inj hs]
      exact h.modify rfl rfl (fun _ _ => ⟨List.Perm.refl _, rfl, rfl⟩) ((h c).prepare rfl)

/-- `aio_submit` keeps a device sound. -/
theorem Sound.aioSubmit (h : d.Sound) (hs : d.aioSubmit c = some d') : d'.Sound := by
  simp only [Device.aioSubmit] at hs
  split at hs
  · cases hs
  case isFalse hb =>
    have hnone : (d.iocs c).batch = none := by simpa using hb
    rw [← Option.some.inj hs]
    by_cases hn : (d.iocs c).numPending = 0
    · have hx : (d.iocs c).submit = d.iocs c := if_pos hn
      exact h.modify_same (by rw [hx]) (by rw [hx]; exact h c)
    · have hleft : (d.iocs c).submit.left = (d.iocs c).pendingAios := by
        simp [IoContext.submit, hn, IoContext.left]
      have hfl : d.inFlight c = d.queued.filter (·.ioc = c) := by
        simp [inFlight, IoContext.left, hnone]
      refine h.modify rfl rfl (fun _ _ => ⟨List.Perm.refl _, rfl, rfl⟩) ?_
      rw [hleft]
      exact hfl ▸ (h c).submit hn

/-- A batch with nothing left is over. -/
theorem left_batch (x : IoContext) (b : Batch) :
    ({ x with batch := if b.left.isEmpty then none else some b } : IoContext).left = b.left := by
  cases hl : b.left <;> simp [IoContext.left, hl]

/-- A turn that goes on has taken the aios that the kernel accepted. -/
theorem turn_left {b b' : Batch} {submitted : ℤ} (h : b.turn submitted = .ok b') :
    b.left.take submitted.toNat ++ b'.left = b.left := by
  have hwait : ∀ {n : ℤ}, n ≤ 0 → b.left.take n.toNat ++ b.left = b.left := by
    intro n hn
    rw [Int.toNat_eq_zero.mpr hn, List.take_zero, List.nil_append]
  unfold Batch.turn at h
  split at h
  · split at h
    · rw [← Except.ok.inj h]
      exact hwait (by omega)
    · cases h
  · split at h
    · split at h
      · rw [← Except.ok.inj h]
        exact hwait (by omega)
      · cases h
    · rw [← Except.ok.inj h]
      exact List.take_append_drop _ _

/-- The third of four lists comes first. -/
theorem move_front (p q r s : List Aio) : p ++ (q ++ (r ++ s)) ~ r ++ (p ++ (q ++ s)) := by
  refine List.perm_iff_count.mpr fun a => ?_
  simp only [List.count_append]
  omega

/-- What is left after an action: no assertion of `try_aio_wake` failed, and a device that goes on
is sound. -/
def Outcome (d : Device) : Prop := d.fault ≠ some .noneRunning ∧ (d.fault = none → d.Sound)

/-- A device that goes on soundly. -/
theorem Sound.outcome (h : d'.Sound) (hf : d'.fault = none) : d'.Outcome :=
  ⟨by simp [hf], fun _ => h⟩

/-- Another fault than that of `try_aio_wake`. -/
theorem outcome_of_fault {f : Fault} (hf : d'.fault = some f) (hne : f ≠ .noneRunning) :
    d'.Outcome :=
  ⟨by simp [hf, hne], fun hnone => by simp [hf] at hnone⟩

/-- `io_submit` moves the first aios of the batch to the kernel. -/
theorem ioSubmit_outcome {submitted : ℤ} (h : d.Sound) (hf : d.fault = none)
    (hs : d.ioSubmit c submitted = some d') : d'.Outcome := by
  unfold Device.ioSubmit at hs
  split at hs
  · cases hs
  case h_2 b hb =>
    split at hs
    · cases hs
    · split at hs
      · rw [← Option.some.inj hs]
        exact outcome_of_fault rfl (by decide)
      case h_2 b' hturn =>
        have htake := turn_left hturn
        have hleft : (d.iocs c).left = b.left := by simp [IoContext.left, hb]
        have hown : ∀ a ∈ b.left.take submitted.toNat, a.ioc = c := fun a ha =>
          (h c).own a (List.mem_append_right _ (hleft ▸ List.mem_of_mem_take ha))
        -- The new place in the batch: at its end there is none.
        generalize hbn : (if b'.left.isEmpty then none else some b') = bn at hs
        have hbleft : ({ d.iocs c with batch := bn } : IoContext).left = b'.left :=
          hbn ▸ left_batch (d.iocs c) b'
        have hstays : ∀ b'', bn = some b'' →
            b''.left ≠ [] ∧ ∀ a ∈ b''.left, a ∈ (d.iocs c).left := by
          intro b'' hb''
          rw [← hbn] at hb''
          split at hb''
          · cases hb''
          case isFalse hne =>
            rw [← Option.some.inj hb'', hleft, ← htake]
            exact ⟨by simpa using hne, fun a ha => List.mem_append_right _ ha⟩
        rw [← Option.some.inj hs]
        refine Sound.outcome (h.modify rfl rfl (fun k hk => ⟨?_, rfl, rfl⟩) ?_) hf
        · have hnone : (b.left.take submitted.toNat).filter (·.ioc = k) = [] :=
            List.filter_eq_nil_iff.mpr fun a ha => by simp [hown a ha, Ne.symm hk]
          simp only [queued, Device.modify, List.filter_append, hnone, List.append_nil]
          exact List.Perm.refl _
        · refine ((h c).batch hstays).perm ?_
          have hall : (b.left.take submitted.toNat).filter (·.ioc = c) =
              b.left.take submitted.toNat :=
            List.filter_eq_self.mpr fun a ha => by simp [hown a ha]
          simp only [hbleft, inFlight, hleft, queued, Device.modify, List.filter_append, hall,
            List.append_assoc]
          refine (move_front _ _ _ _).trans (List.Perm.of_eq ?_)
          rw [← List.append_assoc, htake]

/-- `release_running_aios` keeps a device sound, or stops on its own assertion. -/
theorem release_outcome (h : d.Sound) (hf : d.fault = none) (hs : d.release c = some d') :
    d'.Outcome := by
  unfold Device.release IoContext.releaseRunningAios at hs
  split at hs
  · cases hs
  · by_cases h0 : (d.iocs c).numRunning = 0
    · rw [if_pos h0] at hs
      rw [← Option.some.inj hs]
      exact Sound.outcome (h.modify_same rfl ((h c).release h0)) hf
    · rw [if_neg h0] at hs
      rw [← Option.some.inj hs]
      exact outcome_of_fault rfl (by decide)

/-- The kernel moves an aio to its events. -/
theorem complete_outcome {i : ℕ} {res : ℤ} (h : d.Sound) (hf : d.fault = none)
    (hs : d.complete i res = some d') : d'.Outcome := by
  unfold Device.complete at hs
  split at hs
  · cases hs
  case h_2 a ha =>
    obtain ⟨hi, ha⟩ := List.getElem?_eq_some_iff.mp ha
    rw [← Option.some.inj hs]
    refine Sound.outcome (h.move rfl rfl ?_ rfl rfl) hf
    have hperm : a :: d.inKernel.eraseIdx i ~ d.inKernel :=
      ha ▸ List.getElem_cons_eraseIdx_perm hi
    simp only [queued, List.map_append, List.append_assoc]
    exact (move_front _ _ [a] _).trans (hperm.append_right _)

/-- `get_next_completed` moves events to the completion thread. -/
theorem getNextCompleted_outcome {n : ℕ} (h : d.Sound) (hf : d.fault = none)
    (hs : d.getNextCompleted n = some d') : d'.Outcome := by
  unfold Device.getNextCompleted at hs
  split at hs
  case isFalse => cases hs
  case isTrue hc =>
    have hr : d.reaped = [] := by simpa using hc.1
    rw [← Option.some.inj hs]
    refine Sound.outcome (h.move rfl rfl ?_ rfl rfl) hf
    have hperm : d.events.drop n ++ d.events.take n ~ d.events :=
      List.perm_append_comm.trans (List.Perm.of_eq (List.take_append_drop _ _))
    simp only [queued, hr, List.append_nil]
    exact ((hperm.append_right _).map _).append_left _

/-- The completion thread takes up the next event. -/
theorem deliver_outcome (h : d.Sound) (hf : d.fault = none) (hs : d.deliver = some d') :
    d'.Outcome := by
  unfold Device.deliver at hs
  split at hs
  case h_2 => cases hs
  case h_1 e rest hcur hreap =>
    have hd := Option.some.inj hs
    generalize hx : (if e.bad = true then { d.iocs e.1.ioc with r := - EIO } else d.iocs e.1.ioc) =
      x at hd
    have hleft : x.left = (d.iocs e.1.ioc).left := by rw [← hx]; split <;> rfl
    have hq : d'.queued ~ d.queued := by
      simp only [← hd, queued, Device.modify, hcur, hreap, Option.toList_none, Option.toList_some,
        List.append_nil]
      refine List.Perm.append_left _ (List.Perm.map _ ?_)
      rw [List.append_assoc]
      exact List.Perm.append_left _ List.perm_append_comm
    have hsn : ∀ k, d'.seen k = d.seen k ++ [e].filter (·.1.ioc = k) := by
      intro k
      simp only [← hd, seen, Device.modify, hcur, Option.toList_none, Option.toList_some,
        List.filter_append, List.append_nil]
    have hco : ∀ k, d'.countedOff k = d.countedOff k := fun k => hd ▸ rfl
    refine Sound.outcome (h.modify (x := x) (c := e.1.ioc) (hd ▸ rfl) (hd ▸ rfl)
      (fun k hk => ⟨hq.filter _, hco k, ?_⟩) ?_) (hd ▸ hf)
    · rw [hsn, List.filter_eq_nil_iff.mpr (by simp [Ne.symm hk]), List.append_nil]
    · have he : [e].filter (·.1.ioc = e.1.ioc) = [e] := List.filter_eq_self.mpr (by simp)
      rw [hsn, hco, hleft, he, ← hx]
      exact ((h e.1.ioc).perm ((hq.filter _).append_left _)).see

/-- The completion thread counts an event off: the assertion of `try_aio_wake` holds. -/
theorem count_outcome (h : d.Sound) (hf : d.fault = none) (hs : d.count = some d') :
    d'.Outcome := by
  unfold Device.count at hs
  split at hs
  case h_1 => cases hs
  case h_2 e hcur =>
    -- The event that is counted heads the queue.
    have hq : d.queued ~ e.1 :: (d.inKernel ++ (d.events ++ d.reaped).map (·.1)) := by
      simp only [queued, hcur, Option.toList_some, List.map_append, List.map_cons, List.map_nil,
        ← List.append_assoc]
      exact List.perm_append_comm
    -- Whatever the context becomes, the aio has left its flight and no other is touched.
    have hnext : ∀ x', (d.iocs e.1.ioc).left = x'.left →
        x'.Sound d.callback e.1.ioc (x'.left ++
          (d.inKernel ++ (d.events ++ d.reaped).map (·.1)).filter (·.ioc = e.1.ioc))
          (d.countedOff e.1.ioc ++ [e.1]) (d.seen e.1.ioc) →
        Device.modify { d with current := none, counted := d.counted ++ [e] } e.1.ioc x' = d' →
        d'.Outcome := by
      intro x' hleft hx' hd
      have hqd : d'.queued = d.inKernel ++ (d.events ++ d.reaped).map (·.1) := by
        simp only [← hd, queued, Device.modify, Option.toList_none, List.append_nil]
      have hsn : ∀ k, d'.seen k = d.seen k := by
        intro k
        simp only [← hd, seen, Device.modify, hcur, Option.toList_none, Option.toList_some,
          List.append_nil]
      have hco : ∀ k, d'.countedOff k = d.countedOff k ++ [e.1].filter (·.ioc = k) := by
        intro k
        simp only [← hd, countedOff, Device.modify, List.map_append, List.map_cons, List.map_nil,
          List.filter_append]
      refine Sound.outcome (h.modify (x := x') (c := e.1.ioc) (hd ▸ rfl) (hd ▸ rfl)
        (fun k hk => ⟨?_, ?_, hsn k⟩) ?_) (hd ▸ hf)
      · have hqk := hq.filter (·.ioc = k)
        rw [List.filter_cons_of_neg (by simp [Ne.symm hk])] at hqk
        exact hqd ▸ hqk.symm
      · rw [hco, List.filter_eq_nil_iff.mpr (by simp [Ne.symm hk]), List.append_nil]
      · have he : [e.1].filter (·.ioc = e.1.ioc) = [e.1] := List.filter_eq_self.mpr (by simp)
        rw [hqd, hsn, hco, he]
        exact hx'
    -- What is in flight in the context is the counted event and the rest.
    have hfl : d.inFlight e.1.ioc ~ e.1 :: ((d.iocs e.1.ioc).left ++
        (d.inKernel ++ (d.events ++ d.reaped).map (·.1)).filter (·.ioc = e.1.ioc)) := by
      have hqc := hq.filter (·.ioc = e.1.ioc)
      rw [List.filter_cons_of_pos (by simp)] at hqc
      exact (hqc.append_left _).trans List.perm_middle
    dsimp only at hs
    split at hs
    case isTrue hcb =>
      have hl : (d.iocs e.1.ioc).left = (d.iocs e.1.ioc).tryCallback.left := by
        unfold IoContext.tryCallback
        split <;> rfl
      exact hnext _ hl (hl ▸ (h e.1.ioc).tryCallback hfl hcb) (Option.some.inj hs)
    case isFalse hcb =>
      split at hs
      · cases hs
      case isFalse hlock =>
        obtain ⟨x', hx', hsound⟩ := (h e.1.ioc).tryAioWake hfl (Bool.not_eq_true _ ▸ hcb)
          (by simpa using hlock)
        have hl : (d.iocs e.1.ioc).left = x'.left := by
          unfold IoContext.tryAioWake at hx'
          split at hx'
          · rw [← Option.some.inj hx']
            split <;> rfl
          · cases hx'
        simp only [hx'] at hs
        exact hnext x' hl (hl ▸ hsound) (Option.some.inj hs)

/-- A thread that is not past the mutex does not hold it. -/
theorem Sound.not_held {t : ℕ} (h : d.Sound)
    (ht : (d.iocs c).waits t ≠ .testing ∧ (d.iocs c).waits t ≠ .waiting) :
    (d.iocs c).lock ≠ some t :=
  fun hl => (((h c).held t).mp hl).elim ht.1 ht.2

/-- A move of a thread that does not have the mutex before or after it. -/
theorem Sound.move_out {t : ℕ} {pc : WaitPc} (h : d.Sound)
    (ht : (d.iocs c).waits t ≠ .testing ∧ (d.iocs c).waits t ≠ .waiting)
    (hpc : pc ≠ .testing ∧ pc ≠ .waiting ∧ pc ≠ .asleep) :
    (d.modify c ((d.iocs c).goto t pc)).Sound :=
  h.modify_same rfl ((h c).goto (l := (d.iocs c).lock)
    (iff_of_false (h.not_held ht) (by simp [hpc.1, hpc.2.1])) (fun _ _ => Iff.rfl)
    (fun hp => by simp [hpc.2.1, hpc.2.2] at hp))

/-- A move of a thread that leaves the mutex. -/
theorem Sound.move_unlock {t : ℕ} {pc : WaitPc} (h : d.Sound)
    (hl : (d.iocs c).lock = some t) (hpc : pc ≠ .testing ∧ pc ≠ .waiting)
    (hrun : pc = .asleep → (d.iocs c).calledBack d.callback = false → 0 < (d.iocs c).numRunning) :
    (d.modify c { (d.iocs c).goto t pc with lock := none }).Sound :=
  h.modify_same rfl ((h c).goto (l := none) (iff_of_false (by simp) (by simp [hpc.1, hpc.2]))
    (fun u hu => by simp [hl, Ne.symm hu]) (fun hp => hrun (hp.resolve_left hpc.2)))

/-- A thread's steps in `aio_wait` keep a device sound. -/
theorem wait_outcome {t : ℕ} (h : d.Sound) (hf : d.fault = none)
    (hs : d.waitCall c t = some d' ∨ d.waitLock c t = some d' ∨ d.waitTest c t = some d' ∨
      d.waitSleep c t = some d' ∨ d.waitWake c t = some d') : d'.Outcome := by
  refine Sound.outcome ?_ ?_
  · rcases hs with hs | hs | hs | hs | hs
    · obtain ⟨ht, hd⟩ := Option.ite_none_right_eq_some.mp hs
      exact Option.some.inj hd ▸ h.move_out (by simp [ht]) (by decide)
    · obtain ⟨⟨ht, hl⟩, hd⟩ := Option.ite_none_right_eq_some.mp hs
      refine Option.some.inj hd ▸ h.modify_same rfl
        ((h c).goto (l := some t) (by simp) ?_ (by simp))
      intro u hu
      simp [hl, Ne.symm hu]
    · obtain ⟨ht, hd⟩ := Option.ite_none_right_eq_some.mp hs
      have hl : (d.iocs c).lock = some t := ((h c).held t).mpr (Or.inl ht)
      split at hd
      case isTrue hrun =>
        exact Option.some.inj hd ▸ h.modify_same rfl ((h c).goto (l := (d.iocs c).lock)
          (iff_of_true hl (Or.inr rfl)) (fun _ _ => Iff.rfl) (fun _ _ => hrun))
      case isFalse =>
        exact Option.some.inj hd ▸ h.move_unlock hl (by decide) (by simp)
    · obtain ⟨ht, hd⟩ := Option.ite_none_right_eq_some.mp hs
      exact Option.some.inj hd ▸ h.move_unlock (((h c).held t).mpr (Or.inr ht)) (by decide)
        (fun _ hc => (h c).awake hc t (Or.inl ht))
    · obtain ⟨ht, hd⟩ := Option.ite_none_right_eq_some.mp hs
      exact Option.some.inj hd ▸ h.move_out (by simp [ht]) (by decide)
  · rcases hs with hs | hs | hs | hs | hs <;> obtain ⟨_, hd⟩ := Option.ite_none_right_eq_some.mp hs
    case inr.inr.inl =>
      split at hd <;> exact Option.some.inj hd ▸ hf
    all_goals exact Option.some.inj hd ▸ hf

/-- Every action keeps a device sound, and none makes the assertion of `try_aio_wake` fail. -/
theorem step_outcome (h : d.Sound) {a : Action} (hs : step d a = some d') : d'.Outcome := by
  unfold step at hs
  split at hs
  · cases hs
  case isFalse hfault =>
    have hf : d.fault = none := by simpa using hfault
    -- `write` and `flush` touch no context and no queue.
    have haside : d'.callback = d.callback → d'.iocs = d.iocs → d'.queued = d.queued →
        d'.counted = d.counted → d'.current = d.current → d'.fault = d.fault → d'.Outcome :=
      fun hcb hio hq hco hcur hfd =>
        Sound.outcome (h.move hcb hio (List.Perm.of_eq hq) hco hcur) (hfd.trans hf)
    cases a with
    | aioRead c off len | aioWrite c off len =>
      refine Sound.outcome (h.prepare hs) ?_
      simp only [Device.aioRead, Device.aioWrite, Device.prepare] at hs
      grind [Device.modify]
    | aioSubmit c =>
      refine Sound.outcome (h.aioSubmit hs) ?_
      simp only [Device.aioSubmit] at hs
      grind [Device.modify]
    | ioSubmit c submitted => exact ioSubmit_outcome h hf hs
    | release c => exact release_outcome h hf hs
    | complete i res => exact complete_outcome h hf hs
    | getNextCompleted n => exact getNextCompleted_outcome h hf hs
    | getEventsFails =>
      obtain ⟨_, hd⟩ := Option.ite_none_right_eq_some.mp hs
      exact outcome_of_fault (f := .unreadEvents) (Option.some.inj hd ▸ rfl) (by decide)
    | deliver => exact deliver_outcome h hf hs
    | count => exact count_outcome h hf hs
    | waitCall c t => exact wait_outcome h hf (Or.inl hs)
    | waitLock c t => exact wait_outcome h hf (Or.inr (Or.inl hs))
    | waitTest c t => exact wait_outcome h hf (Or.inr (Or.inr (Or.inl hs)))
    | waitSleep c t => exact wait_outcome h hf (Or.inr (Or.inr (Or.inr (Or.inl hs))))
    | waitWake c t => exact wait_outcome h hf (Or.inr (Or.inr (Or.inr (Or.inr hs))))
    | pwritev =>
      have hd := Option.some.inj hs
      exact haside (hd ▸ rfl) (hd ▸ rfl) (hd ▸ rfl) (hd ▸ rfl) (hd ▸ rfl) (hd ▸ rfl)
    | writeDone i =>
      simp only [Device.writeDone] at hs
      split at hs
      · cases hs
      · have hd := Option.some.inj hs
        exact haside (hd ▸ rfl) (hd ▸ rfl) (hd ▸ rfl) (hd ▸ rfl) (hd ▸ rfl) (hd ▸ rfl)
    | flushEnter =>
      obtain ⟨_, hs⟩ := Option.ite_none_right_eq_some.mp hs
      have hd := Option.some.inj hs
      exact haside (hd ▸ rfl) (hd ▸ rfl) (hd ▸ rfl) (hd ▸ rfl) (hd ▸ rfl) (hd ▸ rfl)
    | flushExchange | fdatasync ok =>
      simp only [Device.flushExchange, Device.fdatasync] at hs
      split at hs
      · split at hs <;>
        · have hd := Option.some.inj hs
          exact haside (hd ▸ rfl) (hd ▸ rfl) (hd ▸ rfl) (hd ▸ rfl) (hd ▸ rfl) (hd ▸ rfl)
      · cases hs

/-- Nothing happens after a fault. -/
theorem step_live {a : Action} (hs : step d a = some d') : d.fault = none := by
  unfold step at hs
  split at hs
  · cases hs
  case isFalse hfault => simpa using hfault

/-- A device that did not stop stays sound over every run, and the assertion of `try_aio_wake`
never fails. -/
theorem outcome_run {as : List Action} (h : d.Outcome) (hrun : exec d as = some d') :
    d'.Outcome :=
  Runs.exec_invariant (fun _ _ _ hs (_ : True) hst => step_outcome (hs.2 (step_live hst)) hst)
    as d d' h (Runs.meets_of_forall (fun _ _ => trivial) _ _) hrun

/-- What an action leaves of the context it touches: who is called back, the callbacks, unless it
counts off, and the aios prepared, unless it prepares one under a new number. -/
def Touched (d d' : Device) (a : Action) (c : ℕ) (x : IoContext) : Prop :=
  d'.iocs = Function.update d.iocs c x ∧ (d'.callback = d.callback ∧ x.priv = (d.iocs c).priv) ∧
    (a = .count ∨ x.callbacks = (d.iocs c).callbacks) ∧
    (x.issued = (d.iocs c).issued ∧ d.next ≤ d'.next ∨
      ∃ write off len, x.issued = (d.iocs c).issued ++ [⟨d.next, c, write, off, len⟩] ∧
        d'.next = d.next + 1)

/-- Every action touches one context at most. -/
theorem step_touched {a : Action} (hs : step d a = some d') : ∃ c x, Touched d d' a c x := by
  -- An action leaves every context as it is, or changes one and hands out no number.
  have hnone : ∀ {e : Device}, e = d' → e.iocs = d.iocs → e.callback = d.callback →
      d.next ≤ e.next → ∃ c x, Touched d d' a c x := by
    intro e he hio hc hn
    rw [← he]
    exact ⟨0, d.iocs 0, by rw [hio, Function.update_eq_self], ⟨hc, rfl⟩, Or.inr rfl,
      Or.inl ⟨rfl, hn⟩⟩
  have hone : ∀ {e : Device} (c : ℕ) (x : IoContext), e = d' →
      e.iocs = Function.update d.iocs c x → e.callback = d.callback ∧ e.next = d.next →
      (a = .count ∨ x.callbacks = (d.iocs c).callbacks) →
      x.issued = (d.iocs c).issued ∧ x.priv = (d.iocs c).priv →
      ∃ c x, Touched d d' a c x := by
    intro e c x he hio hd hcb hx
    rw [← he]
    exact ⟨c, x, hio, ⟨hd.1, hx.2⟩, hcb, Or.inl ⟨hx.1, le_of_eq hd.2.symm⟩⟩
  -- Which of the two it is, is read off the definition of the action.
  unfold step at hs
  split at hs
  · cases hs
  · cases a with
    | aioRead c off len | aioWrite c off len =>
      simp only [Device.aioRead, Device.aioWrite, Device.prepare] at hs
      split at hs
      · cases hs
      · split at hs
        · exact hnone (Option.some.inj hs) rfl rfl (le_refl _)
        · have hd := Option.some.inj hs
          rw [← hd]
          exact ⟨c, _, rfl, ⟨rfl, rfl⟩, Or.inr rfl, Or.inr ⟨_, off, len, rfl, rfl⟩⟩
    | aioSubmit c =>
      simp only [Device.aioSubmit] at hs
      split at hs
      · cases hs
      · have hd := Option.some.inj hs
        refine hone c _ hd rfl ⟨rfl, rfl⟩ (Or.inr ?_) ⟨?_, ?_⟩ <;>
          · unfold IoContext.submit
            split <;> rfl
    | ioSubmit c submitted =>
      simp only [Device.ioSubmit] at hs
      split at hs
      · cases hs
      · split at hs
        · cases hs
        · split at hs <;>
          · have hd := Option.some.inj hs
            exact hone c _ hd rfl ⟨rfl, rfl⟩ (Or.inr rfl) ⟨rfl, rfl⟩
    | release c =>
      simp only [Device.release, IoContext.releaseRunningAios] at hs
      split at hs
      · cases hs
      · split at hs
        case h_1 x hx =>
          obtain ⟨_, hx⟩ := Option.ite_none_right_eq_some.mp hx
          have hd := Option.some.inj hs
          have hx := Option.some.inj hx
          exact hone c x hd rfl ⟨rfl, rfl⟩ (Or.inr (hx ▸ rfl)) (hx ▸ ⟨rfl, rfl⟩)
        case h_2 => exact hnone (Option.some.inj hs) rfl rfl (le_refl _)
    | complete i res | writeDone i =>
      simp only [Device.complete, Device.writeDone] at hs
      split at hs
      · cases hs
      · exact hnone (Option.some.inj hs) rfl rfl (le_refl _)
    | getNextCompleted n | getEventsFails | flushEnter =>
      obtain ⟨_, hd⟩ := Option.ite_none_right_eq_some.mp hs
      exact hnone (Option.some.inj hd) rfl rfl (le_refl _)
    | deliver =>
      simp only [Device.deliver] at hs
      split at hs
      case h_2 => cases hs
      case h_1 e rest hcur hreap =>
        have hd := Option.some.inj hs
        refine hone e.1.ioc _ hd rfl ⟨rfl, rfl⟩ (Or.inr ?_) ⟨?_, ?_⟩ <;> split <;> rfl
    | count =>
      simp only [Device.count] at hs
      split at hs
      · cases hs
      case h_2 e hcur =>
        split at hs
        · have hd := Option.some.inj hs
          refine hone e.1.ioc _ hd rfl ⟨rfl, rfl⟩ (Or.inl rfl) ?_
          unfold IoContext.tryCallback
          split <;> exact ⟨rfl, rfl⟩
        · split at hs
          · cases hs
          · split at hs
            case h_1 x' hx' =>
              have hd := Option.some.inj hs
              obtain ⟨_, hx'⟩ := Option.ite_none_right_eq_some.mp hx'
              refine hone e.1.ioc x' hd rfl ⟨rfl, rfl⟩ (Or.inl rfl) ?_
              rw [← Option.some.inj hx']
              split <;> exact ⟨rfl, rfl⟩
            case h_2 => exact hnone (Option.some.inj hs) rfl rfl (le_refl _)
    | waitCall c t | waitLock c t | waitSleep c t | waitWake c t =>
      obtain ⟨_, hd⟩ := Option.ite_none_right_eq_some.mp hs
      have hd := Option.some.inj hd
      exact hone c _ hd rfl ⟨rfl, rfl⟩ (Or.inr rfl) ⟨rfl, rfl⟩
    | waitTest c t =>
      obtain ⟨_, hs⟩ := Option.ite_none_right_eq_some.mp hs
      split at hs <;>
        · have hd := Option.some.inj hs
          exact hone c _ hd rfl ⟨rfl, rfl⟩ (Or.inr rfl) ⟨rfl, rfl⟩
    | pwritev => exact hnone (Option.some.inj hs) rfl rfl (Nat.le_succ _)
    | flushExchange | fdatasync ok =>
      simp only [Device.flushExchange, Device.fdatasync] at hs
      split at hs
      · split at hs <;>
          exact hnone (Option.some.inj hs) rfl rfl (le_refl _)
      · cases hs

/-- Only the count calls back. -/
theorem step_callbacks {a : Action} (hs : step d a = some d') (ha : a ≠ .count) (k : ℕ) :
    (d'.iocs k).callbacks = (d.iocs k).callbacks := by
  obtain ⟨c, x, hio, _, hcb, _⟩ := step_touched hs
  rw [hio, Function.update_apply]
  split
  case isTrue hk => rw [hcb.resolve_left ha, hk]
  case isFalse => rfl

/-- Who is called back stays as it is. -/
theorem calledBack_run {as : List Action} (hrun : exec d as = some d') (c : ℕ) :
    (d'.iocs c).calledBack d'.callback = (d.iocs c).calledBack d.callback := by
  induction as generalizing d with
  | nil => exact Option.some.inj hrun ▸ rfl
  | cons a as ih =>
    obtain ⟨e, he, hrest⟩ := Runs.exec_cons.mp hrun
    obtain ⟨k, x, hio, ⟨hc, hp⟩, _⟩ := step_touched he
    have hpriv : (e.iocs c).priv = (d.iocs c).priv := by
      rw [hio, Function.update_apply]
      split
      case isTrue hk => rw [hp, hk]
      case isFalse => rfl
    rw [ih hrest]
    unfold IoContext.calledBack
    rw [hc, hpriv]

/-- The aios of a context have numbers of their own. -/
def Numbered (d : Device) : Prop :=
  ∀ c, (∀ a ∈ (d.iocs c).issued, a.id < d.next) ∧ ((d.iocs c).issued.map (·.id)).Nodup

/-- Every action keeps the numbers apart. -/
theorem Numbered.step (h : d.Numbered) {a : Action} (hs : step d a = some d') : d'.Numbered := by
  obtain ⟨c, x, hio, _, _, hissued⟩ := step_touched hs
  intro k
  have hk := h k
  rw [hio, Function.update_apply]
  rcases hissued with ⟨hx, hn⟩ | ⟨write, off, len, hx, hn⟩
  · split
    case isTrue hkc =>
      rw [hx, ← hkc]
      exact ⟨fun b hb => (hk.1 b hb).trans_le hn, hk.2⟩
    case isFalse => exact ⟨fun b hb => (hk.1 b hb).trans_le hn, hk.2⟩
  · split
    case isTrue hkc =>
      rw [hx, ← hkc, hn]
      refine ⟨fun b hb => ?_, ?_⟩
      · rcases List.mem_append.mp hb with hb | hb
        · exact (hk.1 b hb).trans (Nat.lt_succ_self _)
        · rw [List.mem_singleton.mp hb]
          exact Nat.lt_succ_self _
      · rw [List.map_append, List.nodup_append]
        refine ⟨hk.2, List.nodup_singleton _, ?_⟩
        intro i hi j hj
        obtain ⟨b, hb, rfl⟩ := List.mem_map.mp hi
        rw [List.mem_singleton.mp hj]
        exact Nat.ne_of_lt (hk.1 b hb)
    case isFalse => exact ⟨fun b hb => hn ▸ (hk.1 b hb).trans (Nat.lt_succ_self _), hk.2⟩

/-- A device after `open` is as every run needs it. -/
theorem outcome_opened (callback : Bool) (size blockSize : ℕ) (priv : ℕ → Bool) :
    (opened callback size blockSize priv).Outcome :=
  (sound_opened callback size blockSize priv).outcome rfl

/-- Over every run the numbers stay apart. -/
theorem numbered_run {callback : Bool} {size blockSize : ℕ} {priv : ℕ → Bool} {as : List Action}
    (hrun : exec (opened callback size blockSize priv) as = some d) : d.Numbered :=
  Runs.exec_invariant (fun _ _ _ hs (_ : True) hst => hs.step hst) as _ d
    (fun _ => by simp [opened, IoContext.fresh]) (Runs.meets_of_forall (fun _ _ => trivial) _ _)
    hrun

end Device

end CxxLab.Blk
