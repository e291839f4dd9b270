import Mathlib.Data.Int.Notation
import Mathlib.Data.List.Perm.Basic
import Mathlib.Logic.Function.Basic
import CxxLab.Lib.Runs

/-!
# The asynchronous I/O of the kernel device

`blk/aio.cc`, `blk/io_context.cc` and `blk/kernel_device.cc`: I/Os are gathered in an `IOContext`,
handed to the kernel in one batch, reaped by one completion thread, and counted off; their owner
waits on a condition variable or is called back. `flush` calls `fdatasync` if something was written
since the last one.

A run is a list of actions of the threads and of the kernel, each up to the next access to something
that another thread writes: an atomic, a mutex, the kernel's queues. The owner of a context alone
touches its lists. The kernel accepts and completes I/Os as it likes.

Beside the code's state stands what a reader of the code would like to know: the I/Os prepared and
counted off, the writes in the cache of the medium, on the medium, and reported to their callers.
-/

namespace CxxLab.Blk

/-- `EAGAIN`. -/
def EAGAIN : ℤ := 11

/-- `EIO`. -/
def EIO : ℤ := 5

/-- `kMaxReap`. -/
def kMaxReap : ℕ := 256

/-- `aio_t`, without the buffers. -/
structure Aio where
  /-- Which object, also which write. -/
  id : ℕ
  /-- `priv`: its context. -/
  ioc : ℕ
  /-- `io_prep_pwritev` or `io_prep_preadv`. -/
  write : Bool
  /-- `offset`. -/
  offset : ℕ
  /-- `length`. -/
  length : ℕ
  deriving DecidableEq, Repr

/-- An aio and its `rval`. -/
abbrev Event := Aio × ℤ

/-- The test of the completion thread on the return value. -/
def Event.bad (e : Event) : Bool := e.2 < 0 ∨ e.2 ≠ (e.1.length : ℤ)

/-- Where a thread is in `aio_wait`. -/
inductive WaitPc where
  /-- Not in it. -/
  | out
  /-- At the mutex, on its way in or back from the condition variable. -/
  | locking
  /-- It holds the mutex, before the load. -/
  | testing
  /-- It holds the mutex and has seen I/Os that run, before `cond.wait`. -/
  | waiting
  /-- In `cond.wait`. -/
  | asleep
  deriving DecidableEq, Repr

/-- The loop of `submit_batch`. -/
structure Batch where
  /-- From `p` on. -/
  left : List Aio
  /-- `attempts`. -/
  attempts : ℕ
  /-- `r`. -/
  r : ℤ
  deriving DecidableEq, Repr

/-- `IOContext`, with its owner's place in `aio_submit` and the places of those that wait. -/
structure IoContext where
  /-- If `priv` is set. -/
  priv : Bool
  /-- `r`. -/
  r : ℤ
  /-- `pending_aios`. -/
  pendingAios : List Aio
  /-- `running_aios`. -/
  runningAios : List Aio
  /-- `num_pending`. -/
  numPending : ℤ
  /-- `num_running`. -/
  numRunning : ℤ
  /-- The thread that holds `lock`. -/
  lock : Option ℕ
  /-- The threads in `aio_wait`. -/
  waits : ℕ → WaitPc
  /-- The owner in `submit_batch`. -/
  batch : Option Batch
  /-- The aios prepared so far. -/
  issued : List Aio
  /-- How often something was submitted. -/
  submits : ℕ
  /-- How often `aio_callback` was called with it. -/
  callbacks : ℕ

namespace IoContext

/-- A context as it is made. -/
def fresh (priv : Bool) : IoContext where
  priv := priv
  r := 0
  pendingAios := []
  runningAios := []
  numPending := 0
  numRunning := 0
  lock := none
  waits _ := .out
  batch := none
  issued := []
  submits := 0
  callbacks := 0

/-- What `submit_batch` has not handed to the kernel. -/
def left (x : IoContext) : List Aio := (x.batch.map (·.left)).getD []

/-- `emplace_back` and `num_pending.fetch_add(1)`. -/
def prepare (x : IoContext) (a : Aio) : IoContext :=
  { x with pendingAios := x.pendingAios ++ [a], numPending := x.numPending + 1,
           issued := x.issued ++ [a] }

/-- `aio_submit` up to `submit_batch`: all is running before the kernel sees any of it. -/
def submit (x : IoContext) : IoContext :=
  if x.numPending = 0 then x
  else
    { x with pendingAios := [], runningAios := x.pendingAios ++ x.runningAios,
             numRunning := x.numRunning + x.numPending, numPending := 0,
             batch := some ⟨x.pendingAios, 16, 0⟩, submits := x.submits + 1 }

/-- `cond.notify_all`. -/
def notifyAll (x : IoContext) : IoContext :=
  { x with waits := fun t => if x.waits t = .asleep then .locking else x.waits t }

/-- `num_running.fetch_sub(1)`. -/
def countOff (x : IoContext) : IoContext := { x with numRunning := x.numRunning - 1 }

/-- `try_aio_wake`, if its assertion holds. -/
def tryAioWake (x : IoContext) : Option IoContext :=
  if x.numRunning ≥ 1 then
    some (if x.numRunning = 1 then x.countOff.notifyAll else x.countOff)
  else none

/-- The branch of the completion thread that calls back. -/
def tryCallback (x : IoContext) : IoContext :=
  if x.numRunning = 1 then { x.countOff with callbacks := x.callbacks + 1 } else x.countOff

/-- `release_running_aios`, if its assertion holds. -/
def releaseRunningAios (x : IoContext) : Option IoContext :=
  if x.numRunning = 0 then some { x with runningAios := [] } else none

/-- A thread goes on in `aio_wait`. -/
def goto (x : IoContext) (t : ℕ) (pc : WaitPc) : IoContext :=
  { x with waits := Function.update x.waits t pc }

end IoContext

/-- A turn of the loop of `submit_batch` on what `io_submit` returned: the loop goes on, or the
batch ends with an error. -/
def Batch.turn (b : Batch) (submitted : ℤ) : Except ℤ Batch :=
  if submitted < 0 then
    if -submitted = EAGAIN ∧ 0 < b.attempts then .ok { b with attempts := b.attempts - 1 }
    else .error submitted
  else if submitted = 0 then
    if 0 < b.attempts then .ok { b with attempts := b.attempts - 1 } else .error (-EAGAIN)
  else .ok { b with left := b.left.drop submitted.toNat, r := b.r + submitted }

/-- A way in which the process stops, or goes on with memory that nobody wrote. -/
inductive Fault where
  /-- The assertion of `aio_submit`. -/
  | submitFailed
  /-- The assertion of `try_aio_wake`. -/
  | noneRunning
  /-- The assertion of `release_running_aios`. -/
  | stillRunning
  /-- `get_next_completed` returns an error number as a count. -/
  | unreadEvents
  deriving DecidableEq, Repr

/-- Where the thread that holds `flush_mutex_` is in `flush`. -/
structure Flusher where
  /-- At `fdatasync`, or before the exchange. -/
  syncing : Bool
  /-- The writes that were reported before it came. -/
  owed : List ℕ
  deriving DecidableEq, Repr

/-- `KernelDevice`, its kernel queue and its medium. -/
structure Device where
  /-- If `aio_callback` is set. -/
  callback : Bool
  /-- `size`. -/
  size : ℕ
  /-- `block_size`. -/
  blockSize : ℕ
  /-- The contexts. -/
  iocs : ℕ → IoContext
  /-- The next object. -/
  next : ℕ
  /-- What the kernel works on. -/
  inKernel : List Aio
  /-- What the kernel has completed. -/
  events : List Event
  /-- What the completion thread has yet to look at. -/
  reaped : List Event
  /-- What it is looking at, with the return value noted and the count to come. -/
  current : Option Event
  /-- What it has counted off. -/
  counted : List Event
  /-- `io_since_flush_`. -/
  ioSinceFlush : Bool
  /-- The thread in `flush`. -/
  flusher : Option Flusher
  /-- The calls of `write` that have written and not set the flag. -/
  writing : List ℕ
  /-- The writes that reached the device. -/
  cached : List ℕ
  /-- The writes that a power failure leaves. -/
  durable : List ℕ
  /-- The writes reported to their callers. -/
  reported : List ℕ
  /-- The writes that were reported before a `flush` that returned 0. -/
  flushed : List ℕ
  /-- What stopped the process. -/
  fault : Option Fault

namespace Device

/-- A device after `open`, with contexts as they are made. -/
def opened (callback : Bool) (size blockSize : ℕ) (priv : ℕ → Bool) : Device where
  callback := callback
  size := size
  blockSize := blockSize
  iocs c := .fresh (priv c)
  next := 0
  inKernel := []
  events := []
  reaped := []
  current := none
  counted := []
  ioSinceFlush := false
  flusher := none
  writing := []
  cached := []
  durable := []
  reported := []
  flushed := []
  fault := none

/-- One context changes. -/
def modify (d : Device) (c : ℕ) (x : IoContext) : Device :=
  { d with iocs := Function.update d.iocs c x }

/-- `is_valid_io`, with `block_size` a power of two. -/
def isValidIo (d : Device) (off len : ℕ) : Bool :=
  len ≠ 0 ∧ off < d.size ∧ off + len < 0x10000000000000000 ∧ off + len ≤ d.size ∧
    off % d.blockSize = 0 ∧ len % d.blockSize = 0

/-- `aio_read` and `aio_write`: `-EINVAL`, or one more pending aio. -/
def prepare (d : Device) (write : Bool) (c off len : ℕ) : Option Device :=
  if (d.iocs c).batch.isSome then none
  else if !d.isValidIo off len then some d
  else some { d.modify c ((d.iocs c).prepare ⟨d.next, c, write, off, len⟩) with next := d.next + 1 }

/-- `aio_read`. -/
def aioRead (d : Device) (c off len : ℕ) : Option Device := d.prepare false c off len

/-- `aio_write`, not buffered. -/
def aioWrite (d : Device) (c off len : ℕ) : Option Device := d.prepare true c off len

/-- `aio_submit` up to `submit_batch`. -/
def aioSubmit (d : Device) (c : ℕ) : Option Device :=
  if (d.iocs c).batch.isSome then none else some (d.modify c (d.iocs c).submit)

/-- A call of `io_submit` from `submit_batch`; the kernel takes no more than it is given. -/
def ioSubmit (d : Device) (c : ℕ) (submitted : ℤ) : Option Device :=
  match (d.iocs c).batch with
  | none => none
  | some b =>
    if submitted > b.left.length then none
    else
      match b.turn submitted with
      | .error r =>
        some { d.modify c { d.iocs c with r := r } with fault := some .submitFailed }
      | .ok b' =>
        let x := { d.iocs c with batch := if b'.left.isEmpty then none else some b' }
        some { d.modify c x with inKernel := d.inKernel ++ b.left.take submitted.toNat }

/-- `release_running_aios`. -/
def release (d : Device) (c : ℕ) : Option Device :=
  if (d.iocs c).batch.isSome then none
  else
    match (d.iocs c).releaseRunningAios with
    | some x => some (d.modify c x)
    | none => some { d with fault := some .stillRunning }

/-- The kernel is done with an aio. A write that is done in full is in the cache of the medium. -/
def complete (d : Device) (i : ℕ) (res : ℤ) : Option Device :=
  match d.inKernel[i]? with
  | none => none
  | some a =>
    some { d with
      inKernel := d.inKernel.eraseIdx i
      events := d.events ++ [(a, res)]
      cached := if a.write ∧ res = (a.length : ℤ) then d.cached ++ [a.id] else d.cached }

/-- `get_next_completed` gets some events. -/
def getNextCompleted (d : Device) (n : ℕ) : Option Device :=
  if d.reaped.isEmpty ∧ d.current.isNone ∧ n ≤ kMaxReap ∧ n ≤ d.events.length then
    some { d with events := d.events.drop n, reaped := d.events.take n }
  else none

/-- `io_getevents` fails, and not with `EINTR`: the error number is taken for a count. -/
def getEventsFails (d : Device) : Option Device :=
  if d.reaped.isEmpty ∧ d.current.isNone then some { d with fault := some .unreadEvents } else none

/-- The loop's body in `_aio_thread` up to the count. -/
def deliver (d : Device) : Option Device :=
  match d.current, d.reaped with
  | none, e :: rest =>
    let x := d.iocs e.1.ioc
    some { d.modify e.1.ioc (if e.bad then { x with r := - EIO } else x) with
      reaped := rest
      current := some e
      ioSinceFlush := true
      reported := if e.1.write ∧ !e.bad then d.reported ++ [e.1.id] else d.reported }
  | _, _ => none

/-- The rest of the body: the count, with the callback or the wakeup. -/
def count (d : Device) : Option Device :=
  match d.current with
  | none => none
  | some e =>
    let x := d.iocs e.1.ioc
    let d' := { d with current := none, counted := d.counted ++ [e] }
    if x.priv && d.callback then some (d'.modify e.1.ioc x.tryCallback)
    else if x.lock.isSome then none
    else
      match x.tryAioWake with
      | some x' => some (d'.modify e.1.ioc x')
      | none => some { d with fault := some .noneRunning }

/-- A thread comes to `aio_wait`. -/
def waitCall (d : Device) (c t : ℕ) : Option Device :=
  if (d.iocs c).waits t = .out then some (d.modify c ((d.iocs c).goto t .locking)) else none

/-- It gets the mutex. -/
def waitLock (d : Device) (c t : ℕ) : Option Device :=
  if (d.iocs c).waits t = .locking ∧ (d.iocs c).lock = none then
    some (d.modify c { (d.iocs c).goto t .testing with lock := some t })
  else none

/-- It loads `num_running`, and returns if nothing runs. -/
def waitTest (d : Device) (c t : ℕ) : Option Device :=
  if (d.iocs c).waits t = .testing then
    if (d.iocs c).numRunning > 0 then some (d.modify c ((d.iocs c).goto t .waiting))
    else some (d.modify c { (d.iocs c).goto t .out with lock := none })
  else none

/-- It goes to sleep and leaves the mutex, at once. -/
def waitSleep (d : Device) (c t : ℕ) : Option Device :=
  if (d.iocs c).waits t = .waiting then
    some (d.modify c { (d.iocs c).goto t .asleep with lock := none })
  else none

/-- It wakes up for no reason. -/
def waitWake (d : Device) (c t : ℕ) : Option Device :=
  if (d.iocs c).waits t = .asleep then some (d.modify c ((d.iocs c).goto t .locking)) else none

/-- `write` has written all its data. -/
def pwritev (d : Device) : Option Device :=
  some { d with
    next := d.next + 1, writing := d.writing ++ [d.next], cached := d.cached ++ [d.next] }

/-- `write` sets the flag and returns. -/
def writeDone (d : Device) (i : ℕ) : Option Device :=
  match d.writing[i]? with
  | none => none
  | some id =>
    some { d with
      writing := d.writing.eraseIdx i, ioSinceFlush := true, reported := d.reported ++ [id] }

/-- `flush` gets the mutex. -/
def flushEnter (d : Device) : Option Device :=
  if d.flusher.isNone then some { d with flusher := some ⟨false, d.reported⟩ } else none

/-- The exchange in `flush`: nothing to do, or on to `fdatasync`. -/
def flushExchange (d : Device) : Option Device :=
  match d.flusher with
  | some ⟨false, owed⟩ =>
    if d.ioSinceFlush then some { d with ioSinceFlush := false, flusher := some ⟨true, owed⟩ }
    else some { d with flusher := none, flushed := d.flushed ++ owed }
  | _ => none

/-- `fdatasync` in `flush`. -/
def fdatasync (d : Device) (ok : Bool) : Option Device :=
  match d.flusher with
  | some ⟨true, owed⟩ =>
    if ok then
      some { d with
        flusher := none, durable := d.durable ++ d.cached, cached := []
        flushed := d.flushed ++ owed }
    else some { d with flusher := none }
  | _ => none

/-- What a thread or the kernel does. -/
inductive Action where
  /-- `aio_read`. -/
  | aioRead (c off len : ℕ)
  /-- `aio_write`. -/
  | aioWrite (c off len : ℕ)
  /-- `aio_submit`. -/
  | aioSubmit (c : ℕ)
  /-- `io_submit`. -/
  | ioSubmit (c : ℕ) (submitted : ℤ)
  /-- `release_running_aios`. -/
  | release (c : ℕ)
  /-- The kernel completes the aio at a place. -/
  | complete (i : ℕ) (res : ℤ)
  /-- `get_next_completed`. -/
  | getNextCompleted (n : ℕ)
  /-- `get_next_completed` after an error. -/
  | getEventsFails
  /-- The completion thread takes the next event. -/
  | deliver
  /-- It counts it off. -/
  | count
  /-- `aio_wait`. -/
  | waitCall (c t : ℕ)
  /-- `aio_wait` at the mutex. -/
  | waitLock (c t : ℕ)
  /-- `aio_wait` at the load. -/
  | waitTest (c t : ℕ)
  /-- `aio_wait` at `cond.wait`. -/
  | waitSleep (c t : ℕ)
  /-- A wakeup for no reason. -/
  | waitWake (c t : ℕ)
  /-- `write` at `pwritev`. -/
  | pwritev
  /-- `write` at its end. -/
  | writeDone (i : ℕ)
  /-- `flush`. -/
  | flushEnter
  /-- `flush` at the exchange. -/
  | flushExchange
  /-- `flush` at `fdatasync`. -/
  | fdatasync (ok : Bool)
  deriving DecidableEq, Repr

/-- One action; after a fault nothing happens. -/
def step (d : Device) (a : Action) : Option Device :=
  if d.fault.isSome then none
  else
    match a with
    | .aioRead c off len => d.aioRead c off len
    | .aioWrite c off len => d.aioWrite c off len
    | .aioSubmit c => d.aioSubmit c
    | .ioSubmit c submitted => d.ioSubmit c submitted
    | .release c => d.release c
    | .complete i res => d.complete i res
    | .getNextCompleted n => d.getNextCompleted n
    | .getEventsFails => d.getEventsFails
    | .deliver => d.deliver
    | .count => d.count
    | .waitCall c t => d.waitCall c t
    | .waitLock c t => d.waitLock c t
    | .waitTest c t => d.waitTest c t
    | .waitSleep c t => d.waitSleep c t
    | .waitWake c t => d.waitWake c t
    | .pwritev => d.pwritev
    | .writeDone i => d.writeDone i
    | .flushEnter => d.flushEnter
    | .flushExchange => d.flushExchange
    | .fdatasync ok => d.fdatasync ok

/-- A run of the device. -/
abbrev exec : Device → List Action → Option Device := Runs.exec step

/-- The aios that the kernel has taken and the completion thread has not counted off. -/
def queued (d : Device) : List Aio :=
  d.inKernel ++ (d.events ++ d.reaped ++ d.current.toList).map (·.1)

/-- The aios of a context that are handed over and not counted off. -/
def inFlight (d : Device) (c : ℕ) : List Aio :=
  (d.iocs c).left ++ d.queued.filter (·.ioc = c)

/-- The aios of a context that are counted off. -/
def countedOff (d : Device) (c : ℕ) : List Aio := (d.counted.map (·.1)).filter (·.ioc = c)

/-- The completions of a context that the completion thread has looked at. -/
def seen (d : Device) (c : ℕ) : List Event :=
  (d.counted ++ d.current.toList).filter (·.1.ioc = c)

end Device

end CxxLab.Blk
