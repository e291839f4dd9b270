import Mathlib

/-!
# The throttle

`common/throttle.cc`: a count of what is taken, a maximum, and the condition variables of those that
wait, in the order in which they came. All calls hold the mutex but while they wait, so a run is a
list of actions: a call up to its wait or its end, a look of a waiter at its predicate, and the end
of a wait with a timeout. A waiter may look at any time; `notify_one` only says when it is worth it.

Beside the throttle stands a ledger of what the callers hold. As long as that is a number of 64
bits, the count is what is held, no assertion fails and nobody is overtaken
(`interleavings_kept`).
-/

namespace CxxLab.Common

/-- A call that waits: its condition variable, what it asks for, and if its wait has an end. -/
structure Waiter where
  /-- The place among all calls. -/
  id : ℕ
  /-- What it asks for. -/
  n : UInt64
  /-- `try_get`. -/
  timed : Bool
  deriving DecidableEq, Repr

/-- `Throttle`. -/
structure Throttle where
  /-- `count_`. -/
  count : UInt64
  /-- `max_`. -/
  max : UInt64
  /-- `conds_`. -/
  conds : List Waiter
  deriving DecidableEq, Repr

namespace Throttle

/-- `should_wait`. -/
def shouldWait (t : Throttle) (n : UInt64) : Bool :=
  t.max ≠ 0 ∧ ((n ≤ t.max ∧ t.count + n > t.max) ∨ (n ≥ t.max ∧ t.count > t.max))

/-- `count_.fetch_add(n)`. -/
def add (t : Throttle) (n : UInt64) : Throttle := { t with count := t.count + n }

/-- `get` and `try_get` up to the wait: `n` is acquired, or the caller waits behind the others. -/
def enter (t : Throttle) (w : Waiter) : Bool × Throttle :=
  if !t.shouldWait w.n && t.conds.isEmpty then (true, t.add w.n)
  else (false, { t with conds := t.conds ++ [w] })

/-- The predicate of a wait. -/
def ready (t : Throttle) (w : Waiter) : Bool :=
  !t.shouldWait w.n && (t.conds.head?.map (·.id) == some w.id)

/-- `conds_.erase(it)`. -/
def erase (t : Throttle) (w : Waiter) : Throttle :=
  { t with conds := t.conds.filter (·.id ≠ w.id) }

/-- A waiter looks at its predicate, and goes on if it holds. -/
def look (t : Throttle) (w : Waiter) : Bool × Throttle :=
  if t.ready w then (true, (t.add w.n).erase w) else (false, t)

/-- The time of a waiter is over: the predicate decides. -/
def expire (t : Throttle) (w : Waiter) : Bool × Throttle :=
  if t.ready w then (true, (t.add w.n).erase w) else (false, t.erase w)

/-- `get_or_fail`. -/
def getOrFail (t : Throttle) (n : UInt64) : Bool × Throttle :=
  if t.shouldWait n || !t.conds.isEmpty then (false, t) else (true, t.add n)

/-- `take`. -/
def take (t : Throttle) (n : UInt64) : UInt64 × Throttle :=
  if t.max = 0 then (0, t) else ((t.add n).count, t.add n)

/-- `put`, if its assertion holds. -/
def put (t : Throttle) (n : UInt64) : Option Throttle :=
  if n ≤ t.count then some { t with count := t.count - n } else none

/-- `reset_max`. -/
def resetMax (t : Throttle) (newMax : UInt64) : Throttle :=
  if t.max = newMax then t else { t with max := newMax }

end Throttle

/-- What was acquired through `get`, `get_or_fail` or `try_get`. -/
structure Grant where
  /-- The place of the call among all calls. -/
  id : ℕ
  /-- How much. -/
  n : UInt64
  /-- The maximum. -/
  max : UInt64
  /-- The count after it. -/
  count : UInt64
  deriving DecidableEq, Repr

/-- A throttle and the ledger of its callers. -/
structure Callers where
  /-- The throttle. -/
  throttle : Throttle
  /-- How many calls came. -/
  arrivals : ℕ
  /-- What was acquired and is not returned. -/
  outstanding : ℕ
  /-- What was acquired, in order. -/
  grants : List Grant
  deriving DecidableEq, Repr

/-- What happens to a throttle. -/
inductive Action where
  /-- `get` comes. -/
  | get (n : UInt64)
  /-- `try_get` comes. -/
  | tryGet (n : UInt64)
  /-- A waiter looks. -/
  | look (id : ℕ)
  /-- The time of a waiter is over. -/
  | expire (id : ℕ)
  /-- `get_or_fail`. -/
  | getOrFail (n : UInt64)
  /-- `take`. -/
  | take (n : UInt64)
  /-- `put`. -/
  | put (n : UInt64)
  /-- `reset_max`. -/
  | resetMax (newMax : UInt64)
  deriving DecidableEq, Repr

namespace Callers

/-- A throttle nobody used. -/
def start (max : UInt64) : Callers := ⟨⟨0, max, []⟩, 0, 0, []⟩

/-- A call returned, or waits. -/
def settle (s : Callers) (id : ℕ) (n : UInt64) (r : Bool × Throttle) : Callers :=
  if r.1 then
    { s with
      throttle := r.2, outstanding := s.outstanding + n.toNat,
      grants := s.grants ++ [⟨id, n, r.2.max, r.2.count⟩] }
  else { s with throttle := r.2 }

/-- One more call. -/
def arrive (s : Callers) : Callers := { s with arrivals := s.arrivals + 1 }

/-- The waiter with a condition variable. -/
def waiter? (s : Callers) (id : ℕ) : Option Waiter := s.throttle.conds.find? (·.id = id)

/-- An action. Nothing: the assertion of `put` fails. Without a limit `take` acquires nothing. -/
def act (s : Callers) : Action → Option Callers
  | .get n => some (s.arrive.settle s.arrivals n (s.throttle.enter ⟨s.arrivals, n, false⟩))
  | .tryGet n => some (s.arrive.settle s.arrivals n (s.throttle.enter ⟨s.arrivals, n, true⟩))
  | .look id =>
    match s.waiter? id with
    | some w => some (s.settle id w.n (s.throttle.look w))
    | none => some s
  | .expire id =>
    match s.waiter? id with
    | some w => if w.timed then some (s.settle id w.n (s.throttle.expire w)) else some s
    | none => some s
  | .getOrFail n => some (s.arrive.settle s.arrivals n (s.throttle.getOrFail n))
  | .take n => some
    { s with
      throttle := (s.throttle.take n).2
      outstanding := if s.throttle.max = 0 then s.outstanding else s.outstanding + n.toNat }
  | .put n => (s.throttle.put n).map fun t =>
    { s with throttle := t, outstanding := s.outstanding - n.toNat }
  | .resetMax newMax => some { s with throttle := s.throttle.resetMax newMax }

/-- The actions of a run. -/
def run : Callers → List Action → Option Callers
  | s, [] => some s
  | s, a :: as => (s.act a).bind fun s => s.run as

/-- A `put` returns what was acquired and is not returned. -/
def Returns (s : Callers) : Action → Prop
  | .put n => n.toNat ≤ s.outstanding
  | _ => True

/-- Every `put` of a run returns what was acquired and is not returned. -/
def Covered : Callers → List Action → Prop
  | _, [] => True
  | s, a :: as => s.Returns a ∧ ∀ s' ∈ s.act a, s'.Covered as

/-- What is held during a run is a number of 64 bits. -/
def Fits : Callers → List Action → Prop
  | _, [] => True
  | s, a :: as => ∀ s' ∈ s.act a, s'.outstanding < 2 ^ 64 ∧ s'.Fits as

instance (s : Callers) : ∀ a, Decidable (s.Returns a)
  | .put n => inferInstanceAs (Decidable (n.toNat ≤ s.outstanding))
  | .get _ | .tryGet _ | .look _ | .expire _ => .isTrue trivial
  | .getOrFail _ | .take _ | .resetMax _ => .isTrue trivial

instance decidableCovered : ∀ (s : Callers) (as : List Action), Decidable (s.Covered as)
  | _, [] => .isTrue trivial
  | s, a :: as =>
    have := fun s' : Callers => decidableCovered s' as
    inferInstanceAs (Decidable (s.Returns a ∧ ∀ s' ∈ s.act a, s'.Covered as))

instance decidableFits : ∀ (s : Callers) (as : List Action), Decidable (s.Fits as)
  | _, [] => .isTrue trivial
  | s, a :: as =>
    have := fun s' : Callers => decidableFits s' as
    inferInstanceAs (Decidable (∀ s' ∈ s.act a, s'.outstanding < 2 ^ 64 ∧ s'.Fits as))

/-! ## What is kept -/

/-- The count is what is held; what was acquired was acquired in the order of the calls, and nobody
who waits was overtaken; with a limit, no amount within it took the count above it. -/
structure Kept (s : Callers) : Prop where
  count : s.throttle.count.toNat = s.outstanding
  fifo : s.grants.Pairwise (·.id < ·.id)
  waiting : ∀ g ∈ s.grants, ∀ w ∈ s.throttle.conds, g.id < w.id
  bound : ∀ g ∈ s.grants, g.max ≠ 0 → g.n ≤ g.max → g.count ≤ g.max

/-- With it the queue is in the order of the calls. -/
structure Sound (s : Callers) : Prop extends Kept s where
  queue : s.throttle.conds.Pairwise (·.id < ·.id)
  came : ∀ w ∈ s.throttle.conds, w.id < s.arrivals
  granted : ∀ g ∈ s.grants, g.id < s.arrivals

/-- A new throttle is sound. -/
theorem Sound.start (max : UInt64) : Sound (start max) where
  count := rfl
  fifo := List.Pairwise.nil
  waiting _ hg := absurd hg List.not_mem_nil
  bound _ hg := absurd hg List.not_mem_nil
  queue := List.Pairwise.nil
  came _ hw := absurd hw List.not_mem_nil
  granted _ hg := absurd hg List.not_mem_nil

variable {s : Callers}

/-- A call comes. -/
theorem Sound.arrive (h : Sound s) : Sound s.arrive :=
  { h with
    came := fun w hw => (h.came w hw).trans (Nat.lt_succ_self _)
    granted := fun g hg => (h.granted g hg).trans (Nat.lt_succ_self _) }

/-- Waiters leave. -/
theorem Sound.shrink (h : Sound s) {t : Throttle} (hcount : t.count = s.throttle.count)
    (hconds : t.conds.Sublist s.throttle.conds) : Sound { s with throttle := t } :=
  { h with
    count := by rw [← h.count, hcount]
    waiting := fun g hg w hw => h.waiting g hg w (hconds.subset hw)
    queue := h.queue.sublist hconds
    came := fun w hw => h.came w (hconds.subset hw) }

/-- Something is acquired, by the next in order. -/
theorem Sound.grant (h : Sound s) {id : ℕ} {n : UInt64} {t : Throttle} (hid : id < s.arrivals)
    (hcount : t.count = s.throttle.count + n) (hmax : t.max = s.throttle.max)
    (hwait : s.throttle.shouldWait n = false) (hconds : t.conds.Sublist s.throttle.conds)
    (hgrants : ∀ g ∈ s.grants, g.id < id) (hnext : ∀ w ∈ t.conds, id < w.id)
    (hfit : s.outstanding + n.toNat < 2 ^ 64) : Sound (s.settle id n (true, t)) where
  count := by
    simp only [settle, if_true]
    rw [hcount, UInt64.toNat_add, h.count, Nat.mod_eq_of_lt hfit]
  fifo := List.pairwise_append.mpr ⟨h.fifo, List.pairwise_singleton _ _, by simpa using hgrants⟩
  waiting g hg w hw := by
    rcases List.mem_append.mp hg with hg | hg
    · exact h.waiting g hg w (hconds.subset hw)
    · obtain rfl := List.mem_singleton.mp hg
      exact hnext w hw
  bound g hg hne hle := by
    rcases List.mem_append.mp hg with hg | hg
    · exact h.bound g hg hne hle
    · obtain rfl := List.mem_singleton.mp hg
      dsimp only at hne hle ⊢
      rw [hmax] at hne hle ⊢
      rw [hcount]
      simp only [Throttle.shouldWait, decide_eq_false_iff_not, not_and, not_or] at hwait
      exact UInt64.not_lt.mp ((hwait hne).1 hle)
  queue := h.queue.sublist hconds
  came w hw := h.came w (hconds.subset hw)
  granted g hg := by
    rcases List.mem_append.mp hg with hg | hg
    · exact h.granted g hg
    · obtain rfl := List.mem_singleton.mp hg
      exact hid

/-- A call that comes while someone waits, or that has to wait, waits behind all others. -/
theorem Sound.enter (h : Sound s) {n : UInt64} {timed : Bool}
    (hfit : (s.arrive.settle s.arrivals n
      (s.throttle.enter ⟨s.arrivals, n, timed⟩)).outstanding < 2 ^ 64) :
    Sound (s.arrive.settle s.arrivals n (s.throttle.enter ⟨s.arrivals, n, timed⟩)) := by
  unfold Throttle.enter at hfit ⊢
  split_ifs at hfit ⊢ with hadmit
  · simp only [Bool.and_eq_true, Bool.not_eq_true', List.isEmpty_iff] at hadmit
    refine h.arrive.grant (Nat.lt_succ_self _) rfl rfl hadmit.1 (List.Sublist.refl _) h.granted
      (fun w hw => ?_) hfit
    rw [show (s.throttle.add n).conds = s.throttle.conds from rfl, hadmit.2] at hw
    cases hw
  · exact
      { h.arrive with
        waiting := fun g hg w hw => by
          rcases List.mem_append.mp hw with hw | hw
          · exact h.waiting g hg w hw
          · obtain rfl := List.mem_singleton.mp hw
            exact h.granted g hg
        queue := List.pairwise_append.mpr ⟨h.queue, List.pairwise_singleton _ _, by
          simpa using h.came⟩
        came := fun w hw => by
          rcases List.mem_append.mp hw with hw | hw
          · exact h.arrive.came w hw
          · obtain rfl := List.mem_singleton.mp hw
            exact Nat.lt_succ_self _ }

/-- A waiter that is ready is the first of the queue. -/
theorem Sound.ready (h : Sound s) {w : Waiter} (hw : w ∈ s.throttle.conds)
    (hready : s.throttle.ready w) (hfit : s.outstanding + w.n.toNat < 2 ^ 64) :
    Sound (s.settle w.id w.n (true, (s.throttle.add w.n).erase w)) := by
  simp only [Throttle.ready, Bool.and_eq_true, Bool.not_eq_true', beq_iff_eq,
    Option.map_eq_some_iff] at hready
  obtain ⟨hwait, first, hfirst, hid⟩ := hready
  obtain ⟨rest, hconds⟩ : ∃ rest, s.throttle.conds = first :: rest :=
    List.head?_eq_some_iff.mp hfirst
  have hqueue := h.queue
  rw [hconds] at hqueue
  refine h.grant (h.came w hw) rfl rfl hwait List.filter_sublist
    (fun g hg => h.waiting g hg w hw) (fun v hv => ?_) hfit
  -- All that stay came after the first.
  obtain ⟨hv, hne⟩ := List.mem_filter.mp hv
  rw [show (s.throttle.add w.n).conds = s.throttle.conds from rfl, hconds] at hv
  rcases List.mem_cons.mp hv with rfl | hv
  · simp [hid] at hne
  · rw [← hid]
    exact (List.pairwise_cons.mp hqueue).1 v hv

/-- A waiter that is found is one of those that wait. -/
theorem waiter?_some {id : ℕ} {w : Waiter} (h : s.waiter? id = some w) :
    w ∈ s.throttle.conds ∧ w.id = id :=
  ⟨List.mem_of_find?_eq_some h, by simpa using List.find?_some h⟩

/-- What an action keeps. -/
theorem Sound.act (h : Sound s) {a : Action} {s' : Callers} (hact : s.act a = some s')
    (hfit : s'.outstanding < 2 ^ 64) : Sound s' := by
  -- One case for each action; what is out and what is counted change by the same amount.
  cases a with
  | get n =>
    obtain rfl := Option.some.inj hact
    exact h.enter hfit
  | tryGet n =>
    obtain rfl := Option.some.inj hact
    exact h.enter hfit
  | look id =>
    simp only [Callers.act] at hact
    split at hact
    next w hw =>
      obtain rfl := Option.some.inj hact
      obtain ⟨hmem, rfl⟩ := waiter?_some hw
      unfold Throttle.look at hfit ⊢
      split_ifs at hfit ⊢ with hready
      · exact h.ready hmem hready hfit
      · exact h
    next =>
      obtain rfl := Option.some.inj hact
      exact h
  | expire id =>
    simp only [Callers.act] at hact
    split at hact
    next w hw =>
      split_ifs at hact with htimed
      · obtain rfl := Option.some.inj hact
        obtain ⟨hmem, rfl⟩ := waiter?_some hw
        unfold Throttle.expire at hfit ⊢
        split_ifs at hfit ⊢ with hready
        · exact h.ready hmem hready hfit
        · exact h.shrink rfl List.filter_sublist
      · obtain rfl := Option.some.inj hact
        exact h
    next =>
      obtain rfl := Option.some.inj hact
      exact h
  | getOrFail n =>
    obtain rfl := Option.some.inj hact
    unfold Throttle.getOrFail at hfit ⊢
    split_ifs at hfit ⊢ with hfail
    · exact h.arrive
    · simp only [Bool.or_eq_true, Bool.not_eq_true', not_or, Bool.not_eq_true,
        Bool.not_eq_false, List.isEmpty_iff] at hfail
      refine h.arrive.grant (Nat.lt_succ_self _) rfl rfl hfail.1 (List.Sublist.refl _) h.granted
        (fun w hw => ?_) hfit
      rw [show (s.throttle.add n).conds = s.throttle.conds from rfl, hfail.2] at hw
      cases hw
  | take n =>
    obtain rfl := Option.some.inj hact
    unfold Throttle.take at hfit ⊢
    dsimp only at hfit ⊢
    split_ifs at hfit ⊢ with hmax
    · exact h
    · exact
        { h with
          count := by
            rw [← Nat.mod_eq_of_lt hfit, ← h.count]
            exact UInt64.toNat_add _ _ }
  | put n =>
    simp only [Callers.act, Option.map_eq_some_iff] at hact
    obtain ⟨t, ht, rfl⟩ := hact
    unfold Throttle.put at ht
    split_ifs at ht with hle
    obtain rfl := Option.some.inj ht
    exact
      { h with
        count := by
          rw [← h.count]
          exact UInt64.toNat_sub_of_le _ _ hle }
  | resetMax newMax =>
    obtain rfl := Option.some.inj hact
    unfold Throttle.resetMax
    split_ifs
    · exact h
    · exact { h with }

/-- An action that returns no more than what is held meets no assertion. -/
theorem Sound.act_isSome (h : Sound s) {a : Action} (hret : s.Returns a) : (s.act a).isSome := by
  cases a with
  | put n =>
    have hle : n ≤ s.throttle.count := by
      rw [UInt64.le_iff_toNat_le, h.count]
      exact hret
    simp [Callers.act, Throttle.put, hle]
  | look id =>
    simp only [Callers.act]
    split
    · rfl
    · rfl
  | expire id =>
    simp only [Callers.act]
    split
    · split_ifs
      · rfl
      · rfl
    · rfl
  | _ => rfl

/-- What a run keeps. -/
theorem Sound.run (h : Sound s) {as : List Action} (hcovered : s.Covered as) (hfits : s.Fits as) :
    ∃ s', s.run as = some s' ∧ Sound s' := by
  induction as generalizing s with
  | nil => exact ⟨s, rfl, h⟩
  | cons a as ih =>
    obtain ⟨hret, hcovered⟩ := hcovered
    obtain ⟨t, ht⟩ := Option.isSome_iff_exists.mp (h.act_isSome hret)
    obtain ⟨hfit, hfits⟩ := hfits t ht
    rw [Callers.run, ht, Option.bind_some]
    exact ih (h.act ht hfit) (hcovered t ht) hfits

/-- In every interleaving in which what is held stays a number of 64 bits, no assertion fails, the
count is what is held, and nobody is overtaken; with a limit, nothing within it goes above it. -/
theorem interleavings_kept {max : UInt64} {as : List Action} (hcovered : (start max).Covered as)
    (hfits : (start max).Fits as) : ∃ s, (start max).run as = some s ∧ s.Kept := by
  obtain ⟨s, hs, h⟩ := (Sound.start max).run hcovered hfits
  exact ⟨s, hs, h.toKept⟩

/-- A call waits behind a larger one, whose time is over. -/
theorem interleavings_kept_timeout : ∃ s, (start 100).run
    [.get 60, .tryGet 50, .get 30, .look 2, .expire 1, .look 2, .put 60, .resetMax 0, .put 30] =
      some s ∧ s.Kept :=
  interleavings_kept (by decide +kernel) (by decide +kernel)

/-- What is held is more than 64 bits, and the assertion of `put` fails; without a limit `take`
acquires nothing that can be put back, and what is within the limit, nothing, leaves the count above
it. -/
theorem interleavings_limits :
    (start 100).Covered [.get 60, .get (2 ^ 64 - 50), .put 60] ∧
      (start 100).run [.get 60, .get (2 ^ 64 - 50), .put 60] = none ∧
      ((start 0).throttle.take 50).2.put 50 = none ∧
      ∃ s, (start 0).run [.get 5, .getOrFail 0] = some s ∧
        ∃ g ∈ s.grants, g.n ≤ g.max ∧ g.max < g.count :=
  ⟨by decide +kernel, by decide +kernel, by decide +kernel, _, rfl, ⟨1, 0, 0, 5⟩, by decide +kernel⟩

end Callers

end CxxLab.Common
