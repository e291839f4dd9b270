import CxxLab.Lib.Runs
import Mathlib.Data.List.AList
import Mathlib.Tactic

/-!
# The onode cache of a collection

`bluestore/collection.cc` with the parts of `_txc_add_transaction`, `_txc_write_nodes` and the KV
commit that use it. An onode is changed in memory; its new version goes into the KV transaction of
its `TransContext`, which is committed some time later. Until then the version in memory is the only
one that has the change, and `OnodeSpace::add` evicts by LRU position alone.

An onode is an object on a heap that the cache and the contexts refer to; of its contents only the
type `V` is known here, and the KV store gives back what was stored. Contexts of one collection
share a sequencer, so their KV transactions are committed in the order in which they were queued,
and the callers of `queue_transactions` for one collection come one after the other; `get_onode`
calls of readers come at any time. `lru_map_` has an iterator for each member of `lru_`, so it is
left out.
-/

namespace CxxLab.Bluestore

variable {Oid V : Type} [DecidableEq Oid]

/-! ## The cache -/

/-- `OnodeSpace`. An `OnodeRef` is the address of an onode. -/
structure OnodeSpace (Oid : Type) where
  /-- `max_size_`. -/
  maxSize : ℕ
  /-- `cache_`. -/
  cache : AList fun _ : Oid => ℕ
  /-- `lru_`, most recently used first. -/
  lru : List Oid
  /-- An object is in `lru_` once. -/
  nodup : lru.Nodup
  /-- `lru_` has the objects of `cache_`. -/
  mem_iff : ∀ oid, oid ∈ cache ↔ oid ∈ lru

namespace OnodeSpace

/-- An object moves to the front of `lru_`, if it is there. -/
def touch (sp : OnodeSpace Oid) (oid : Oid) : OnodeSpace Oid :=
  if h : oid ∈ sp.lru then
    { sp with
      lru := oid :: sp.lru.erase oid
      nodup := List.nodup_cons.mpr ⟨sp.nodup.not_mem_erase, sp.nodup.erase oid⟩
      mem_iff := fun a => (sp.mem_iff a).trans (List.perm_cons_erase h).mem_iff }
  else sp

/-- `lookup`. -/
def lookup (sp : OnodeSpace Oid) (oid : Oid) : Option ℕ × OnodeSpace Oid :=
  match sp.cache.lookup oid with
  | none => (none, sp)
  | some r => (some r, sp.touch oid)

/-- A round of the loop of `evict_if_needed`: the least recently used object goes. -/
def evictBack (sp : OnodeSpace Oid) (h : sp.lru ≠ []) : OnodeSpace Oid where
  maxSize := sp.maxSize
  cache := sp.cache.erase (sp.lru.getLast h)
  lru := sp.lru.dropLast
  nodup := sp.nodup.sublist (List.dropLast_sublist _)
  mem_iff := fun a => by
    have hnodup := sp.nodup
    rw [← List.dropLast_append_getLast h, List.nodup_append] at hnodup
    rw [AList.mem_erase, sp.mem_iff]
    constructor
    · rintro ⟨hne, hmem⟩
      rw [← List.dropLast_append_getLast h, List.mem_append, List.mem_singleton] at hmem
      exact hmem.resolve_right hne
    · intro hmem
      exact ⟨hnodup.2.2 a hmem _ (List.mem_singleton_self _), List.mem_of_mem_dropLast hmem⟩

/-- The loop of `evict_if_needed`. Every round shortens `lru_`, so its length is enough rounds. -/
def evictLoop : ℕ → OnodeSpace Oid → OnodeSpace Oid
  | 0, sp => sp
  | n + 1, sp =>
    if sp.cache.entries.length ≥ sp.maxSize then
      if h : sp.lru ≠ [] then evictLoop n (sp.evictBack h) else sp
    else sp

/-- `evict_if_needed`. -/
def evictIfNeeded (sp : OnodeSpace Oid) : OnodeSpace Oid := sp.evictLoop sp.lru.length

/-- What is found after an eviction was there before. -/
theorem lookup_evictBack {sp : OnodeSpace Oid} {h : sp.lru ≠ []} {a : Oid} {r : ℕ}
    (ha : (sp.evictBack h).cache.lookup a = some r) : sp.cache.lookup a = some r := by
  have hne : a ≠ sp.lru.getLast h := by
    rintro rfl
    simp [evictBack] at ha
  rwa [evictBack, AList.lookup_erase_ne hne] at ha

/-- Eviction adds nothing. -/
theorem lookup_evictLoop (n : ℕ) (sp : OnodeSpace Oid) {a : Oid} {r : ℕ}
    (h : (sp.evictLoop n).cache.lookup a = some r) : sp.cache.lookup a = some r := by
  induction n generalizing sp with
  | zero => exact h
  | succ n ih =>
    unfold evictLoop at h
    split_ifs at h
    · exact lookup_evictBack (ih _ h)
    · exact h
    · exact h

omit [DecidableEq Oid] in
/-- The list has as many onodes as the map. -/
theorem length_cache (sp : OnodeSpace Oid) : sp.cache.entries.length = sp.lru.length := by
  have hperm : sp.cache.keys.Perm sp.lru :=
    (List.perm_ext_iff_of_nodup sp.cache.keys_nodup sp.nodup).mpr fun a =>
      AList.mem_keys.symm.trans (sp.mem_iff a)
  rw [← hperm.length_eq]
  exact (List.length_map _).symm

/-- What the loop leaves are the most recently used objects, one less than `max_size_`. -/
theorem lru_evictLoop (n : ℕ) (sp : OnodeSpace Oid) (hn : sp.lru.length ≤ n) :
    (sp.evictLoop n).lru = sp.lru.take (sp.maxSize - 1) := by
  induction n generalizing sp with
  | zero =>
    rw [List.eq_nil_of_length_eq_zero (Nat.le_zero.mp hn), List.take_nil]
    exact List.eq_nil_of_length_eq_zero (Nat.le_zero.mp hn)
  | succ n ih =>
    unfold evictLoop
    rw [length_cache]
    split_ifs with hsize hne
    · have hlen : 0 < sp.lru.length := List.length_pos_iff.mpr hne
      rw [ih _ (by simp only [evictBack, List.length_dropLast]; omega)]
      simp only [evictBack]
      rw [List.dropLast_eq_take, List.take_take, min_eq_left (by omega)]
    · rw [not_not.mp hne, List.take_nil]
    · exact (List.take_of_length_le (by omega)).symm

/-- The objects that `evict_if_needed` evicts. -/
theorem mem_drop_of_evicted {sp : OnodeSpace Oid} {a : Oid} (hin : a ∈ sp.cache)
    (hout : a ∉ sp.evictIfNeeded.cache) : a ∈ sp.lru.drop (sp.maxSize - 1) := by
  rw [mem_iff] at hin hout
  rw [evictIfNeeded, lru_evictLoop _ _ (le_refl _)] at hout
  rw [← List.take_append_drop (sp.maxSize - 1) sp.lru, List.mem_append] at hin
  exact hin.resolve_left hout

/-- `add`. -/
def add (sp : OnodeSpace Oid) (oid : Oid) (r : ℕ) : ℕ × OnodeSpace Oid :=
  match hl : sp.cache.lookup oid with
  | some r' => (r', sp.touch oid)
  | none =>
    let sp' := sp.evictIfNeeded
    (r, { sp' with
      cache := sp'.cache.insert oid r
      lru := oid :: sp'.lru
      nodup := List.nodup_cons.mpr ⟨fun h => by
        rw [← mem_iff, ← AList.lookup_isSome, Option.isSome_iff_exists] at h
        obtain ⟨r', hr'⟩ := h
        have := lookup_evictLoop _ _ hr'
        simp_all, sp'.nodup⟩
      mem_iff := fun a => by rw [AList.mem_insert, sp'.mem_iff, List.mem_cons] })

end OnodeSpace

/-! ## The collection -/

/-- `Onode`. -/
structure Onode (Oid V : Type) where
  /-- The object; its key in the KV store is made from it. -/
  oid : Oid
  /-- The fields, the attributes and the extent map. -/
  content : V
  /-- `exists`. -/
  present : Bool

/-- An operation of a KV transaction under `PREFIX_OBJ`. -/
inductive KvOp (Oid V : Type) where
  /-- `set`. -/
  | set (oid : Oid) (v : V)
  /-- `rmkey`. -/
  | rmkey (oid : Oid)

/-- The part of a `TransContext` that is being prepared. -/
structure OpenTxc (Oid : Type) where
  /-- `onodes`: the onodes to be written. -/
  onodes : List ℕ
  /-- The `rmkey` operations in `t` so far. -/
  rmkeys : List Oid

/-- `write_onode`. -/
def OpenTxc.writeOnode (t : OpenTxc Oid) (r : ℕ) : OpenTxc Oid :=
  { t with onodes := if r ∈ t.onodes then t.onodes else t.onodes ++ [r] }

/-- A collection with the KV store under it and the transactions on their way there. -/
structure Collection (Oid V : Type) where
  /-- `onode_space_`. -/
  space : OnodeSpace Oid
  /-- The onodes, by their addresses. -/
  heap : ℕ → Onode Oid V
  /-- An address that no onode has had. -/
  nextRef : ℕ
  /-- The onodes in the KV store. -/
  kv : Oid → Option V
  /-- The transaction that is being prepared. -/
  txc : Option (OpenTxc Oid)
  /-- The KV transactions that are queued and not committed, in order. -/
  pending : List (List (KvOp Oid V))

/-- The effect of an operation on the KV store. -/
def KvOp.apply (kv : Oid → Option V) : KvOp Oid V → Oid → Option V
  | .set oid v => Function.update kv oid (some v)
  | .rmkey oid => Function.update kv oid none

/-- The object of an operation. -/
def KvOp.oid : KvOp Oid V → Oid
  | .set oid _ => oid
  | .rmkey oid => oid

namespace Collection

/-- A new onode, put into the cache. -/
def addOnode (c : Collection Oid V) (on : Onode Oid V) : ℕ × Collection Oid V :=
  let (r, space) := c.space.add on.oid c.nextRef
  (r, { c with
    space := space
    heap := Function.update c.heap c.nextRef on
    nextRef := c.nextRef + 1 })

/-- `get_onode`, with the contents of an onode that was never written. -/
def getOnode (blank : V) (c : Collection Oid V) (oid : Oid) (create : Bool) :
    Option ℕ × Collection Oid V :=
  match c.space.lookup oid with
  | (some r, space) => (some r, { c with space := space })
  | (none, _) =>
    match c.kv oid with
    | some v =>
      let (r, c) := c.addOnode ⟨oid, v, true⟩
      (some r, c)
    | none =>
      if create then
        -- `create_onode`.
        let (r, c) := c.addOnode ⟨oid, blank, true⟩
        (some r, c)
      else (none, c)

/-- The onode at an address is changed. -/
def change (c : Collection Oid V) (r : ℕ) (f : Onode Oid V → Onode Oid V) : Collection Oid V :=
  { c with heap := Function.update c.heap r (f (c.heap r)) }

/-- An operation that changes the contents of an object: it gets the onode, creating it or not,
changes it and writes it. -/
def doUpdate (blank : V) (c : Collection Oid V) (t : OpenTxc Oid) (oid : Oid) (create : Bool)
    (f : V → V) : Collection Oid V :=
  match c.getOnode blank oid create with
  | (none, c) => c
  | (some r, c) =>
    { c.change r fun on => { on with content := f on.content } with txc := some (t.writeOnode r) }

/-- `OP_REMOVE`. -/
def doRemove (blank : V) (c : Collection Oid V) (t : OpenTxc Oid) (oid : Oid) : Collection Oid V :=
  match c.getOnode blank oid false with
  | (none, c) => c
  | (some r, c) =>
    { c.change r fun on => { on with content := blank, present := false } with
      txc := some ⟨t.onodes.erase r, t.rmkeys ++ [oid]⟩ }

/-- The KV transaction of a context: its `rmkey` operations, and the onodes as
`_txc_write_nodes` writes them, in the order of their addresses. -/
def kvTransaction (c : Collection Oid V) (t : OpenTxc Oid) (order : List ℕ) : List (KvOp Oid V) :=
  t.rmkeys.map .rmkey ++ order.map fun r => .set (c.heap r).oid (c.heap r).content

end Collection

/-- The steps. -/
inductive CollAction (Oid V : Type) where
  /-- A reader calls `get_onode`. -/
  | getOnode (oid : Oid)
  /-- `queue_transactions` starts a transaction. -/
  | begin
  /-- An operation changes an object: OP_TOUCH, OP_CREATE, OP_WRITE, OP_SETATTR, OP_SETATTRS,
  OP_OMAP_SETKEYS and OP_OMAP_SETHEADER create it if need be, OP_ZERO, OP_OMAP_RMKEYS and
  OP_OMAP_CLEAR do not. -/
  | update (oid : Oid) (create : Bool) (f : V → V)
  /-- OP_REMOVE. -/
  | remove (oid : Oid)
  /-- `queue_transactions` writes the onodes, in the order of their addresses, and queues the KV
  transaction. -/
  | queue (order : List ℕ)
  /-- The next KV transaction is committed. -/
  | commit
  /-- `set_onode_cache_size`. -/
  | setMaxSize (n : ℕ)

/-- One step; `none` when it is not the time for it. -/
def Collection.step (blank : V) (c : Collection Oid V) : CollAction Oid V → Option (Collection Oid V)
  | .getOnode oid => some (c.getOnode blank oid false).2
  | .begin =>
    match c.txc with
    | none => some { c with txc := some ⟨[], []⟩ }
    | some _ => none
  | .update oid create f => c.txc.map fun t => c.doUpdate blank t oid create f
  | .remove oid => c.txc.map fun t => c.doRemove blank t oid
  | .queue order =>
    match c.txc with
    | none => none
    | some t =>
      if order.Perm t.onodes then
        some { c with txc := none, pending := c.pending ++ [c.kvTransaction t order] }
      else none
  | .commit =>
    match c.pending with
    | [] => none
    | t :: ts => some { c with kv := t.foldl KvOp.apply c.kv, pending := ts }
  | .setMaxSize n => some { c with space := { c.space with maxSize := n } }

/-- The collection after `create_collection`. -/
def Collection.init (blank : V) (oid : Oid) (maxSize : ℕ) : Collection Oid V where
  space := ⟨maxSize, ∅, [], List.nodup_nil, by simp⟩
  heap := fun _ => ⟨oid, blank, false⟩
  nextRef := 0
  kv := fun _ => none
  txc := none
  pending := []

/-! ## Coherence -/

/-- What the operations so far have made of the objects. -/
def CollAction.apply (blank : V) (m : Oid → Option V) : CollAction Oid V → Oid → Option V
  | .update oid true f => Function.update m oid (some (f ((m oid).getD blank)))
  | .update oid false f => Function.update m oid ((m oid).map f)
  | .remove oid => Function.update m oid none
  | _ => m

/-- An onode says of its object what the operations so far have made of it. -/
def Onode.Reflects (on : Onode Oid V) (m : Oid → Option V) : Prop :=
  if on.present then m on.oid = some on.content else m on.oid = none

/-- What is in the KV store once the queued transactions are committed. -/
def Collection.settled (c : Collection Oid V) : Oid → Option V :=
  c.pending.flatten.foldl KvOp.apply c.kv

/-- `get_onode` returns onodes that reflect every operation so far, and no queued update is lost. -/
structure Coherent (blank : V) (c : Collection Oid V) (m : Oid → Option V) : Prop where
  /-- An onode that is returned reflects the operations so far; there is none only for an object
  that does not exist. -/
  get : ∀ oid, match c.getOnode blank oid false with
    | (some r, c') => (c'.heap r).oid = oid ∧ (c'.heap r).Reflects m
    | (none, _) => m oid = none
  /-- An onode that is created if need be starts from what the operations so far have made of the
  object. -/
  create : ∀ oid, ∃ r c', c.getOnode blank oid true = (some r, c') ∧ (c'.heap r).oid = oid ∧
    ((c'.heap r).present → (c'.heap r).content = (m oid).getD blank) ∧
    (m oid ≠ none → (c'.heap r).present)
  /-- The queued KV transactions have every update of the queued transactions. -/
  settled : c.txc = none → c.settled = m

namespace Collection

/-- A queued KV transaction changes the object. -/
def Queued (c : Collection Oid V) (oid : Oid) : Prop := ∃ op ∈ c.pending.flatten, op.oid = oid

/-- The transaction that is being prepared removes the object. -/
def Removes (c : Collection Oid V) (oid : Oid) : Prop := ∃ t ∈ c.txc, oid ∈ t.rmkeys

/-- The transaction that is being prepared writes the object's onode at `r`. -/
def Writes (c : Collection Oid V) (oid : Oid) (r : ℕ) : Prop :=
  ∃ t ∈ c.txc, r ∈ t.onodes ∧ (c.heap r).oid = oid

/-- The object has an update that is queued or being prepared and not committed. -/
def Dirty (c : Collection Oid V) (oid : Oid) : Prop :=
  c.Queued oid ∨ c.Removes oid ∨ ∃ r, c.Writes oid r

/-- When `get_onode` puts an onode into the cache, the objects from position `max_size_ - 1` of
`lru_` on, which have to make room for it, have no update that is not committed. -/
def EvictsClean (c : Collection Oid V) (oid : Oid) (create : Bool) : Prop :=
  c.space.cache.lookup oid = none → create = true ∨ c.kv oid ≠ none →
    ∀ a ∈ c.space.lru.drop (c.space.maxSize - 1), ¬ c.Dirty a

end Collection

/-- The situations in which the code keeps the cache coherent: no onode with an update that is not
committed is evicted, and no operation changes an object whose removed onode is still in the
cache. -/
def CacheOk (c : Collection Oid V) : CollAction Oid V → Prop
  | .getOnode oid => c.EvictsClean oid false
  | .update oid create _ =>
    c.EvictsClean oid create ∧ ∀ r ∈ c.space.cache.lookup oid, (c.heap r).present = true
  | .remove oid => c.EvictsClean oid false
  | _ => True

instance (c : Collection Oid V) (oid : Oid) : Decidable (c.Dirty oid) :=
  match h : c.txc with
  | none => decidable_of_iff (∃ op ∈ c.pending.flatten, op.oid = oid) (by
    simp [Collection.Dirty, Collection.Queued, Collection.Removes, Collection.Writes, h])
  | some t => decidable_of_iff ((∃ op ∈ c.pending.flatten, op.oid = oid) ∨ oid ∈ t.rmkeys ∨
      ∃ r ∈ t.onodes, (c.heap r).oid = oid) (by
    simp [Collection.Dirty, Collection.Queued, Collection.Removes, Collection.Writes, h])

instance (c : Collection Oid V) (oid : Oid) (create : Bool) :
    Decidable (c.EvictsClean oid create) :=
  have : Decidable (c.kv oid ≠ none) :=
    decidable_of_iff ((c.kv oid).isSome = true) Option.isSome_iff_ne_none
  inferInstanceAs (Decidable (_ = none → create = true ∨ c.kv oid ≠ none → ∀ a ∈ _, ¬ c.Dirty a))

instance (c : Collection Oid V) : (a : CollAction Oid V) → Decidable (CacheOk c a)
  | .getOnode oid => inferInstanceAs (Decidable (c.EvictsClean oid false))
  | .update oid create _ => inferInstanceAs (Decidable (c.EvictsClean oid create ∧ ∀ r ∈ _, _))
  | .remove oid => inferInstanceAs (Decidable (c.EvictsClean oid false))
  | .begin => inferInstanceAs (Decidable True)
  | .queue _ => inferInstanceAs (Decidable True)
  | .commit => inferInstanceAs (Decidable True)
  | .setMaxSize _ => inferInstanceAs (Decidable True)

/-! ## What `get_onode` does -/

namespace OnodeSpace

/-- Touching an onode leaves the map. -/
@[simp] theorem touch_cache (sp : OnodeSpace Oid) (oid : Oid) :
    (sp.touch oid).cache = sp.cache := by
  unfold touch
  split_ifs <;> rfl

/-- `add` of an object that is not in the cache. -/
theorem add_of_lookup_eq_none {sp : OnodeSpace Oid} {oid : Oid} (r : ℕ)
    (h : sp.cache.lookup oid = none) :
    ∃ sp', sp.add oid r = (r, sp') ∧ sp'.cache = sp.evictIfNeeded.cache.insert oid r := by
  unfold add
  split
  · rename_i r' hl
    rw [h] at hl
    cases hl
  · exact ⟨_, rfl, rfl⟩

end OnodeSpace

/-- What `get_onode` does when it returns the onode `on` of `oid` at `r`: the onode is in the cache,
and others may have gone. -/
structure Got (c c' : Collection Oid V) (oid : Oid) (create : Bool) (r : ℕ) (on : Onode Oid V) : Prop where
  /-- The onode is in the cache. -/
  lookup : c'.space.cache.lookup oid = some r
  /-- The onode. -/
  onode : c'.heap r = on
  /-- The address is taken. -/
  lt : r < c'.nextRef
  /-- The cache has no other new onode. -/
  others : ∀ a r', a ≠ oid → c'.space.cache.lookup a = some r' → c.space.cache.lookup a = some r'
  /-- What has gone was clean, if the condition says so. -/
  evicted : c.EvictsClean oid create → ∀ a, a ≠ oid → c.space.cache.lookup a ≠ none →
    c'.space.cache.lookup a = none → ¬ c.Dirty a
  /-- The other onodes are as they were. -/
  heap : ∀ r' < c.nextRef, c'.heap r' = c.heap r'
  /-- No address is given up. -/
  next : c.nextRef ≤ c'.nextRef
  /-- The transactions and the KV store are as they were. -/
  frame : c' = { c with space := c'.space, heap := c'.heap, nextRef := c'.nextRef }

namespace Collection

/-- A new onode in the cache. -/
theorem got_addOnode {c : Collection Oid V} (on : Onode Oid V) (create : Bool)
    (hnone : c.space.cache.lookup on.oid = none)
    (hnew : create = true ∨ c.kv on.oid ≠ none) :
    ∃ c', c.addOnode on = (c.nextRef, c') ∧ Got c c' on.oid create c.nextRef on := by
  obtain ⟨sp, hadd, hcache⟩ := OnodeSpace.add_of_lookup_eq_none c.nextRef hnone
  unfold addOnode
  rw [hadd]
  refine ⟨_, rfl, ⟨?_, ?_, Nat.lt_succ_self _, ?_, ?_, ?_, Nat.le_succ _, rfl⟩⟩
  · rw [hcache]
    exact AList.lookup_insert _
  · exact Function.update_self ..
  · intro a r' ha h
    rw [hcache, AList.lookup_insert_ne ha] at h
    exact OnodeSpace.lookup_evictLoop _ _ h
  · intro hclean a ha hin hout
    rw [hcache, AList.lookup_insert_ne ha] at hout
    refine hclean hnone hnew a (OnodeSpace.mem_drop_of_evicted ?_ (AList.lookup_eq_none.mp hout))
    by_contra hmem
    exact hin (AList.lookup_eq_none.mpr hmem)
  · intro r' hr'
    exact Function.update_of_ne hr'.ne _ _

/-- The outcomes of `get_onode`. -/
theorem getOnode_cases {blank : V} {c c' : Collection Oid V} {oid : Oid} {create : Bool}
    {res : Option ℕ}
    (hlt : ∀ r, c.space.cache.lookup oid = some r → r < c.nextRef)
    (h : c.getOnode blank oid create = (res, c')) :
    (∃ r, res = some r ∧ c.space.cache.lookup oid = some r ∧ Got c c' oid create r (c.heap r)) ∨
      (c.space.cache.lookup oid = none ∧
        ((∃ v r, res = some r ∧ c.kv oid = some v ∧ Got c c' oid create r ⟨oid, v, true⟩) ∨
          (∃ r, res = some r ∧ c.kv oid = none ∧ create = true ∧ Got c c' oid create r ⟨oid, blank, true⟩) ∨
          res = none ∧ c.kv oid = none ∧ create = false ∧ c' = c)) := by
  unfold getOnode OnodeSpace.lookup at h
  cases hl : c.space.cache.lookup oid with
  | some r =>
    rw [hl] at h
    obtain ⟨rfl, rfl⟩ := Prod.mk.inj h
    refine .inl ⟨r, rfl, rfl, ?_⟩
    have hsame : ∀ a, (c.space.touch oid).cache.lookup a = c.space.cache.lookup a := by simp
    refine ⟨(hsame oid).trans hl, rfl, hlt r hl, fun a r' _ h => (hsame a).symm.trans h, ?_,
      fun _ _ => rfl, le_refl _, rfl⟩
    intro _ a _ hin hout
    exact absurd ((hsame a).symm.trans hout) hin
  | none =>
    rw [hl] at h
    refine .inr ⟨rfl, ?_⟩
    cases hk : c.kv oid with
    | some v =>
      obtain ⟨c1, hadd, hgot⟩ := got_addOnode ⟨oid, v, true⟩ create hl (.inr (by simp [hk]))
      rw [hk] at h
      simp only [hadd, Prod.mk.injEq] at h
      obtain ⟨rfl, rfl⟩ := h
      exact .inl ⟨v, _, rfl, rfl, hgot⟩
    | none =>
      rw [hk] at h
      cases create with
      | true =>
        obtain ⟨c1, hadd, hgot⟩ := got_addOnode ⟨oid, blank, true⟩ true hl (.inl rfl)
        simp only [if_true, hadd, Prod.mk.injEq] at h
        obtain ⟨rfl, rfl⟩ := h
        exact .inr (.inl ⟨_, rfl, rfl, rfl, hgot⟩)
      | false =>
        simp only [Bool.false_eq_true, if_false, Prod.mk.injEq] at h
        obtain ⟨rfl, rfl⟩ := h
        exact .inr (.inr ⟨rfl, rfl, rfl, rfl⟩)

end Collection

/-! ## The invariant -/

/-- What holds of one object. -/
structure Fine (c : Collection Oid V) (m : Oid → Option V) (a : Oid) : Prop where
  /-- Its onode in the cache reflects the operations so far. -/
  cached : ∀ r, c.space.cache.lookup a = some r →
    (c.heap r).oid = a ∧ (c.heap r).Reflects m ∧ r < c.nextRef
  /-- Without an onode in the cache it is clean. -/
  missing : c.space.cache.lookup a = none → ¬ c.Dirty a
  /-- The onode that is going to be written is the one in the cache. -/
  writes : ∀ r, c.Writes a r → c.space.cache.lookup a = some r ∧ (c.heap r).present = true
  /-- An object that is going to be removed is not there, and is not going to be written. -/
  removes : c.Removes a → m a = none ∧ ∀ r, ¬ c.Writes a r
  /-- Otherwise the queued transactions have everything. -/
  settled : ¬ c.Removes a → (∀ r, ¬ c.Writes a r) → c.settled a = m a

/-- What holds between the steps. -/
structure CacheInv (c : Collection Oid V) (m : Oid → Option V) : Prop where
  /-- Of every object. -/
  fine : ∀ a, Fine c m a
  /-- The onodes of the transaction that is being prepared are distinct, and have addresses. -/
  onodes : ∀ t ∈ c.txc, t.onodes.Nodup ∧ ∀ r ∈ t.onodes, r < c.nextRef

/-- The value that an operation leaves. -/
def KvOp.value : KvOp Oid V → Option V
  | .set _ v => some v
  | .rmkey _ => none

/-- An operation changes the value of its key alone. -/
theorem KvOp.apply_eq (kv : Oid → Option V) (op : KvOp Oid V) (a : Oid) :
    op.apply kv a = if a = op.oid then op.value else kv a := by
  by_cases ha : a = op.oid
  · rw [if_pos ha, ha]
    cases op <;> exact Function.update_self ..
  · rw [if_neg ha]
    cases op <;> exact Function.update_of_ne ha ..

/-- What operations leave of an object: the value on which those of them that change it agree. -/
theorem foldl_kvOp {ops : List (KvOp Oid V)} {kv : Oid → Option V} {a : Oid} {w : Option V}
    (h : ∀ op ∈ ops, op.oid = a → op.value = w) (hex : kv a = w ∨ ∃ op ∈ ops, op.oid = a) :
    ops.foldl KvOp.apply kv a = w := by
  induction ops generalizing kv with
  | nil => simpa using hex
  | cons op ops ih =>
    rw [List.foldl_cons]
    apply ih fun op' hop' => h op' (List.mem_cons_of_mem _ hop')
    rw [KvOp.apply_eq]
    by_cases ha : a = op.oid
    · exact .inl (by rw [if_pos ha]; exact h op (by simp) ha.symm)
    · rw [if_neg ha]
      rcases hex with hex | ⟨op', hop', ho⟩
      · exact .inl hex
      · rcases List.mem_cons.mp hop' with rfl | hop'
        · exact absurd ho.symm ha
        · exact .inr ⟨op', hop', ho⟩

/-- Operations on other objects leave an object alone. -/
theorem foldl_kvOp_other {ops : List (KvOp Oid V)} {kv : Oid → Option V} {a : Oid}
    (h : ∀ op ∈ ops, op.oid ≠ a) : ops.foldl KvOp.apply kv a = kv a :=
  foldl_kvOp (fun op hop ho => absurd ho (h op hop)) (.inl rfl)

section

variable {c c' : Collection Oid V} {m m' : Oid → Option V} {a oid : Oid} {create : Bool} {r : ℕ}
  {on : Onode Oid V}

/-- A clean object is in the KV store what the operations so far have made of it. -/
theorem Fine.kv_eq (h : Fine c m a) (hclean : ¬ c.Dirty a) : c.kv a = m a := by
  have hset := h.settled (fun hr => hclean (.inr (.inl hr))) (fun r hw => hclean (.inr (.inr ⟨r, hw⟩)))
  rw [← hset]
  unfold Collection.settled
  exact (foldl_kvOp_other fun op hop ho => hclean (.inl ⟨op, hop, ho⟩)).symm

/-- An onode that is written was made. -/
theorem CacheInv.writes_lt (h : CacheInv c m) (hw : c.Writes a r) : r < c.nextRef := by
  obtain ⟨t, ht, hr, -⟩ := hw
  exact (h.onodes t ht).2 r hr

/-- Getting an onode changes nothing about the transactions. -/
theorem Got.writes_iff (hg : Got c c' oid create r on) (h : CacheInv c m) (a : Oid) (r' : ℕ) :
    c'.Writes a r' ↔ c.Writes a r' := by
  have ht : c'.txc = c.txc := by rw [hg.frame]
  constructor
  · rintro ⟨t, htx, hr, ho⟩
    rw [ht] at htx
    rw [hg.heap r' ((h.onodes t htx).2 r' hr)] at ho
    exact ⟨t, htx, hr, ho⟩
  · rintro ⟨t, htx, hr, ho⟩
    refine ⟨t, ht ▸ htx, hr, ?_⟩
    rw [hg.heap r' ((h.onodes t htx).2 r' hr)]
    exact ho

/-- Getting an onode leaves the other objects fine. -/
theorem Got.fine_other (hg : Got c c' oid create r on) (h : CacheInv c m) (hclean : c.EvictsClean oid create)
    (ha : a ≠ oid) : Fine c' m a := by
  have hf := h.fine a
  have hrem : c'.Removes a ↔ c.Removes a := by unfold Collection.Removes; rw [hg.frame]
  have hque : c'.Queued a ↔ c.Queued a := by unfold Collection.Queued; rw [hg.frame]
  have hwr := hg.writes_iff h a
  have hdirty : c'.Dirty a ↔ c.Dirty a := by simp only [Collection.Dirty, hrem, hque, hwr]
  refine ⟨fun r' hr' => ?_, fun hnone => ?_, fun r' hw => ?_, fun hr => ?_, fun hr hw => ?_⟩
  · obtain ⟨h1, h2, h3⟩ := hf.cached r' (hg.others a r' ha hr')
    rw [hg.heap r' h3]
    exact ⟨h1, h2, lt_of_lt_of_le h3 hg.next⟩
  · rw [hdirty]
    by_cases hin : c.space.cache.lookup a = none
    · exact hf.missing hin
    · exact hg.evicted hclean a ha hin hnone
  · have hw' := (hwr r').mp hw
    obtain ⟨hl, hp⟩ := hf.writes r' hw'
    rw [hg.heap r' (h.writes_lt hw')]
    refine ⟨?_, hp⟩
    -- A dirty onode is not evicted.
    cases hl' : c'.space.cache.lookup a with
    | none => exact absurd (.inr (.inr ⟨r', hw'⟩)) (hg.evicted hclean a ha (by rw [hl]; simp) hl')
    | some r'' => exact (hg.others a r'' ha hl').symm.trans hl
  · obtain ⟨h1, h2⟩ := hf.removes (hrem.mp hr)
    exact ⟨h1, fun r' hw => h2 r' ((hwr r').mp hw)⟩
  · have hset : c'.settled = c.settled := by unfold Collection.settled; rw [hg.frame]
    rw [hset]
    exact hf.settled (fun h' => hr (hrem.mpr h')) fun r' hw' => hw r' ((hwr r').mpr hw')

/-- Getting an onode that reflects the operations so far keeps the invariant. -/
theorem Got.inv (hg : Got c c' oid create r on) (h : CacheInv c m) (hclean : c.EvictsClean oid create)
    (ho : on.oid = oid) (hon : on.Reflects m) (hw : ∀ r', c.Writes oid r' → r' = r) :
    CacheInv c' m := by
  have htxc : c'.txc = c.txc := by rw [hg.frame]
  refine ⟨fun a => ?_, fun t ht => ?_⟩
  · by_cases ha : a = oid
    · subst ha
      have hf := h.fine a
      have hrem : c'.Removes a ↔ c.Removes a := by unfold Collection.Removes; rw [htxc]
      have hwr := hg.writes_iff h a
      refine ⟨fun r' hr' => ?_, fun hnone => ?_, fun r' hw' => ?_, fun hr => ?_, fun hr hw' => ?_⟩
      · obtain rfl := Option.some.inj (hg.lookup.symm.trans hr')
        rw [hg.onode]
        exact ⟨ho, hon, hg.lt⟩
      · rw [hg.lookup] at hnone
        cases hnone
      · have hw'' := (hwr r').mp hw'
        obtain ⟨-, hp⟩ := hf.writes r' hw''
        obtain rfl := hw r' hw''
        refine ⟨hg.lookup, ?_⟩
        rw [hg.heap r' (h.writes_lt hw'')]
        exact hp
      · obtain ⟨h1, h2⟩ := hf.removes (hrem.mp hr)
        exact ⟨h1, fun r' hw => h2 r' ((hwr r').mp hw)⟩
      · have hset : c'.settled = c.settled := by unfold Collection.settled; rw [hg.frame]
        rw [hset]
        exact hf.settled (fun h' => hr (hrem.mpr h')) fun r' h' => hw' r' ((hwr r').mpr h')
    · exact hg.fine_other h hclean ha
  · rw [htxc] at ht
    exact ⟨(h.onodes t ht).1, fun r' hr' => lt_of_lt_of_le ((h.onodes t ht).2 r' hr') hg.next⟩

/-- What a `get_onode` returns of an object that is fine. -/
theorem Fine.getOnode {blank : V} {res : Option ℕ} (hf : Fine c m oid)
    (hget : c.getOnode blank oid create = (res, c')) :
    (∃ r on, res = some r ∧ Got c c' oid create r on ∧ on.oid = oid ∧ on.Reflects m ∧
      (∀ r', c.Writes oid r' → r' = r) ∧ (c.space.cache.lookup oid = some r ∧ on = c.heap r ∨
        c.space.cache.lookup oid = none ∧ on.present = true)) ∨
      (c.space.cache.lookup oid = none ∧ m oid = none ∧
        ((∃ r, res = some r ∧ create = true ∧ Got c c' oid create r ⟨oid, blank, true⟩) ∨
          res = none ∧ create = false ∧ c' = c)) := by
  rcases Collection.getOnode_cases (fun r hr => (hf.cached r hr).2.2) hget with
    ⟨r, rfl, hl, hg⟩ | ⟨hl, ⟨v, r, rfl, hk, hg⟩ | ⟨r, rfl, hk, hcreate, hg⟩ | ⟨rfl, hk, hcreate, rfl⟩⟩
  · obtain ⟨ho, hon, -⟩ := hf.cached r hl
    refine .inl ⟨r, _, rfl, hg, ho, hon, fun r' hw => ?_, .inl ⟨hl, rfl⟩⟩
    exact Option.some.inj ((hf.writes r' hw).1.symm.trans hl)
  · refine .inl ⟨r, _, rfl, hg, rfl, ?_, fun r' hw => ?_, .inr ⟨hl, rfl⟩⟩
    · show m oid = some v
      rw [← hf.kv_eq (hf.missing hl), hk]
    · exact absurd (.inr (.inr ⟨r', hw⟩)) (hf.missing hl)
  · have hm : m oid = none := by rw [← hf.kv_eq (hf.missing hl), hk]
    exact .inr ⟨hl, hm, .inl ⟨r, rfl, hcreate, hg⟩⟩
  · have hm : m oid = none := by rw [← hf.kv_eq (hf.missing hl), hk]
    exact .inr ⟨hl, hm, .inr ⟨rfl, hcreate, rfl⟩⟩

/-- The transaction that is being prepared writes the onode `r` of an object, or removes the
object. -/
structure Noted (t t' : OpenTxc Oid) (oid : Oid) (r : ℕ) : Prop where
  /-- The other onodes. -/
  onodes : ∀ r', r' ≠ r → (r' ∈ t'.onodes ↔ r' ∈ t.onodes)
  /-- They are distinct. -/
  nodup : t'.onodes.Nodup
  /-- The other objects. -/
  rmkeys : ∀ a ≠ oid, a ∈ t'.rmkeys ↔ a ∈ t.rmkeys

/-- An onode that was got is changed, and the transaction that is being prepared notes it. -/
theorem Got.changed (hg : Got c c' oid create r on) (h : CacheInv c m)
    (hclean : c.EvictsClean oid create)
    (hold : on.oid = oid) {on' : Onode Oid V} {t : OpenTxc Oid} (ht : c.txc = some t)
    (t' : OpenTxc Oid) (ho : on'.oid = oid) (hon : on'.Reflects m') (hm : ∀ a ≠ oid, m' a = m a)
    (hnoted : Noted t t' oid r) (hw : ∀ r', c.Writes oid r' → r' = r)
    (hone : r ∈ t'.onodes ∧ on'.present = true ∧ oid ∉ t'.rmkeys ∨
      r ∉ t'.onodes ∧ oid ∈ t'.rmkeys ∧ m' oid = none) :
    CacheInv { c' with heap := Function.update c'.heap r on', txc := some t' } m' := by
  have ht' : c'.txc = some t := by
    rw [hg.frame]
    exact ht
  -- `d` differs from the collection in this onode and in what the transaction notes.
  obtain ⟨d, hd⟩ : ∃ d : Collection Oid V,
    d = { c' with heap := Function.update c'.heap r on', txc := some t' } := ⟨_, rfl⟩
  rw [← hd]
  have hr : d.heap r = on' := by
    rw [hd]
    exact Function.update_self ..
  have hne : ∀ r', r' ≠ r → d.heap r' = c'.heap r' := by
    intro r' hr'
    rw [hd]
    exact Function.update_of_ne hr' ..
  have hspace : d.space = c'.space := by rw [hd]
  have hset : d.settled = c'.settled := by rw [hd]; rfl
  have hnext : d.nextRef = c'.nextRef := by rw [hd]
  -- What the open transaction writes and removes of an object.
  have hwrites : ∀ a r', d.Writes a r' ↔ r' ∈ t'.onodes ∧ (d.heap r').oid = a := by
    intro a r'
    simp [Collection.Writes, hd]
  have hremoves : ∀ a, d.Removes a ↔ a ∈ t'.rmkeys := by
    intro a
    simp [Collection.Removes, hd]
  -- The object itself, then the others, then the transaction.
  refine ⟨fun a => ?_, fun t1 ht1 => ?_⟩
  · by_cases ha : a = oid
    · subst ha
      -- Only `r` can be written for the object.
      have honly : ∀ r', d.Writes a r' → r' = r := by
        intro r' hw'
        by_contra hr'
        obtain ⟨hmem, hoid⟩ := (hwrites a r').mp hw'
        rw [hne r' hr'] at hoid
        have hmem' := (hnoted.onodes r' hr').mp hmem
        rw [hg.heap r' ((h.onodes t ht).2 r' hmem')] at hoid
        exact hr' (hw r' ⟨t, ht, hmem', hoid⟩)
      refine ⟨fun r' hr' => ?_, fun hnone => ?_, fun r' hw' => ?_, fun hrem => ?_, fun hrem hw' => ?_⟩
      · rw [hspace, hg.lookup] at hr'
        obtain rfl := Option.some.inj hr'
        rw [hr, hnext]
        exact ⟨ho, hon, hg.lt⟩
      · rw [hspace, hg.lookup] at hnone
        cases hnone
      · obtain rfl := honly r' hw'
        obtain ⟨hmem, -⟩ := (hwrites a r').mp hw'
        rw [hspace, hr]
        rcases hone with ⟨-, hp, -⟩ | ⟨hnot, -⟩
        · exact ⟨hg.lookup, hp⟩
        · exact absurd hmem hnot
      -- It was noted before, or only now.
      · rcases hone with ⟨-, -, hnot⟩ | ⟨hnot, -, hnone⟩
        · exact absurd ((hremoves a).mp hrem) hnot
        · refine ⟨hnone, fun r' hw' => ?_⟩
          obtain rfl := honly r' hw'
          exact hnot ((hwrites a r').mp hw').1
      · rcases hone with ⟨hmem, -, -⟩ | ⟨-, hmem, -⟩
        · exact absurd ((hwrites a r).mpr ⟨hmem, by rw [hr]; exact ho⟩) (hw' r)
        · exact absurd ((hremoves a).mpr hmem) hrem
    -- Another object is as it was, since its onode is another one.
    · have hf := hg.fine_other h hclean ha
      have hrr : ∀ r', (d.heap r').oid = a → r' ≠ r := by
        rintro r' hoid rfl
        rw [hr, ho] at hoid
        exact ha hoid.symm
      have hwr : ∀ r', d.Writes a r' ↔ c'.Writes a r' := by
        intro r'
        rw [hwrites]
        constructor
        · rintro ⟨hmem, hoid⟩
          have hr' := hrr r' hoid
          rw [hne r' hr'] at hoid
          exact ⟨t, ht', (hnoted.onodes r' hr').mp hmem, hoid⟩
        · rintro ⟨t1, ht1, hmem, hoid⟩
          obtain rfl : t = t1 := Option.some.inj (ht'.symm.trans ht1)
          have hr' : r' ≠ r := by
            rintro rfl
            rw [hg.onode, hold] at hoid
            exact ha hoid.symm
          rw [hne r' hr']
          exact ⟨(hnoted.onodes r' hr').mpr hmem, hoid⟩
      have hrm : d.Removes a ↔ c'.Removes a := by
        rw [hremoves, hnoted.rmkeys a ha]
        simp [Collection.Removes, ht']
      have hque : d.Queued a ↔ c'.Queued a := by rw [hd]; exact Iff.rfl
      have hma : m' a = m a := hm a ha
      refine ⟨fun r' hr' => ?_, fun hnone => ?_, fun r' hw' => ?_, fun hrem => ?_, fun hrem hw' => ?_⟩
      · rw [hspace] at hr'
        obtain ⟨h1, h2, h3⟩ := hf.cached r' hr'
        have hr'' : r' ≠ r := by
          rintro rfl
          rw [hg.onode, hold] at h1
          exact ha h1.symm
        rw [hne r' hr'', hnext]
        refine ⟨h1, ?_, h3⟩
        unfold Onode.Reflects at h2 ⊢
        rwa [h1, hma, ← h1]
      · rw [hspace] at hnone
        have := hf.missing hnone
        simpa only [Collection.Dirty, hque, hrm, hwr] using this
      · rw [hspace]
        have hr' := hrr r' ((hwrites a r').mp hw').2
        rw [hne r' hr']
        exact hf.writes r' ((hwr r').mp hw')
      · rw [hma]
        obtain ⟨h1, h2⟩ := hf.removes (hrm.mp hrem)
        exact ⟨h1, fun r' hw' => h2 r' ((hwr r').mp hw')⟩
      · rw [hset, hma]
        exact hf.settled (fun h' => hrem (hrm.mpr h')) fun r' h' => hw' r' ((hwr r').mpr h')
  · obtain rfl : t' = t1 := by simpa [hd] using ht1
    refine ⟨hnoted.nodup, fun r' hr' => ?_⟩
    rw [hnext]
    by_cases hrr : r' = r
    · rw [hrr]
      exact hg.lt
    · exact lt_of_lt_of_le ((h.onodes t ht).2 r' ((hnoted.onodes r' hrr).mp hr')) hg.next

/-! ## The steps -/

omit [DecidableEq Oid] in
/-- A written onode is noted once. -/
theorem noted_writeOnode {t : OpenTxc Oid} (hn : t.onodes.Nodup) (oid : Oid) (r : ℕ) :
    Noted t (t.writeOnode r) oid r ∧ r ∈ (t.writeOnode r).onodes := by
  unfold OpenTxc.writeOnode
  split_ifs with hr
  · exact ⟨⟨fun _ _ => Iff.rfl, hn, fun _ _ => Iff.rfl⟩, hr⟩
  · refine ⟨⟨fun r' hr' => by simp [hr'], ?_, fun _ _ => Iff.rfl⟩, by simp⟩
    exact List.nodup_append.mpr ⟨hn, by simp, by
      rintro x hx y hy rfl
      rw [List.mem_singleton] at hy
      exact hr (hy ▸ hx)⟩

/-- What the operations make of an object when one of them updates it. -/
theorem apply_update (blank : V) (m : Oid → Option V) (oid : Oid) (create : Bool) (f : V → V) :
    CollAction.apply blank m (.update oid create f) = Function.update m oid
      (if create then some (f ((m oid).getD blank)) else (m oid).map f) := by
  cases create <;> rfl

/-- An operation changes an object. -/
theorem CacheInv.update {blank : V} (h : CacheInv c m) {t : OpenTxc Oid} (ht : c.txc = some t)
    {f : V → V} (hclean : c.EvictsClean oid create)
    (hpresent : ∀ r ∈ c.space.cache.lookup oid, (c.heap r).present = true) :
    CacheInv (c.doUpdate blank t oid create f) (CollAction.apply blank m (.update oid create f)) := by
  have hf := h.fine oid
  obtain ⟨hnodup, -⟩ := h.onodes t ht
  rw [apply_update]
  unfold Collection.doUpdate
  cases hget : c.getOnode blank oid create with
  | mk res c1 =>
    have hother : ∀ w, ∀ a ≠ oid, Function.update m oid w a = m a := fun w a ha =>
      Function.update_of_ne ha ..
    rcases hf.getOnode hget with ⟨r, on, rfl, hg, ho, hon, hw, hcase⟩ |
      ⟨hl, hm, ⟨r, rfl, rfl, hg⟩ | ⟨rfl, rfl, rfl⟩⟩
    · -- The onode of an object that exists.
      have hp : on.present = true := by
        rcases hcase with ⟨hl, rfl⟩ | ⟨-, hp⟩
        · exact hpresent r hl
        · exact hp
      have hcontent : m oid = some on.content := by
        unfold Onode.Reflects at hon
        rwa [if_pos hp, ho] at hon
      have hrm : oid ∉ t.rmkeys := by
        intro hmem
        have := (hf.removes ⟨t, ht, hmem⟩).1
        rw [hcontent] at this
        cases this
      obtain ⟨hnoted, hr⟩ := noted_writeOnode hnodup oid r
      simp only [Collection.change, hg.onode]
      refine hg.changed h hclean ho ht (t.writeOnode r) ho ?_ (hother _) hnoted hw
        (.inl ⟨hr, hp, hrm⟩)
      unfold Onode.Reflects
      rw [if_pos hp, ho, Function.update_self, hcontent]
      cases create <;> rfl
    · -- A new onode.
      have hrm : oid ∉ t.rmkeys := fun hmem => hf.missing hl (.inr (.inl ⟨t, ht, hmem⟩))
      obtain ⟨hnoted, hr⟩ := noted_writeOnode hnodup oid r
      simp only [Collection.change, hg.onode]
      refine hg.changed h hclean rfl ht (t.writeOnode r) rfl ?_ (hother _) hnoted
        (fun r' hw => absurd (.inr (.inr ⟨r', hw⟩)) (hf.missing hl)) (.inl ⟨hr, rfl, hrm⟩)
      unfold Onode.Reflects
      rw [if_pos rfl, Function.update_self, hm]
      rfl
    · -- Nothing to change.
      rw [hm, show (if false = true then some (f ((none : Option V).getD blank)) else none.map f) =
        m oid by rw [hm]; rfl, Function.update_eq_self]
      exact h

/-- An object is removed. -/
theorem CacheInv.remove {blank : V} (h : CacheInv c m) {t : OpenTxc Oid} (ht : c.txc = some t)
    (hclean : c.EvictsClean oid false) :
    CacheInv (c.doRemove blank t oid) (Function.update m oid none) := by
  have hf := h.fine oid
  obtain ⟨hnodup, -⟩ := h.onodes t ht
  unfold Collection.doRemove
  cases hget : c.getOnode blank oid false with
  | mk res c1 =>
    rcases hf.getOnode hget with ⟨r, on, rfl, hg, ho, hon, hw, -⟩ |
      ⟨hl, hm, ⟨r, -, hcreate, -⟩ | ⟨rfl, -, rfl⟩⟩
    · simp only [Collection.change, hg.onode]
      have hnoted : Noted t ⟨t.onodes.erase r, t.rmkeys ++ [oid]⟩ oid r := by
        refine ⟨fun r' hr' => List.mem_erase_of_ne hr', hnodup.erase r, fun a ha => ?_⟩
        simp [ha]
      refine hg.changed h hclean ho ht ⟨t.onodes.erase r, t.rmkeys ++ [oid]⟩ ho ?_
        (fun a ha => Function.update_of_ne ha ..) hnoted hw
        (.inr ⟨hnodup.not_mem_erase, by simp, Function.update_self ..⟩)
      show Function.update m oid none on.oid = none
      rw [ho]
      exact Function.update_self ..
    · cases hcreate
    · rw [← hm, Function.update_eq_self]
      exact h

/-- A transaction is queued: its KV transaction has the onodes as they are in the cache. -/
theorem CacheInv.queue (h : CacheInv c m) {t : OpenTxc Oid} (ht : c.txc = some t) {order : List ℕ}
    (hperm : order.Perm t.onodes) : CacheInv { c with
      txc := none, pending := c.pending ++ [c.kvTransaction t order] } m := by
  have hops : ∀ op ∈ c.kvTransaction t order, ∀ a, op.oid = a →
      c.Removes a ∧ op.value = none ∨ ∃ r, c.Writes a r ∧ op.value = some (c.heap r).content := by
    rintro op hop a rfl
    rcases List.mem_append.mp hop with hop | hop
    · obtain ⟨a, ha, rfl⟩ := List.mem_map.mp hop
      exact .inl ⟨⟨t, ht, ha⟩, rfl⟩
    · obtain ⟨r, hr, rfl⟩ := List.mem_map.mp hop
      exact .inr ⟨r, ⟨t, ht, hperm.mem_iff.mp hr, rfl⟩, rfl⟩
  -- Object by object: the queued operations come last.
  refine ⟨fun a => ?_, by simp⟩
  have hf := h.fine a
  refine ⟨hf.cached, fun hnone => ?_, ?_, ?_, fun _ _ => ?_⟩
  · rintro (⟨op, hop, ho⟩ | ⟨t', ht', -⟩ | ⟨r, t', ht', -⟩)
    · rw [List.flatten_append, List.flatten_singleton, List.mem_append] at hop
      rcases hop with hop | hop
      · exact hf.missing hnone (.inl ⟨op, hop, ho⟩)
      · rcases hops op hop a ho with ⟨hr, -⟩ | ⟨r, hw, -⟩
        · exact hf.missing hnone (.inr (.inl hr))
        · exact hf.missing hnone (.inr (.inr ⟨r, hw⟩))
    · cases ht'
    · cases ht'
  · rintro r ⟨t', ht', -⟩
    cases ht'
  · rintro ⟨t', ht', -⟩
    cases ht'
  · have hset : Collection.settled { c with
        txc := none, pending := c.pending ++ [c.kvTransaction t order] } a =
        (c.kvTransaction t order).foldl KvOp.apply c.settled a := by
      unfold Collection.settled
      rw [List.flatten_append, List.flatten_singleton, List.foldl_append]
    rw [hset]
    by_cases hr : c.Removes a
    · -- Removed, and not written.
      obtain ⟨hm, hno⟩ := hf.removes hr
      rw [hm]
      refine foldl_kvOp (fun op hop ho => ?_) (.inr ?_)
      · rcases hops op hop a ho with ⟨-, hv⟩ | ⟨r, hw, -⟩
        · exact hv
        · exact absurd hw (hno r)
      · obtain ⟨t', ht', hmem⟩ := hr
        obtain rfl : t = t' := Option.some.inj (ht.symm.trans ht')
        exact ⟨.rmkey a, List.mem_append_left _ (List.mem_map_of_mem hmem), rfl⟩
    · by_cases hw : ∃ r, c.Writes a r
      · -- Written, from the onode in the cache.
        obtain ⟨r, hw⟩ := hw
        obtain ⟨hl, hp⟩ := hf.writes r hw
        obtain ⟨ho, hon, -⟩ := hf.cached r hl
        have hm : m a = some (c.heap r).content := by
          unfold Onode.Reflects at hon
          rwa [if_pos hp, ho] at hon
        rw [hm]
        refine foldl_kvOp (fun op hop ho => ?_) (.inr ?_)
        · rcases hops op hop a ho with ⟨hr', -⟩ | ⟨r', hw', hv⟩
          · exact absurd hr' hr
          · obtain rfl := Option.some.inj ((hf.writes r' hw').1.symm.trans hl)
            exact hv
        · obtain ⟨t', ht', hmem, hoid⟩ := hw
          obtain rfl : t = t' := Option.some.inj (ht.symm.trans ht')
          exact ⟨_, List.mem_append_right _ (List.mem_map_of_mem (hperm.mem_iff.mpr hmem)), hoid⟩
      · push Not at hw
        rw [foldl_kvOp_other, hf.settled hr hw]
        intro op hop ho
        rcases hops op hop a ho with ⟨hr', -⟩ | ⟨r, hw', -⟩
        · exact hr hr'
        · exact hw r hw'

/-- A KV transaction is committed. -/
theorem CacheInv.commit (h : CacheInv c m) {ops : List (KvOp Oid V)} {rest : List (List (KvOp Oid V))}
    (hp : c.pending = ops :: rest) :
    CacheInv { c with kv := ops.foldl KvOp.apply c.kv, pending := rest } m := by
  have hset : Collection.settled { c with kv := ops.foldl KvOp.apply c.kv, pending := rest } =
      c.settled := by
    unfold Collection.settled
    rw [hp, List.flatten_cons, List.foldl_append]
  refine ⟨fun a => ?_, h.onodes⟩
  have hf := h.fine a
  refine ⟨hf.cached, fun hnone hdirty => hf.missing hnone ?_, hf.writes, hf.removes, ?_⟩
  · rcases hdirty with ⟨op, hop, ho⟩ | hdirty
    · refine .inl ⟨op, ?_, ho⟩
      rw [hp, List.flatten_cons]
      exact List.mem_append_right _ hop
    · exact .inr hdirty
  · rw [hset]
    exact hf.settled

end

/-- Every step that meets the condition keeps the invariant. -/
theorem cacheInv_step {blank : V} {c c' : Collection Oid V} {m : Oid → Option V}
    {a : CollAction Oid V} (h : CacheInv c m) (hok : CacheOk c a) (hs : c.step blank a = some c') :
    CacheInv c' (CollAction.apply blank m a) := by
  -- One case for each call, by the lemma about it.
  cases a with
  | getOnode oid =>
    obtain rfl := Option.some.inj hs
    cases hget : c.getOnode blank oid false with
    | mk res c1 =>
      rcases (h.fine oid).getOnode hget with ⟨r, on, -, hg, ho, hon, hw, -⟩ |
        ⟨-, -, ⟨r, -, hcreate, -⟩ | ⟨-, -, rfl⟩⟩
      · exact hg.inv h hok ho hon hw
      · cases hcreate
      · exact h
  | begin =>
    simp only [Collection.step] at hs
    split at hs
    · rename_i ht
      obtain rfl := Option.some.inj hs
      refine ⟨fun a => ?_, by simp⟩
      have hf := h.fine a
      have hno : ∀ r, ¬ c.Writes a r := by
        rintro r ⟨t, ht', -⟩
        rw [ht] at ht'
        cases ht'
      have hrm : ¬ c.Removes a := by
        rintro ⟨t, ht', -⟩
        rw [ht] at ht'
        cases ht'
      refine ⟨hf.cached, fun hnone => ?_, by simp [Collection.Writes], by simp [Collection.Removes],
        fun _ _ => hf.settled hrm hno⟩
      rintro (hq | ⟨t, ht', hmem⟩ | ⟨r, t, ht', hmem, -⟩)
      · exact hf.missing hnone (.inl hq)
      · obtain rfl := Option.some.inj ht'
        cases hmem
      · obtain rfl := Option.some.inj ht'
        cases hmem
    · cases hs
  | update oid create f =>
    obtain ⟨t, ht, rfl⟩ := Option.map_eq_some_iff.mp hs
    exact h.update ht hok.1 hok.2
  | remove oid =>
    obtain ⟨t, ht, rfl⟩ := Option.map_eq_some_iff.mp hs
    exact h.remove ht hok
  | queue order =>
    simp only [Collection.step] at hs
    split at hs
    · cases hs
    · rename_i t ht
      split_ifs at hs with hperm
      exact Option.some.inj hs ▸ h.queue ht hperm
  | commit =>
    simp only [Collection.step] at hs
    split at hs
    · cases hs
    · rename_i ops rest hp
      exact Option.some.inj hs ▸ h.commit hp
  | setMaxSize n =>
    obtain rfl := Option.some.inj hs
    exact ⟨fun a => ⟨(h.fine a).cached, (h.fine a).missing, (h.fine a).writes, (h.fine a).removes,
      (h.fine a).settled⟩, h.onodes⟩

/-- A new collection keeps the invariant. -/
theorem cacheInv_init (blank : V) (oid : Oid) (maxSize : ℕ) :
    CacheInv (Collection.init blank oid maxSize) fun _ => none := by
  refine ⟨fun a => ?_, by simp [Collection.init]⟩
  constructor <;>
    simp [Collection.init, Collection.Dirty, Collection.Queued, Collection.Removes,
      Collection.Writes, Collection.settled]

/-- The invariant gives coherence. -/
theorem CacheInv.coherent {blank : V} {c : Collection Oid V} {m : Oid → Option V}
    (h : CacheInv c m) : Coherent blank c m := by
  refine ⟨fun oid => ?_, fun oid => ?_, fun ht => funext fun a => ?_⟩
  · cases hget : c.getOnode blank oid false with
    | mk res c1 =>
      rcases (h.fine oid).getOnode hget with ⟨r, on, rfl, hg, ho, hon, -⟩ |
        ⟨-, hm, ⟨r, -, hcreate, -⟩ | ⟨rfl, -, -⟩⟩
      · show (c1.heap r).oid = oid ∧ (c1.heap r).Reflects m
        rw [hg.onode]
        exact ⟨ho, hon⟩
      · cases hcreate
      · exact hm
  · cases hget : c.getOnode blank oid true with
    | mk res c1 =>
      rcases (h.fine oid).getOnode hget with ⟨r, on, rfl, hg, ho, hon, -⟩ |
        ⟨-, hm, ⟨r, rfl, -, hg⟩ | ⟨-, hcreate, -⟩⟩
      · refine ⟨r, c1, rfl, ?_⟩
        rw [hg.onode]
        unfold Onode.Reflects at hon
        rw [ho] at hon
        refine ⟨ho, fun hp => ?_, fun hm => ?_⟩
        · rw [if_pos hp] at hon
          rw [hon]
          rfl
        · by_contra hp
          rw [if_neg hp] at hon
          exact hm hon
      · refine ⟨r, c1, rfl, ?_⟩
        rw [hg.onode, hm]
        exact ⟨rfl, fun _ => rfl, fun hne => absurd rfl hne⟩
      · cases hcreate
  · refine (h.fine a).settled ?_ ?_
    · rintro ⟨t, ht', -⟩
      rw [ht] at ht'
      cases ht'
    · rintro r ⟨t, ht', -⟩
      rw [ht] at ht'
      cases ht'

/-- In every run whose steps meet the condition, `get_onode` returns onodes that reflect every
operation so far, and no queued update is lost. -/
theorem onode_cache_coherent (blank : V) (oid : Oid) (maxSize : ℕ) (as : List (CollAction Oid V))
    (c : Collection Oid V)
    (hm : Runs.Meets (Collection.step blank) CacheOk (Collection.init blank oid maxSize) as)
    (hs : Runs.exec (Collection.step blank) (Collection.init blank oid maxSize) as = some c) :
    Coherent blank c (as.foldl (CollAction.apply blank) fun _ => none) :=
  (Runs.exec_simulates (CollAction.apply blank) (R := CacheInv)
    (fun _ _ _ _ h hok hs => cacheInv_step h hok hs) as _ (fun _ => none) c
    (cacheInv_init blank oid maxSize) hm hs).coherent

/-- With room for one onode, two objects are written, committed and read in turn. -/
def writtenInTurn : List (CollAction ℕ (List ℕ)) :=
  [.begin, .update 0 true (· ++ [5]), .queue [0], .commit, .begin, .update 1 true (· ++ [6]),
    .queue [1], .commit, .getOnode 0]

/-- The condition is met by a run with evictions. -/
theorem onode_cache_coherent_writtenInTurn :
    ∃ c, Runs.exec (Collection.step []) (.init [] 0 1) writtenInTurn = some c ∧
      c.space.lru = [0] ∧ c.settled 1 = some [6] ∧
      Coherent [] c (writtenInTurn.foldl (CollAction.apply []) fun _ => none) := by
  have hrun : (Runs.exec (Collection.step []) (.init [] 0 1) writtenInTurn).map
      (fun c => (c.space.lru, c.settled 1)) = some ([0], some [6]) := by decide +kernel
  obtain ⟨c, hc, hpair⟩ := Option.map_eq_some_iff.mp hrun
  obtain ⟨hlru, hset⟩ := Prod.mk.inj hpair
  exact ⟨c, hc, hlru, hset, onode_cache_coherent [] 0 1 _ c (by decide +kernel) hc⟩

/-- With room for one onode, object 0 is written, object 1 takes its place before the KV transaction
is committed, and object 0 is written again. -/
def evictedTooEarly : List (CollAction ℕ (List ℕ)) :=
  [.begin, .update 0 true (· ++ [5]), .queue [0], .begin, .update 1 true (· ++ [6]), .queue [1],
    .begin, .update 0 true (· ++ [7]), .queue [2], .commit, .commit, .commit]

/-- An object is written, removed and written again while its onode is in the cache. -/
def writtenAfterRemove : List (CollAction ℕ (List ℕ)) :=
  [.begin, .update 0 true (· ++ [5]), .queue [0], .begin, .remove 0, .queue [],
    .begin, .update 0 true (· ++ [7]), .queue [0]]

/-- The first write of object 0 is lost; the onode of an object that is written after it was removed
says that there is no such object. -/
theorem evictedTooEarly_loses_update :
    (∃ c, Runs.exec (Collection.step []) (.init [] 0 1) evictedTooEarly = some c ∧
      ¬ Coherent [] c (evictedTooEarly.foldl (CollAction.apply []) fun _ => none)) ∧
    ∃ c, Runs.exec (Collection.step []) (.init [] 0 8) writtenAfterRemove = some c ∧
      ¬ Coherent [] c (writtenAfterRemove.foldl (CollAction.apply []) fun _ => none) := by
  constructor
  · have hrun : (Runs.exec (Collection.step []) (.init [] 0 1) evictedTooEarly).map
        (fun c => (c.txc.isNone, c.settled 0)) = some (true, some [7]) := by decide +kernel
    obtain ⟨c, hc, hpair⟩ := Option.map_eq_some_iff.mp hrun
    obtain ⟨htxc, hset⟩ := Prod.mk.inj hpair
    refine ⟨c, hc, fun h => ?_⟩
    have := h.settled (Option.isNone_iff_eq_none.mp htxc)
    rw [this] at hset
    revert hset
    decide
  · have hrun : (Runs.exec (Collection.step []) (.init [] 0 8) writtenAfterRemove).map
        (fun c => ((c.getOnode [] 0 false).1, ((c.getOnode [] 0 false).2.heap 0).present,
          ((c.getOnode [] 0 false).2.heap 0).oid)) = some (some 0, false, 0) := by decide +kernel
    obtain ⟨c, hc, htriple⟩ := Option.map_eq_some_iff.mp hrun
    refine ⟨c, hc, fun h => ?_⟩
    have hget := h.get 0
    cases hg : c.getOnode [] 0 false with
    | mk res c' =>
      rw [hg] at htriple hget
      simp only [Prod.mk.injEq] at htriple
      obtain ⟨rfl, hpresent, hoid⟩ := htriple
      obtain ⟨-, hreflects⟩ := hget
      unfold Onode.Reflects at hreflects
      rw [hpresent, hoid, if_neg Bool.false_ne_true] at hreflects
      revert hreflects
      decide

end CxxLab.Bluestore
