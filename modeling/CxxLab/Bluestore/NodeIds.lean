import CxxLab.Lib.Runs
import Mathlib

/-!
# Node ids

`_assign_nid`, and what a crash leaves of it. The counter `nid_last_` lives in memory; what is
stored is the ceiling `nid_max`, and it is stored by the KV transaction that happens to cross the
old ceiling. KV transactions of one collection are committed in order, those of different
collections in any order, so a transaction that uses an id above the stored ceiling can be there
before the one that raises it. After a mount `nid_last_` is the stored ceiling.

Of an onode only its name and its `nid` are kept. `queue_transactions` of one collection are called
one after the other, those of different collections at the same time: a thread is taken apart at
every access of the two atomic counters. Eviction from the cache is left to the environment, at any
time.
-/

namespace CxxLab.Bluestore.NodeIds

variable {Obj Coll : Type} [DecidableEq Obj] [DecidableEq Coll]

/-- What an `uint64_t` keeps of a number. -/
def wrap (n : ℕ) : ℕ := n % 0x10000000000000000

/-- `Onode`, less what no id depends on. -/
structure Onode (Obj : Type) where
  /-- The object; its key in the KV store is made from it. -/
  oid : Obj
  /-- `onode.nid`. -/
  nid : ℕ

/-- An operation of a KV transaction under `PREFIX_OBJ`. -/
inductive KvOp (Obj : Type) where
  /-- `set`. -/
  | set (o : Obj) (nid : ℕ)
  /-- `rmkey`. -/
  | rmkey (o : Obj)

/-- A KV transaction. -/
structure Batch (Obj : Type) where
  /-- The operations on onodes. -/
  ops : List (KvOp Obj)
  /-- The ceiling that it sets, if it does. -/
  nidMax : Option ℕ

/-- Where a thread is in `_assign_nid`, with the onode and the value that it has loaded. -/
inductive Pc where
  /-- Outside. -/
  | ready
  /-- The onode has its id. -/
  | numbered (r : ℕ)
  /-- `nid_last_` is loaded, for the comparison. -/
  | loaded (r last : ℕ)
  /-- `nid_last_ > nid_max_`. -/
  | above (r : ℕ)
  /-- `nid_last_ + 1024` is there to be stored. -/
  | raising (r v : ℕ)
  /-- `nid_max_` is stored. -/
  | raised (r : ℕ)

/-- The transaction that a thread prepares. -/
structure Thread where
  /-- `onodes`: the onodes to be written. -/
  onodes : List ℕ
  /-- The ceiling in `t`, if it is set. -/
  nidMax : Option ℕ
  /-- Where the thread is. -/
  pc : Pc

/-- A collection. -/
structure Collection (Obj : Type) where
  /-- The onodes, by their addresses. -/
  heap : ℕ → Onode Obj
  /-- An address that no onode has had. -/
  nextRef : ℕ
  /-- The cached onodes. -/
  cache : Obj → Option ℕ
  /-- The transaction that is being prepared, and the keys that it removes. -/
  txc : Option (Thread × List Obj)
  /-- The KV transactions that are queued and not committed, in order. -/
  pending : List (Batch Obj)

/-- The store. -/
structure Store (Obj Coll : Type) where
  /-- `nid_last_`. -/
  nidLast : ℕ
  /-- `nid_max_`. -/
  nidMax : ℕ
  /-- The collections. -/
  colls : Coll → Collection Obj
  /-- The ids of the stored onodes. -/
  kv : Obj → Option ℕ
  /-- The stored ceiling. -/
  kvNidMax : ℕ

/-! ## The steps -/

/-- A collection with nothing in memory. -/
def Collection.fresh [Inhabited Obj] : Collection Obj where
  heap _ := ⟨default, 0⟩
  nextRef := 0
  cache _ := none
  txc := none
  pending := []

/-- A new onode goes into the cache. -/
def Collection.add (c : Collection Obj) (o : Obj) (nid : ℕ) : ℕ × Collection Obj :=
  (c.nextRef, { c with
    heap := Function.update c.heap c.nextRef ⟨o, nid⟩
    nextRef := c.nextRef + 1
    cache := Function.update c.cache o (some c.nextRef) })

/-- `get_onode`. -/
def Collection.getOnode (c : Collection Obj) (kv : Obj → Option ℕ) (o : Obj) (create : Bool) :
    Option (ℕ × Collection Obj) :=
  match c.cache o with
  | some r => some (r, c)
  | none =>
    match kv o with
    | some nid => some (c.add o nid)
    | none => if create then some (c.add o 0) else none

/-- `write_onode`. -/
def Thread.writeOnode (t : Thread) (r : ℕ) : Thread :=
  { t with onodes := if r ∈ t.onodes then t.onodes else t.onodes ++ [r] }

/-- A collection changes. -/
def Store.setColl (s : Store Obj Coll) (c : Coll) (k : Collection Obj) : Store Obj Coll :=
  { s with colls := Function.update s.colls c k }

/-- An operation on the KV store. -/
def KvOp.apply (kv : Obj → Option ℕ) : KvOp Obj → Obj → Option ℕ
  | .set o nid => Function.update kv o (some nid)
  | .rmkey o => Function.update kv o none

/-- The steps. -/
inductive Act (Obj Coll : Type) where
  /-- `_txc_create`. -/
  | begin (c : Coll)
  /-- An operation that creates the object: `get_onode`, and `++nid_last_` if it has no id. -/
  | touch (c : Coll) (o : Obj)
  /-- The thread goes on in `_assign_nid`. -/
  | next (c : Coll)
  /-- An operation that changes an object and does not create it. -/
  | change (c : Coll) (o : Obj)
  /-- `_do_remove`. -/
  | remove (c : Coll) (o : Obj)
  /-- A reader calls `get_onode`. -/
  | read (c : Coll) (o : Obj)
  /-- The cache drops an onode. -/
  | evict (c : Coll) (o : Obj)
  /-- `_txc_write_nodes`: the KV transaction is complete and queued. -/
  | queue (c : Coll)
  /-- The oldest KV transaction of the collection is committed. -/
  | commit (c : Coll)
  /-- A crash, and the next mount. -/
  | crash

/-- The thread goes on in `_assign_nid`: one access of a counter. -/
def stepNext (s : Store Obj Coll) (c : Coll) (t : Thread) (rm : List Obj) :
    Option (Store Obj Coll) :=
  let put (t : Thread) := s.setColl c { s.colls c with txc := some (t, rm) }
  match t.pc with
  | .ready => none
  | .numbered r => some (put { t with pc := .loaded r s.nidLast })
  | .loaded r last =>
    if last > s.nidMax then some (put { t with pc := .above r })
    else some (put { t.writeOnode r with pc := .ready })
  | .above r => some (put { t with pc := .raising r (wrap (s.nidLast + 1024)) })
  | .raising r v => some { put { t with pc := .raised r } with nidMax := v }
  | .raised r => some (put { t.writeOnode r with nidMax := some s.nidMax, pc := .ready })

/-- What a step does, if the collection can take it. -/
def step [Inhabited Obj] (s : Store Obj Coll) : Act Obj Coll → Option (Store Obj Coll)
  | .begin c =>
    match (s.colls c).txc with
    | some _ => none
    | none => some (s.setColl c { s.colls c with txc := some (⟨[], none, .ready⟩, []) })
  | .touch c o =>
    match (s.colls c).txc with
    | some (⟨onodes, nidMax, .ready⟩, rm) =>
      match (s.colls c).getOnode s.kv o true with
      | none => none
      | some (r, k) =>
        if (k.heap r).nid = 0 then
          let nid := wrap (s.nidLast + 1)
          some { s.setColl c { k with
            heap := Function.update k.heap r ⟨(k.heap r).oid, nid⟩
            txc := some (⟨onodes, nidMax, .numbered r⟩, rm) } with nidLast := nid }
        else some (s.setColl c { k with
          txc := some (Thread.writeOnode ⟨onodes, nidMax, .ready⟩ r, rm) })
    | _ => none
  | .next c =>
    match (s.colls c).txc with
    | none => none
    | some (t, rm) => stepNext s c t rm
  | .change c o =>
    match (s.colls c).txc with
    | some (⟨onodes, nidMax, .ready⟩, rm) =>
      match (s.colls c).getOnode s.kv o false with
      | none => some s
      | some (r, k) => some (s.setColl c { k with
          txc := some (Thread.writeOnode ⟨onodes, nidMax, .ready⟩ r, rm) })
    | _ => none
  | .remove c o =>
    match (s.colls c).txc with
    | some (⟨onodes, nidMax, .ready⟩, rm) =>
      match (s.colls c).getOnode s.kv o false with
      | none => some s
      | some (r, k) => some (s.setColl c { k with
          heap := Function.update k.heap r ⟨(k.heap r).oid, 0⟩
          txc := some (⟨onodes.filter (· ≠ r), nidMax, .ready⟩, rm ++ [(k.heap r).oid]) })
    | _ => none
  | .read c o =>
    match (s.colls c).getOnode s.kv o false with
    | none => some s
    | some (_, k) => some (s.setColl c k)
  | .evict c o =>
    some (s.setColl c { s.colls c with cache := Function.update (s.colls c).cache o none })
  | .queue c =>
    match (s.colls c).txc with
    | some (⟨onodes, nidMax, .ready⟩, rm) =>
      let sets := onodes.map fun r => KvOp.set ((s.colls c).heap r).oid ((s.colls c).heap r).nid
      some (s.setColl c { s.colls c with
        txc := none
        pending := (s.colls c).pending ++ [⟨rm.map .rmkey ++ sets, nidMax⟩] })
    | _ => none
  | .commit c =>
    match (s.colls c).pending with
    | [] => none
    | b :: bs => some { s.setColl c { s.colls c with pending := bs } with
        kv := b.ops.foldl KvOp.apply s.kv
        kvNidMax := b.nidMax.getD s.kvNidMax }
  | .crash => some
      { nidLast := s.kvNidMax
        nidMax := s.kvNidMax
        colls := fun _ => .fresh
        kv := s.kv
        kvNidMax := s.kvNidMax }

/-- The store after `mkfs` and the first mount. -/
def mkfs [Inhabited Obj] : Store Obj Coll where
  nidLast := 0
  nidMax := 0
  colls _ := .fresh
  kv _ := none
  kvNidMax := 0

/-! ## Who has an id -/

/-- A collection has an object with the id, in memory or on its way to the KV store. -/
def Collection.Names (k : Collection Obj) (o : Obj) (n : ℕ) : Prop :=
  (∃ r, r < k.nextRef ∧ k.heap r = ⟨o, n⟩ ∧ n ≠ 0) ∨ ∃ b ∈ k.pending, KvOp.set o n ∈ b.ops

/-- There is an object with the id. -/
def Store.Names (s : Store Obj Coll) (o : Obj) (n : ℕ) : Prop :=
  (∃ c, (s.colls c).Names o n) ∨ s.kv o = some n

/-- The onode that a thread works on. -/
def Pc.ref : Pc → Option ℕ
  | .ready => none
  | .numbered r => some r
  | .loaded r _ => some r
  | .above r => some r
  | .raising r _ => some r
  | .raised r => some r

/-- The addresses in use are those of onodes, and an onode that is going to be written has an
id. -/
structure Collection.Wf (k : Collection Obj) : Prop where
  /-- The cache has onodes. -/
  cache : ∀ o r, k.cache o = some r → r < k.nextRef
  /-- The transaction has onodes with ids. -/
  txc : ∀ t rm, k.txc = some (t, rm) → ∀ r, r ∈ t.onodes ∨ t.pc.ref = some r →
    r < k.nextRef ∧ (k.heap r).nid ≠ 0

/-- What the steps keep. -/
structure Store.Inv (s : Store Obj Coll) : Prop where
  /-- Every id was given out. -/
  bound : ∀ o n, s.Names o n → 0 < n ∧ n ≤ s.nidLast
  /-- No two objects have the same id. -/
  unique : ∀ o o' n, s.Names o n → s.Names o' n → o = o'
  /-- The collections are well formed. -/
  wf : ∀ c, (s.colls c).Wf
  /-- The stored ceiling is above the stored ids. -/
  covered : ∀ o n, s.kv o = some n → n ≤ s.kvNidMax

omit [DecidableEq Obj] in
/-- What is named when one collection has changed. -/
theorem Store.names_setColl {s : Store Obj Coll} {c : Coll} {k : Collection Obj} {o : Obj} {n : ℕ}
    (h : ∃ c', ((s.setColl c k).colls c').Names o n) : k.Names o n ∨ s.Names o n := by
  obtain ⟨c', hc⟩ := h
  by_cases heq : c' = c
  · subst heq
    rw [Store.setColl] at hc
    simp only [Function.update_self] at hc
    exact .inl hc
  · rw [Store.setColl] at hc
    simp only [Function.update_of_ne heq] at hc
    exact .inr (.inl ⟨c', hc⟩)

omit [DecidableEq Obj] in
/-- A store stays well formed if the collection is. -/
theorem Store.wf_setColl {s : Store Obj Coll} (h : ∀ c, (s.colls c).Wf) {c : Coll}
    {k : Collection Obj} (hwf : k.Wf) (c' : Coll) : ((s.setColl c k).colls c').Wf := by
  by_cases heq : c' = c
  · subst heq
    rw [Store.setColl]
    simpa only [Function.update_self] using hwf
  · rw [Store.setColl]
    simpa only [Function.update_of_ne heq] using h c'

omit [DecidableEq Obj] in
/-- A collection that names no more than before. -/
theorem Store.Inv.setColl {s : Store Obj Coll} (h : s.Inv) {c : Coll} {k : Collection Obj}
    (hk : ∀ o n, k.Names o n → s.Names o n) (hwf : k.Wf) : (s.setColl c k).Inv := by
  have hnames : ∀ o n, (s.setColl c k).Names o n → s.Names o n := by
    rintro o n (hc | hkv)
    · exact (Store.names_setColl hc).elim (hk o n) id
    · exact .inr hkv
  exact ⟨fun o n hn => h.bound o n (hnames o n hn),
    fun o o' n hn hn' => h.unique o o' n (hnames o n hn) (hnames o' n hn'),
    Store.wf_setColl h.wf hwf, h.covered⟩

/-- A new onode, in the cache. -/
theorem Collection.add_spec {k : Collection Obj} (hwf : k.Wf) (o : Obj) (nid : ℕ) :
    (k.add o nid).2.Wf ∧ ∀ o' n, (k.add o nid).2.Names o' n →
      k.Names o' n ∨ (o' = o ∧ n = nid ∧ n ≠ 0) := by
  have hheap : ∀ r, r ≠ k.nextRef → (k.add o nid).2.heap r = k.heap r :=
    fun r hr => Function.update_of_ne hr _ _
  refine ⟨⟨fun o' r hr => ?_, fun t rm ht r hr => ?_⟩, ?_⟩
  · by_cases ho : o' = o
    · subst ho
      rw [Collection.add] at hr
      simp only [Function.update_self, Option.some.injEq] at hr
      exact hr ▸ Nat.lt_succ_self _
    · rw [Collection.add] at hr
      simp only [Function.update_of_ne ho] at hr
      exact (hwf.cache o' r hr).trans (Nat.lt_succ_self _)
  · obtain ⟨hlt, hnid⟩ := hwf.txc t rm ht r hr
    rw [hheap r hlt.ne]
    exact ⟨hlt.trans (Nat.lt_succ_self _), hnid⟩
  · rintro o' n (⟨r, hr, hval, hn⟩ | hq)
    · by_cases heq : r = k.nextRef
      · subst heq
        have hnew : (⟨o, nid⟩ : Onode Obj) = ⟨o', n⟩ :=
          (Function.update_self k.nextRef _ k.heap).symm.trans hval
        obtain ⟨rfl, rfl⟩ := Onode.mk.inj hnew
        exact .inr ⟨rfl, rfl, hn⟩
      · rw [hheap r heq] at hval
        have hlt : r < k.nextRef := lt_of_le_of_ne (Nat.lt_succ_iff.mp hr) heq
        exact .inl (.inl ⟨r, hlt, hval, hn⟩)
    · exact .inl (.inr hq)

/-- What `get_onode` finds. -/
theorem Collection.getOnode_spec {k k' : Collection Obj} {kv : Obj → Option ℕ} {o : Obj}
    {create : Bool} {r : ℕ} (hwf : k.Wf) (hget : k.getOnode kv o create = some (r, k')) :
    r < k'.nextRef ∧ k'.Wf ∧ k'.txc = k.txc ∧
      (∀ o n, k'.Names o n → k.Names o n ∨ kv o = some n) ∧
      ((k'.heap r).nid = 0 → create = true ∨ kv o = some 0 ∨
        ∃ r, k.cache o = some r ∧ (k.heap r).nid = 0) := by
  have hself : ∀ nid, ((k.add o nid).2.heap (k.add o nid).1) = ⟨o, nid⟩ :=
    fun nid => Function.update_self _ _ _
  unfold Collection.getOnode at hget
  cases hc : k.cache o with
  | some r' =>
    rw [hc] at hget
    obtain ⟨rfl, rfl⟩ := Prod.mk.inj (Option.some.inj hget)
    exact ⟨hwf.cache o _ hc, hwf, rfl, fun _ _ => .inl, fun hz => .inr (.inr ⟨_, rfl, hz⟩)⟩
  | none =>
    rw [hc] at hget
    cases hkv : kv o with
    | some nid =>
      rw [hkv] at hget
      obtain ⟨rfl, rfl⟩ := Prod.mk.inj (Option.some.inj hget)
      obtain ⟨hwf', hnames⟩ := Collection.add_spec hwf o nid
      refine ⟨Nat.lt_succ_self _, hwf', rfl, fun o' n hn => ?_, fun hz => .inr (.inl ?_)⟩
      · rcases hnames o' n hn with hn | ⟨rfl, rfl, -⟩
        · exact .inl hn
        · exact .inr hkv
      · rw [← hz]
        exact congrArg some (congrArg Onode.nid (hself nid)).symm
    | none =>
      rw [hkv] at hget
      dsimp only at hget
      split_ifs at hget with hcreate
      obtain ⟨rfl, rfl⟩ := Prod.mk.inj (Option.some.inj hget)
      obtain ⟨hwf', hnames⟩ := Collection.add_spec hwf o 0
      refine ⟨Nat.lt_succ_self _, hwf', rfl, fun o' n hn => ?_, fun _ => .inl hcreate⟩
      exact .inl ((hnames o' n hn).resolve_right fun h => h.2.2 h.2.1)

/-! ## The steps keep the ids apart -/

omit [DecidableEq Obj] in
/-- The transaction of a collection changes, and with it no onode. -/
theorem Collection.Wf.setTxc {k : Collection Obj} (hwf : k.Wf) {txc : Option (Thread × List Obj)}
    (h : ∀ t rm, txc = some (t, rm) → ∀ r, r ∈ t.onodes ∨ t.pc.ref = some r →
      r < k.nextRef ∧ (k.heap r).nid ≠ 0) : ({ k with txc := txc } : Collection Obj).Wf :=
  ⟨hwf.cache, h⟩

/-- A written onode is one more of the transaction. -/
theorem Thread.mem_writeOnode {t : Thread} {r r' : ℕ} (h : r' ∈ (t.writeOnode r).onodes) :
    r' ∈ t.onodes ∨ r' = r := by
  unfold Thread.writeOnode at h
  dsimp only at h
  split_ifs at h with hr
  · exact .inl h
  · simpa using h

omit [DecidableEq Obj] in
/-- An onode is written. -/
theorem Collection.Wf.writeOnode {k : Collection Obj} (hwf : k.Wf) {t : Thread} {rm : List Obj}
    {r : ℕ} {nidMax : Option ℕ} (ht : ∃ t' rm', k.txc = some (t', rm') ∧ t'.onodes = t.onodes)
    (hr : r < k.nextRef ∧ (k.heap r).nid ≠ 0) :
    ({ k with txc := some ({ t.writeOnode r with nidMax := nidMax, pc := .ready }, rm) } :
      Collection Obj).Wf := by
  refine hwf.setTxc fun t1 rm1 h1 r1 hr1 => ?_
  obtain ⟨rfl, rfl⟩ := Prod.mk.inj (Option.some.inj h1)
  obtain ⟨t', rm', htxc, honodes⟩ := ht
  rcases hr1 with hmem | href
  · rcases Thread.mem_writeOnode hmem with hmem | rfl
    · exact hwf.txc t' rm' htxc r1 (.inl (honodes ▸ hmem))
    · exact hr
  · exact absurd href (by simp [Pc.ref])

/-- The condition on a step: the counter does not overflow; no operation that does not create its
object finds the removed onode of it in the cache; and a commit leaves the store with a ceiling
that is not below a stored id. -/
def Ok (s : Store Obj Coll) : Act Obj Coll → Prop
  | .touch _ _ => s.nidLast + 1 < 0x10000000000000000
  | .change c o => ∀ r ∈ (s.colls c).cache o, ((s.colls c).heap r).nid ≠ 0
  | .commit c => ∀ b ∈ (s.colls c).pending.head?, ∀ o, ∀ n ∈ b.ops.foldl KvOp.apply s.kv o,
      n ≤ b.nidMax.getD s.kvNidMax
  | _ => True

section Steps

variable {s s' : Store Obj Coll} (h : s.Inv)

include h

omit [DecidableEq Coll] in
/-- What the collection has found with `get_onode` is named already. -/
theorem names_of_getOnode {c : Coll} {o : Obj} {create : Bool} {r : ℕ} {k : Collection Obj}
    (hget : (s.colls c).getOnode s.kv o create = some (r, k)) :
    ∀ o n, k.Names o n → s.Names o n := by
  intro o n hn
  rcases (Collection.getOnode_spec (h.wf c) hget).2.2.2.1 o n hn with hn | hn
  · exact .inl ⟨c, hn⟩
  · exact .inr hn

omit [DecidableEq Obj] [DecidableEq Coll] in
/-- No stored onode is without an id. -/
theorem kv_ne_zero (o : Obj) : s.kv o ≠ some 0 :=
  fun hz => absurd (h.bound o 0 (.inr hz)).1 (lt_irrefl 0)

omit [DecidableEq Obj] in
/-- The accesses of the counters in `_assign_nid`. -/
theorem inv_stepNext {c : Coll} {t : Thread} {rm : List Obj}
    (ht : (s.colls c).txc = some (t, rm)) (hstep : stepNext s c t rm = some s') : s'.Inv := by
  have hwf := h.wf c
  -- A step that keeps the onodes, and the one that it works on.
  have hput : ∀ t' : Thread, t'.onodes = t.onodes → t'.pc.ref = t.pc.ref →
      (s.setColl c { s.colls c with txc := some (t', rm) }).Inv := by
    intro t' honodes href
    refine h.setColl (fun o n hn => .inl ⟨c, hn⟩) (hwf.setTxc fun t1 rm1 h1 r hr => ?_)
    obtain ⟨rfl, rfl⟩ := Prod.mk.inj (Option.some.inj h1)
    rw [honodes, href] at hr
    exact hwf.txc t rm ht r hr
  -- The step that writes the onode.
  have hwrite : ∀ (r : ℕ) (nidMax : Option ℕ), t.pc.ref = some r →
      (s.setColl c { s.colls c with
        txc := some ({ t.writeOnode r with nidMax := nidMax, pc := .ready }, rm) }).Inv := by
    intro r nidMax href
    exact h.setColl (fun o n hn => .inl ⟨c, hn⟩)
      (hwf.writeOnode ⟨t, rm, ht, rfl⟩ (hwf.txc t rm ht r (.inr href)))
  unfold stepNext at hstep
  cases hpc : t.pc with
  | ready => simp [hpc] at hstep
  | numbered r =>
    simp only [hpc, Option.some.injEq] at hstep
    exact hstep ▸ hput _ rfl (by rw [hpc]; rfl)
  | loaded r last =>
    simp only [hpc] at hstep
    split_ifs at hstep
    · exact Option.some.inj hstep ▸ hput _ rfl (by rw [hpc]; rfl)
    · exact Option.some.inj hstep ▸ hwrite r t.nidMax (by rw [hpc]; rfl)
  | above r =>
    simp only [hpc, Option.some.injEq] at hstep
    exact hstep ▸ hput _ rfl (by rw [hpc]; rfl)
  | raising r v =>
    simp only [hpc, Option.some.injEq] at hstep
    have hinv := hput { t with pc := .raised r } rfl (by rw [hpc]; rfl)
    exact hstep ▸ ⟨hinv.bound, hinv.unique, hinv.wf, hinv.covered⟩
  | raised r =>
    simp only [hpc, Option.some.injEq] at hstep
    exact hstep ▸ hwrite r _ (by rw [hpc]; rfl)

/-- An onode without an id gets a new one. -/
theorem inv_number {c : Coll} {k : Collection Obj} {r : ℕ} {txc : Option (Thread × List Obj)}
    (hk : ∀ o n, k.Names o n → s.Names o n) (hwf : k.Wf) (hr : r < k.nextRef)
    (hlt : s.nidLast + 1 < 0x10000000000000000)
    (htxc : ∀ t rm, txc = some (t, rm) → ∀ r', r' ∈ t.onodes ∨ t.pc.ref = some r' →
      r' = r ∨ (r' < k.nextRef ∧ (k.heap r').nid ≠ 0)) :
    ({ s.setColl c { k with
        heap := Function.update k.heap r ⟨(k.heap r).oid, wrap (s.nidLast + 1)⟩
        txc := txc } with nidLast := wrap (s.nidLast + 1) } : Store Obj Coll).Inv := by
  obtain ⟨n0, hn0⟩ : ∃ n0, n0 = wrap (s.nidLast + 1) := ⟨_, rfl⟩
  have hval : n0 = s.nidLast + 1 := hn0.trans (Nat.mod_eq_of_lt hlt)
  have hne0 : n0 ≠ 0 := by omega
  rw [← hn0]
  obtain ⟨k', hk'⟩ : ∃ k' : Collection Obj, k' = { k with
    heap := Function.update k.heap r ⟨(k.heap r).oid, n0⟩, txc := txc } := ⟨_, rfl⟩
  rw [← hk']
  -- The new id, or one that was there.
  have hkn : ∀ o n, k'.Names o n → s.Names o n ∨ (o = (k.heap r).oid ∧ n = n0) := by
    subst hk'
    rintro o n (⟨r', hr', hheap, hn⟩ | hq)
    · by_cases heq : r' = r
      · subst heq
        dsimp only at hheap
        rw [Function.update_self] at hheap
        obtain ⟨rfl, rfl⟩ := Onode.mk.inj hheap
        exact .inr ⟨rfl, rfl⟩
      · dsimp only at hheap
        rw [Function.update_of_ne heq] at hheap
        exact .inl (hk o n (.inl ⟨r', hr', hheap, hn⟩))
    · exact .inl (hk o n (.inr hq))
  have hnames : ∀ o n, (s.setColl c k').Names o n → s.Names o n ∨ (o = (k.heap r).oid ∧ n = n0) := by
    rintro o n (hc | hkv)
    · exact (Store.names_setColl hc).elim (hkn o n) .inl
    · exact .inl (.inr hkv)
  have hwf' : k'.Wf := by
    subst hk'
    refine ⟨hwf.cache, fun t rm ht r' hr' => ?_⟩
    by_cases heq : r' = r
    · subst heq
      dsimp only
      rw [Function.update_self]
      exact ⟨hr, hne0⟩
    · dsimp only
      rw [Function.update_of_ne heq]
      exact (htxc t rm ht r' hr').resolve_left heq
  refine ⟨fun o n hn => ?_, fun o o' n hn hn' => ?_, Store.wf_setColl h.wf hwf', h.covered⟩
  · rcases hnames o n hn with hn | ⟨-, rfl⟩
    · have hb := h.bound o n hn
      exact ⟨hb.1, by show n ≤ n0; omega⟩
    · exact ⟨by omega, le_rfl⟩
  · rcases hnames o n hn with hn | ⟨rfl, rfl⟩ <;> rcases hnames o' _ hn' with hn' | ⟨rfl, h1⟩
    · exact h.unique o o' n hn hn'
    · have hb := h.bound o n hn
      omega
    · have hb := h.bound o' _ hn'
      omega
    · rfl

omit [DecidableEq Obj] in
/-- An onode loses its id, and is written no more. -/
theorem inv_remove {c : Coll} {k : Collection Obj} {r : ℕ} {t : Thread} {rm : List Obj}
    {txc : Thread × List Obj} (hk : ∀ o n, k.Names o n → s.Names o n) (hwf : k.Wf)
    (ht : k.txc = some (t, rm)) (hpc : txc.1.pc = .ready)
    (honodes : ∀ r' ∈ txc.1.onodes, r' ≠ r ∧ r' ∈ t.onodes) :
    (s.setColl c { k with
      heap := Function.update k.heap r ⟨(k.heap r).oid, 0⟩
      txc := some txc }).Inv := by
  refine h.setColl ?_ ⟨hwf.cache, fun t1 rm1 h1 r' hr' => ?_⟩
  · rintro o n (⟨r', hr', hheap, hn⟩ | hq)
    · by_cases heq : r' = r
      · subst heq
        dsimp only at hheap
        rw [Function.update_self] at hheap
        exact absurd (Onode.mk.inj hheap).2.symm hn
      · dsimp only at hheap
        rw [Function.update_of_ne heq] at hheap
        exact hk o n (.inl ⟨r', hr', hheap, hn⟩)
    · exact hk o n (.inr hq)
  · obtain rfl := Option.some.inj h1
    rcases hr' with hr' | href
    · obtain ⟨hne, hmem⟩ := honodes r' hr'
      dsimp only
      rw [Function.update_of_ne hne]
      exact hwf.txc t rm ht r' (.inl hmem)
    · rw [hpc] at href
      exact absurd href (by simp [Pc.ref])

omit [DecidableEq Obj] in
/-- The KV transaction has the ids of the onodes that are written. -/
theorem inv_queue {c : Coll} {t : Thread} {rm : List Obj} {nidMax : Option ℕ}
    (ht : (s.colls c).txc = some (t, rm)) :
    (s.setColl c { s.colls c with
      txc := none
      pending := (s.colls c).pending ++ [⟨rm.map .rmkey ++ t.onodes.map fun r =>
        KvOp.set ((s.colls c).heap r).oid ((s.colls c).heap r).nid, nidMax⟩] }).Inv := by
  have hwf := h.wf c
  refine h.setColl ?_ ⟨hwf.cache, fun t rm h1 => absurd h1 (by simp)⟩
  rintro o n (hm | ⟨b, hb, hset⟩)
  · exact .inl ⟨c, .inl hm⟩
  · rcases List.mem_append.mp hb with hb | hb
    · exact .inl ⟨c, .inr ⟨b, hb, hset⟩⟩
    · obtain rfl := List.mem_singleton.mp hb
      rcases List.mem_append.mp hset with hset | hset
      · obtain ⟨o', -, heq⟩ := List.mem_map.mp hset
        exact absurd heq (by simp)
      · obtain ⟨r, hr, heq⟩ := List.mem_map.mp hset
        obtain ⟨rfl, rfl⟩ := KvOp.set.inj heq
        obtain ⟨hlt, hnid⟩ := hwf.txc t rm ht r (.inl hr)
        exact .inl ⟨c, .inl ⟨r, hlt, rfl, hnid⟩⟩

end Steps

omit [DecidableEq Coll] in
/-- What is stored after some operations was stored before or is set by one of them. -/
theorem kv_foldl_apply {kv : Obj → Option ℕ} {ops : List (KvOp Obj)} {o : Obj} {n : ℕ}
    (h : ops.foldl KvOp.apply kv o = some n) : kv o = some n ∨ KvOp.set o n ∈ ops := by
  induction ops generalizing kv with
  | nil => exact .inl h
  | cons op ops ih =>
    rcases ih h with h | h
    · cases op with
      | set o' n' =>
        by_cases heq : o = o'
        · subst heq
          rw [KvOp.apply, Function.update_self, Option.some.injEq] at h
          exact .inr (h ▸ List.mem_cons_self)
        · rw [KvOp.apply, Function.update_of_ne heq] at h
          exact .inl h
      | rmkey o' =>
        by_cases heq : o = o'
        · subst heq
          rw [KvOp.apply, Function.update_self] at h
          exact absurd h (by simp)
        · rw [KvOp.apply, Function.update_of_ne heq] at h
          exact .inl h
    · exact .inr (List.mem_cons_of_mem _ h)

omit [DecidableEq Obj] in
/-- A collection with nothing in memory names nothing. -/
theorem Collection.fresh_wf [Inhabited Obj] : (Collection.fresh : Collection Obj).Wf :=
  ⟨fun _ _ h => absurd h (by simp [Collection.fresh]),
    fun _ _ h => absurd h (by simp [Collection.fresh])⟩

omit [DecidableEq Obj] in
/-- A fresh collection names no node. -/
theorem Collection.not_names_fresh [Inhabited Obj] {o : Obj} {n : ℕ} :
    ¬(Collection.fresh : Collection Obj).Names o n := by
  rintro (⟨r, hr, -⟩ | ⟨b, hb, -⟩)
  · exact absurd hr (Nat.not_lt_zero r)
  · exact absurd hb List.not_mem_nil

variable [Inhabited Obj]

omit [DecidableEq Obj] [DecidableEq Coll] in
/-- The new store keeps the invariant. -/
theorem inv_mkfs : (mkfs : Store Obj Coll).Inv := by
  have hno : ∀ o n, ¬(mkfs : Store Obj Coll).Names o n := by
    rintro o n (⟨c, hc⟩ | hkv)
    · exact Collection.not_names_fresh hc
    · exact absurd hkv (by simp [mkfs])
  exact ⟨fun o n h => absurd h (hno o n), fun o _ n h => absurd h (hno o n),
    fun _ => Collection.fresh_wf, fun o n h => absurd (.inr h) (hno o n)⟩

section Calls

variable {s s' : Store Obj Coll} (h : s.Inv)

include h

/-- A touch keeps the invariant, if the next number fits. -/
theorem inv_touch {c : Coll} {o : Obj} (hok : s.nidLast + 1 < 0x10000000000000000)
    (hstep : step s (.touch c o) = some s') : s'.Inv := by
  unfold step at hstep
  cases htxc : (s.colls c).txc with
  | none => simp [htxc] at hstep
  | some p =>
    obtain ⟨⟨onodes, nidMax, pc⟩, rm⟩ := p
    cases pc with
    | numbered | loaded | above | raising | raised => simp [htxc] at hstep
    | ready =>
      simp only [htxc] at hstep
      cases hget : (s.colls c).getOnode s.kv o true with
      | none => simp [hget] at hstep
      | some q =>
        obtain ⟨r, k⟩ := q
        obtain ⟨hr, hwf, htk, -, -⟩ := Collection.getOnode_spec (h.wf c) hget
        have hnames := names_of_getOnode h hget
        rw [htxc] at htk
        simp only [hget] at hstep
        split_ifs at hstep with hz
        · refine Option.some.inj hstep ▸ inv_number h hnames hwf hr hok fun t rm' ht r' hr' => ?_
          obtain ⟨rfl, rfl⟩ := Prod.mk.inj (Option.some.inj ht)
          rcases hr' with hr' | hr'
          · exact .inr (hwf.txc _ _ htk r' (.inl hr'))
          · exact .inl (Option.some.inj hr').symm
        · exact Option.some.inj hstep ▸ h.setColl hnames (hwf.writeOnode (t := ⟨onodes, nidMax, .ready⟩)
            ⟨_, _, htk, rfl⟩ ⟨hr, hz⟩)

/-- A change keeps the invariant, if its node is numbered. -/
theorem inv_change {c : Coll} {o : Obj}
    (hok : ∀ r ∈ (s.colls c).cache o, ((s.colls c).heap r).nid ≠ 0)
    (hstep : step s (.change c o) = some s') : s'.Inv := by
  unfold step at hstep
  cases htxc : (s.colls c).txc with
  | none => simp [htxc] at hstep
  | some p =>
    obtain ⟨⟨onodes, nidMax, pc⟩, rm⟩ := p
    cases pc with
    | numbered | loaded | above | raising | raised => simp [htxc] at hstep
    | ready =>
      simp only [htxc] at hstep
      cases hget : (s.colls c).getOnode s.kv o false with
      | none =>
        simp only [hget, Option.some.injEq] at hstep
        exact hstep ▸ h
      | some q =>
        obtain ⟨r, k⟩ := q
        obtain ⟨hr, hwf, htk, -, hzero⟩ := Collection.getOnode_spec (h.wf c) hget
        rw [htxc] at htk
        have hnid : (k.heap r).nid ≠ 0 := by
          intro hz
          rcases hzero hz with hc | hc | ⟨r', hr', hz'⟩
          · exact Bool.false_ne_true hc
          · exact kv_ne_zero h o hc
          · exact hok r' hr' hz'
        have hnames := names_of_getOnode h hget
        simp only [hget, Option.some.injEq] at hstep
        exact hstep ▸ h.setColl hnames
          (hwf.writeOnode (t := ⟨onodes, nidMax, .ready⟩) ⟨_, _, htk, rfl⟩ ⟨hr, hnid⟩)

/-- A commit keeps the invariant. -/
theorem inv_commit {c : Coll} (hok : Ok s (.commit c)) (hstep : step s (.commit c) = some s') :
    s'.Inv := by
  unfold step at hstep
  cases hp : (s.colls c).pending with
  | nil => simp [hp] at hstep
  | cons b bs =>
    simp only [hp, Option.some.injEq] at hstep
    subst hstep
    have hcov := hok b (by rw [hp]; rfl)
    have hbatch : ∀ o n, KvOp.set o n ∈ b.ops → s.Names o n :=
      fun o n hset => .inl ⟨c, .inr ⟨b, by rw [hp]; exact List.mem_cons_self, hset⟩⟩
    have hnames : ∀ o n, (∃ c', ((s.setColl c { s.colls c with pending := bs }).colls c').Names o n) ∨
        b.ops.foldl KvOp.apply s.kv o = some n → s.Names o n := by
      rintro o n (hc | hkv)
      · rcases Store.names_setColl hc with (hm | ⟨b', hb', hset⟩) | hn
        · exact .inl ⟨c, .inl hm⟩
        · exact .inl ⟨c, .inr ⟨b', by rw [hp]; exact List.mem_cons_of_mem _ hb', hset⟩⟩
        · exact hn
      · exact (kv_foldl_apply hkv).elim .inr (hbatch o n)
    have hwf : ({ s.colls c with pending := bs } : Collection Obj).Wf :=
      ⟨(h.wf c).cache, (h.wf c).txc⟩
    exact ⟨fun o n hn => h.bound o n (hnames o n hn),
      fun o o' n hn hn' => h.unique o o' n (hnames o n hn) (hnames o' n hn'),
      Store.wf_setColl h.wf hwf, fun o n hn => hcov o n hn⟩

/-- A step that meets the condition keeps the ids apart. -/
theorem inv_step {a : Act Obj Coll} (hok : Ok s a) (hstep : step s a = some s') : s'.Inv := by
  -- One case for each action, by the lemma about it where it has one.
  cases a with
  | begin c =>
    unfold step at hstep
    cases htxc : (s.colls c).txc with
    | some p => simp [htxc] at hstep
    | none =>
      simp only [htxc, Option.some.injEq] at hstep
      refine hstep ▸ h.setColl (fun o n hn => .inl ⟨c, hn⟩) ((h.wf c).setTxc fun t rm ht r hr => ?_)
      obtain ⟨rfl, rfl⟩ := Prod.mk.inj (Option.some.inj ht)
      rcases hr with hr | hr
      · exact absurd hr List.not_mem_nil
      · exact absurd hr (by simp [Pc.ref])
  | touch c o => exact inv_touch h hok hstep
  | next c =>
    unfold step at hstep
    cases htxc : (s.colls c).txc with
    | none => simp [htxc] at hstep
    | some p =>
      obtain ⟨t, rm⟩ := p
      simp only [htxc] at hstep
      exact inv_stepNext h htxc hstep
  | change c o => exact inv_change h hok hstep
  | remove c o =>
    unfold step at hstep
    cases htxc : (s.colls c).txc with
    | none => simp [htxc] at hstep
    | some p =>
      obtain ⟨⟨onodes, nidMax, pc⟩, rm⟩ := p
      cases pc with
      | numbered | loaded | above | raising | raised => simp [htxc] at hstep
      | ready =>
        simp only [htxc] at hstep
        cases hget : (s.colls c).getOnode s.kv o false with
        | none =>
          simp only [hget, Option.some.injEq] at hstep
          exact hstep ▸ h
        | some q =>
          obtain ⟨r, k⟩ := q
          obtain ⟨-, hwf, htk, -, -⟩ := Collection.getOnode_spec (h.wf c) hget
          have hnames := names_of_getOnode h hget
          rw [htxc] at htk
          simp only [hget, Option.some.injEq] at hstep
          refine hstep ▸ inv_remove h hnames hwf htk rfl fun r' hr' => ?_
          have hf := List.mem_filter.mp hr'
          exact ⟨of_decide_eq_true hf.2, hf.1⟩
  | read c o =>
    unfold step at hstep
    cases hget : (s.colls c).getOnode s.kv o false with
    | none =>
      simp only [hget, Option.some.injEq] at hstep
      exact hstep ▸ h
    | some q =>
      obtain ⟨r, k⟩ := q
      simp only [hget, Option.some.injEq] at hstep
      exact hstep ▸ h.setColl (names_of_getOnode h hget)
        (Collection.getOnode_spec (h.wf c) hget).2.1
  | evict c o =>
    refine Option.some.inj hstep ▸ h.setColl (fun o n hn => .inl ⟨c, hn⟩) ⟨fun o' r hr => ?_,
      (h.wf c).txc⟩
    dsimp only at hr
    by_cases heq : o' = o
    · subst heq
      rw [Function.update_self] at hr
      exact absurd hr (by simp)
    · rw [Function.update_of_ne heq] at hr
      exact (h.wf c).cache o' r hr
  | queue c =>
    unfold step at hstep
    cases htxc : (s.colls c).txc with
    | none => simp [htxc] at hstep
    | some p =>
      obtain ⟨⟨onodes, nidMax, pc⟩, rm⟩ := p
      cases pc with
      | numbered | loaded | above | raising | raised => simp [htxc] at hstep
      | ready =>
        simp only [htxc] at hstep
        exact Option.some.inj hstep ▸ inv_queue h htxc
  | commit c => exact inv_commit h hok hstep
  -- A crash loses the caches, so all names are those of the store.
  | crash =>
    have hstored : ∀ o n, (∃ _ : Coll, (Collection.fresh : Collection Obj).Names o n) ∨
        s.kv o = some n → s.kv o = some n := by
      rintro o n (⟨-, hc⟩ | hkv)
      · exact absurd hc Collection.not_names_fresh
      · exact hkv
    refine Option.some.inj hstep ▸ ⟨fun o n hn => ?_, fun o o' n hn hn' => ?_,
      fun _ => Collection.fresh_wf, h.covered⟩
    · have hkv := hstored o n hn
      exact ⟨(h.bound o n (.inr hkv)).1, h.covered o n hkv⟩
    · exact h.unique o o' n (.inr (hstored o n hn)) (.inr (hstored o' n hn'))

end Calls

/-- In every run whose steps meet the condition, no two objects ever have the same id: neither two
that are stored, nor one that is stored and one that was created since, in memory or on its way to
the KV store. -/
theorem nid_unique (acts : List (Act Obj Coll)) (s : Store Obj Coll)
    (hok : Runs.Meets step Ok mkfs acts) (hrun : Runs.exec step mkfs acts = some s) :
    ∀ o o' n, s.Names o n → s.Names o' n → o = o' := by
  have hinv : s.Inv :=
    Runs.exec_invariant (fun _ _ _ h hok hstep => inv_step h hok hstep) acts mkfs s inv_mkfs hok hrun
  exact hinv.unique

instance [Fintype Obj] (s : Store Obj Coll) : (a : Act Obj Coll) → Decidable (Ok s a)
  | .touch _ _ => inferInstanceAs (Decidable (_ < _))
  | .change c o => inferInstanceAs (Decidable (∀ r ∈ (s.colls c).cache o, _ ≠ _))
  | .commit c => inferInstanceAs (Decidable (∀ b ∈ (s.colls c).pending.head?, ∀ o : Obj,
      ∀ n ∈ b.ops.foldl KvOp.apply s.kv o, n ≤ b.nidMax.getD s.kvNidMax))
  | .begin _ => isTrue trivial
  | .next _ => isTrue trivial
  | .remove _ _ => isTrue trivial
  | .read _ _ => isTrue trivial
  | .evict _ _ => isTrue trivial
  | .queue _ => isTrue trivial
  | .crash => isTrue trivial

/-- A thread creates an object and takes all steps of `_assign_nid`, with the ceiling raised. -/
def crossing (c : Bool) (o : Fin 4) : List (Act (Fin 4) Bool) :=
  [.touch c o, .next c, .next c, .next c, .next c, .next c]

/-- The same, below the ceiling. -/
def below (c : Bool) (o : Fin 4) : List (Act (Fin 4) Bool) := [.touch c o, .next c, .next c]

/-- The transaction that raises the ceiling is committed first. -/
def inTurn : List (Act (Fin 4) Bool) :=
  .begin false :: crossing false 0 ++ .begin true :: below true 1 ++
    [.queue false, .queue true, .commit false, .commit true, .crash] ++
    .begin false :: crossing false 2 ++ below false 3 ++ [.queue false, .commit false]

/-- The four objects are stored, and no two of them with the same id. -/
theorem nid_unique_inTurn : ∃ s : Store (Fin 4) Bool, Runs.exec step mkfs inTurn = some s ∧
    (∀ o, (s.kv o).isSome = true) ∧ ∀ o o' n, s.Names o n → s.Names o' n → o = o' := by
  cases hrun : Runs.exec step (mkfs : Store (Fin 4) Bool) inTurn with
  | none =>
    have hsome : (Runs.exec step (mkfs : Store (Fin 4) Bool) inTurn).isSome = true := by
      decide +kernel
    rw [hrun] at hsome
    exact absurd hsome (by simp)
  | some s =>
    have hkv : (Runs.exec step (mkfs : Store (Fin 4) Bool) inTurn).all
        fun s => decide (∀ o, (s.kv o).isSome = true) := by
      decide +kernel
    rw [hrun] at hkv
    exact ⟨s, rfl, of_decide_eq_true hkv, nid_unique inTurn s (by decide +kernel) hrun⟩

/-- One collection raises the ceiling, and the transaction of the other is committed before it.
After the crash the ids begin again from zero. -/
def overtaken : List (Act (Fin 4) Bool) :=
  .begin false :: crossing false 0 ++ .begin true :: below true 1 ++
    [.queue false, .queue true, .commit true, .crash] ++
    .begin false :: crossing false 2 ++ below false 3 ++ [.queue false, .commit false]

/-- Two stored objects with the same id: one from before the crash and one from after it. And two
removed objects that `zero` has written again, both without an id. -/
theorem overtaken_shares_nid :
    (Runs.exec step mkfs overtaken).map (fun s => (s.kv 1, s.kv 3)) = some (some 2, some 2) ∧
    (Runs.exec step mkfs (.begin false :: crossing false 0 ++ below false 1 ++
        [.remove false 0, .remove false 1, .change false 0, .change false 1, .queue false,
          .commit false])).map (fun s => (s.kv 0, s.kv 1)) = some (some 0, some 0) := by
  decide +kernel

end CxxLab.Bluestore.NodeIds
