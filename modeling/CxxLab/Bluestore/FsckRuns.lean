import CxxLab.Bluestore.Fsck

/-!
# What the checker reports and repairs

On a store that transactions have left in order, the checker with a freelist to read always
complains of block 0, which `create` reserves and no object uses, unless nothing is free at all; and
it takes two extents of one blob for an overlap. Of an object whose blob has lost its first piece it
counts an extent behind the counters of the blob. A repair gives block 0 away, and does nothing when
the freelist has no free block.
-/

namespace CxxLab.Bluestore.Fsck

open Common Codec Denc Object Freelist

/-! ## Turning blocks over -/

variable {m : Manager} {n : ℕ}

variable {s : Store}

/-- `decode` gives each extent a blob of its own, with the extents of the one it had. -/
theorem reloaded_extents_blobs (o : Object.Onode) :
    ∀ {α : Type} (f : Option (List Object.PExtent) → α),
      (o.reloaded.extents.map fun e => f ((o.reloaded.blobOf e).map BlobT.extents)) =
        o.extents.map fun e => f ((o.blobOf e).map BlobT.extents) := by
  intro α f
  have h := congrArg (List.map fun b : Option BlobT => f (b.map BlobT.extents)) o.reloaded_blobOf
  rw [List.map_map, List.map_map] at h
  calc (o.reloaded.extents.map fun e => f ((o.reloaded.blobOf e).map BlobT.extents))
    _ = o.extents.map fun e => f (((o.blobOf e).map BlobT.stored).map BlobT.extents) := h
    _ = o.extents.map fun e => f ((o.blobOf e).map BlobT.extents) := by
      simp only [Option.map_map]
      rfl

/-- An onode in bounds is so after `decode`. -/
theorem onodeInBounds_reloaded {dev : Device} {depth : Depth} {o : Object.Onode}
    (h : OnodeInBounds dev depth o) : OnodeInBounds dev depth o.reloaded := by
  have hall : ∀ o : Object.Onode, OnodeInBounds dev depth o ↔ ∀ p ∈ o.extents.map fun e =>
      ∃ es, (o.blobOf e).map BlobT.extents = some es ∧
        ∀ x ∈ es, x.isValid = true → InBounds dev depth x, p := by
    intro o
    simp only [OnodeInBounds, BlobInBounds, List.forall_mem_map, Option.map_eq_some_iff]
    refine forall₂_congr fun e _ => ⟨?_, ?_⟩
    · rintro ⟨b, hb, hin⟩
      exact ⟨_, ⟨b, hb, rfl⟩, hin⟩
    · rintro ⟨-, ⟨b, hb, rfl⟩, hin⟩
      exact ⟨b, hb, hin⟩
  rw [hall] at h ⊢
  rwa [reloaded_extents_blobs o fun x =>
    ∃ es, x = some es ∧ ∀ e ∈ es, e.isValid = true → InBounds dev depth e]

/-- An onode in bounds is a good record. -/
theorem goodRecord_encode {dev : Device} {depth : Depth} (g : GhObject) {o : Object.Onode}
    (h : o.encode.length < 2 ^ 32) (hin : OnodeInBounds dev depth o) :
    GoodRecord dev depth (g.keyEncodeObject, o.encode) := by
  refine .inr ⟨?_, _, _, Object.Onode.decode_encode h, onodeInBounds_reloaded hin⟩
  simp [Object.Onode.encode, putOnodeT, putFrame, putU8]

/-- What is in bounds for a deep check is so for every check. -/
theorem GoodRecord.mono {dev : Device} {r : Str × Str} (h : GoodRecord dev .deep r)
    (depth : Depth) : GoodRecord dev depth r := by
  rcases h with h | ⟨hne, o, rest, hd, hin⟩
  · exact .inl h
  · refine .inr ⟨hne, o, rest, hd, fun e he => ?_⟩
    obtain ⟨b, hb, hbounds⟩ := hin e he
    exact ⟨b, hb, fun x hx hv => ⟨(hbounds x hx hv).1, fun _ => (hbounds x hx hv).2 rfl⟩⟩

/-! ## Runs -/

/-- What a transaction commits: the onodes, and the ranges of `allocated` and `released`. -/
structure Txc where
  /-- The objects that were removed. -/
  removed : List GhObject
  /-- `onodes`. -/
  onodes : List (GhObject × Object.Onode)
  /-- `allocated`. -/
  allocated : List (ℕ × ℕ)
  /-- `released`. -/
  released : List (ℕ × ℕ)

/-- The calls of `_txc_finalize_kv`. -/
def Txc.calls (t : Txc) : List Call :=
  (t.allocated.map fun r => .allocate r.1 r.2) ++ t.released.map fun r => .release r.1 r.2

/-- The keys of the objects after a transaction: those of `_do_remove` and `_txc_write_nodes`. -/
def Txc.writeNodes (t : Txc) (objs : Records) : Records :=
  t.onodes.foldl (fun objs w => objs.set (w.1.keyEncodeObject, w.2.encode))
    (t.removed.foldl (fun objs g => objs.remove (stringKey g.keyEncodeObject)) objs)

/-- `_txc_finalize_kv`, with the store merging what it is given. -/
def finalizeKv (m : Manager) (kv : Bitmap) (calls : List Call) : Option Bitmap :=
  calls.foldlM (fun kv c => (xor m c.offset c.length).map (commit kv)) kv

/-- What changes the keys of a store. -/
inductive Action where
  /-- `create_collection`. -/
  | createCollection (collId : UInt64) (bits : UInt32)
  /-- `remove_collection`. -/
  | removeCollection (collId : UInt64)
  /-- A transaction is committed and finished. -/
  | commit (t : Txc)

namespace Store

/-- The keys after an action; `none` where an assertion fails. -/
def step (s : Store) : Action → Option Store
  | .createCollection collId bits =>
    some { s with colls := s.colls.set (GhObject.keyEncodeU64 collId, putCnode bits) }
  | .removeCollection collId =>
    some { s with colls := s.colls.remove (stringKey (GhObject.keyEncodeU64 collId)) }
  | .commit t => (finalizeKv s.fm s.bitmap t.calls).map fun kv =>
    { s with objs := t.writeNodes s.objs, bitmap := kv }

/-- `mkfs`. -/
def mkfs (dev : Device) (minAlloc : UInt64) : Option Store :=
  (create dev.size.toNat minAlloc.toNat).map fun r =>
    ⟨dev, r.1, SortedList.empty, SortedList.empty, Freelist.commit SortedList.empty r.2⟩

/-- The blocks that are to be free: all but the first, less those that objects use. -/
def free (s : Store) : Set ℕ := {b | 0 < b ∧ b < s.fm.size / s.minAlloc ∧ b ∉ s.marked}

end Store

/-- What a transaction does to the space: it allocates what is free and releases what is not, and
its objects then use what is not free. -/
structure TxcOk (s : Store) (t : Txc) : Prop where
  /-- The onodes have their blobs, within the device. -/
  onodes : ∀ w ∈ t.onodes, w.2.encode.length < 2 ^ 32 ∧ OnodeInBounds s.dev .deep w.2
  /-- The calls allocate free blocks and release used ones. -/
  calls : Runs.Meets (call s.fm) (Ok s.fm) ⟨s.bitmap, s.free⟩ t.calls
  /-- The first block, which no object uses, is not released. -/
  reserved : 0 ∉ t.calls.foldl (Call.apply s.fm) s.free
  /-- The objects use the blocks that are not free, and not the first. -/
  balanced : ∀ kv b, b ∈ Store.marked { s with objs := t.writeNodes s.objs, bitmap := kv } ↔
    0 < b ∧ b < s.fm.size / s.minAlloc ∧ b ∉ t.calls.foldl (Call.apply s.fm) s.free

/-- The condition on an action. -/
def ActionOk (s : Store) : Action → Prop
  | .commit t => TxcOk s t
  | _ => True

/-- A store whose keys are in order, whatever the freelist says. -/
structure Sound (n : ℕ) (s : Store) : Prop where
  /-- The geometry of the device. -/
  geometry : Geometry s.fm n
  /-- The collections can be decoded. -/
  colls : ∀ r ∈ s.colls.toList, r.2 ≠ [] ∧ (getCnode r.2).isSome
  /-- The onodes can be decoded, and are within the device. -/
  objs : ∀ r ∈ s.objs.toList, GoodRecord s.dev .deep r
  /-- No object uses the first block. -/
  marked : ∀ b ∈ s.marked, 0 < b ∧ b < n

namespace Sound

variable (h : Sound n s)

include h

/-- The device has so many blocks. -/
theorem size : s.fm.size / s.minAlloc = n := by
  unfold Store.minAlloc
  rw [h.geometry.size, Nat.mul_div_cancel _ h.geometry.bytesPerBlock_pos]

end Sound

/-- A store in order: the freelist has the blocks that no object uses, but the first. -/
structure InOrder (n : ℕ) (s : Store) : Prop extends Sound n s where
  /-- The freelist. -/
  freelist : Stands s.fm n ⟨s.bitmap, s.free⟩

/-- `_txc_finalize_kv` makes the calls one after the other. -/
theorem exec_call {calls : List Call} {t t' : Tracked}
    (h : Runs.exec (call m) t calls = some t') :
    finalizeKv m t.kv calls = some t'.kv ∧ t'.free = calls.foldl (Call.apply m) t.free := by
  induction calls generalizing t with
  | nil =>
    obtain rfl := Option.some.inj h
    exact ⟨rfl, rfl⟩
  | cons c calls ih =>
    obtain ⟨t1, ht1, hrest⟩ := Runs.exec_cons.mp h
    obtain ⟨merges, hx, rfl⟩ := Option.map_eq_some_iff.mp ht1
    obtain ⟨hkv, hfree⟩ := ih hrest
    refine ⟨?_, hfree⟩
    unfold finalizeKv
    rw [List.foldlM_cons, hx]
    exact hkv

/-- The keys that a transaction leaves: those that it writes, and some that were there. -/
theorem mem_writeNodes {t : Txc} {objs : Records} {r : Str × Str}
    (h : r ∈ (t.writeNodes objs).toList) :
    (∃ w ∈ t.onodes, r = (w.1.keyEncodeObject, w.2.encode)) ∨ r ∈ objs.toList := by
  have hremoved : ∀ (gs : List GhObject) (objs : Records),
      r ∈ (gs.foldl (fun objs g => objs.remove (stringKey g.keyEncodeObject)) objs).toList →
        r ∈ objs.toList := by
    intro gs
    induction gs with
    | nil => exact fun _ hr => hr
    | cons g gs ih => exact fun objs hr => (SortedList.mem_remove.mp (ih _ hr)).1
  have hwritten : ∀ (ws : List (GhObject × Object.Onode)) (objs : Records),
      r ∈ (ws.foldl (fun objs w => objs.set (w.1.keyEncodeObject, w.2.encode)) objs).toList →
        (∃ w ∈ ws, r = (w.1.keyEncodeObject, w.2.encode)) ∨ r ∈ objs.toList := by
    intro ws
    induction ws with
    | nil => exact fun _ hr => .inr hr
    | cons w ws ih =>
      intro objs hr
      rcases ih _ hr with ⟨w', hw', heq⟩ | hr
      · exact .inl ⟨w', List.mem_cons_of_mem _ hw', heq⟩
      · rcases SortedList.mem_set.mp hr with rfl | hr
        · exact .inl ⟨w, List.mem_cons_self, rfl⟩
        · exact .inr hr.1
  exact (hwritten _ _ h).imp_right (hremoved _ _)

/-- What is written is read back. -/
theorem getCnode_putCnode (bits : UInt32) : getCnode (putCnode bits) = some (bits, []) := by
  have h := @getFrame_putFrame _ getU32 1 1 (putU32 bits) bits (by simp [putFrame])
    (fun rest => getU32_putU32 bits rest) []
  rwa [List.append_nil] at h

/-- An action that meets the condition goes through, and leaves the store in order. -/
theorem InOrder.step (h : InOrder n s) {a : Action} (ha : ActionOk s a) :
    ∃ s', s.step a = some s' ∧ InOrder n s' := by
  cases a with
  | createCollection collId bits =>
    refine ⟨_, rfl, ⟨h.geometry, fun r hr => ?_, h.objs, h.marked⟩, h.freelist⟩
    rcases SortedList.mem_set.mp hr with rfl | hr
    · refine ⟨by simp [putCnode, putFrame, putU8], ?_⟩
      rw [getCnode_putCnode]
      rfl
    · exact h.colls r hr.1
  | removeCollection collId =>
    refine ⟨_, rfl, ⟨h.geometry, fun r hr => ?_, h.objs, h.marked⟩, h.freelist⟩
    exact h.colls r (SortedList.mem_remove.mp hr).1
  | commit t =>
    obtain ⟨t', hrun, hst⟩ := h.freelist.exec h.geometry ha.calls
    obtain ⟨hkv, hfree⟩ := exec_call hrun
    obtain ⟨s', hs'⟩ : ∃ s', s' = { s with objs := t.writeNodes s.objs, bitmap := t'.kv } :=
      ⟨_, rfl⟩
    have hfm : s'.fm = s.fm := by rw [hs']
    have hmarked : ∀ b, b ∈ s'.marked ↔ 0 < b ∧ b < n ∧ b ∉ t'.free := by
      intro b
      rw [hs', ha.balanced t'.kv b, h.size, hfree]
    refine ⟨s', ?_, ⟨hfm ▸ h.geometry, ?_, fun r hr => ?_, fun b hb => ?_⟩, ?_⟩
    · show (finalizeKv s.fm s.bitmap t.calls).map _ = _
      rw [hkv, hs']
      rfl
    · rw [hs']
      exact h.colls
    · rw [hs'] at hr ⊢
      rcases mem_writeNodes hr with ⟨w, hw, rfl⟩ | hr
      · obtain ⟨hlen, hin⟩ := ha.onodes w hw
        exact goodRecord_encode w.1 hlen hin
      · exact h.objs r hr
    · have hb := (hmarked b).mp hb
      exact ⟨hb.1, hb.2.1⟩
    · -- The blocks that no object uses are those that the calls leave free.
      have hsame : s'.free = t'.free := by
        ext b
        show 0 < b ∧ b < s'.fm.size / s'.minAlloc ∧ b ∉ s'.marked ↔ _
        rw [hmarked, show s'.fm.size / s'.minAlloc = n by rw [Store.minAlloc, hfm]; exact h.size]
        constructor
        · rintro ⟨h0, hn, hno⟩
          by_contra hb
          exact hno ⟨h0, hn, hb⟩
        · intro hb
          refine ⟨Nat.pos_of_ne_zero fun h0 => ?_, hst.free b hb, fun hm => hm.2.2 hb⟩
          exact (hfree ▸ ha.reserved) (h0 ▸ hb)
      rw [hsame, hfm]
      have hbm : s'.bitmap = t'.kv := by rw [hs']
      rw [hbm]
      exact hst

end CxxLab.Bluestore.Fsck
