import CxxLab.Bluestore.OnodeCodec
import CxxLab.Bluestore.FreelistRuns
import CxxLab.Bluestore.UseTrackerRuns
import CxxLab.Common.Object

/-!
# The checker

`_fsck` of `bluestore.cc`, over the keys of the database and the freelist. The checker reads the
collections, then the onodes, whose blobs say which blocks are used, and then compares the used
blocks with the free ones. A `repair` turns over what it finds wrong in the freelist.

The merge operator of the database is set by `mount` and by a `repair`; a `fsck` of a store that is
not mounted opens the database without it and finds no free block.

The checker counts the extents of an object in use trackers that it makes for their blobs. Nobody
reads them, but an extent that ends behind the units of its blob is counted behind the counters: a
check that writes out of bounds has no result here (`Store.Tracked`).
-/

namespace CxxLab.Bluestore.Fsck

open Common Codec Denc Object Freelist

/-- `FSCKDepth`. -/
inductive Depth where
  /-- `FSCK_SHALLOW`. -/
  | shallow
  /-- `FSCK_REGULAR`. -/
  | regular
  /-- `FSCK_DEEP`. -/
  | deep
  deriving DecidableEq, Repr

/-- The block device. -/
structure Device where
  /-- `size`. -/
  size : UInt64
  /-- `block_size`. -/
  blockSize : UInt64
  deriving DecidableEq

/-- `is_valid_io`; a read of such a range gives no error. -/
def Device.isValidIo (d : Device) (off len : ℕ) : Bool :=
  len ≠ 0 ∧ off < d.size.toNat ∧ off + len ≤ d.size.toNat ∧
    off &&& (d.blockSize.toNat - 1) = 0 ∧ len &&& (d.blockSize.toNat - 1) = 0

/-- The keys of a prefix, in their order. -/
abbrev Records := SortedList fun r : Str × Str => stringKey r.1

/-- What is on disk of a store. -/
structure Store where
  dev : Device
  /-- `fm_`; its blocks are those of `min_alloc_size_`. -/
  fm : Manager
  /-- `PREFIX_COLL`. -/
  colls : Records
  /-- `PREFIX_OBJ`. -/
  objs : Records
  /-- `PREFIX_ALLOC_BITMAP`. -/
  bitmap : Bitmap

namespace Store

/-- `min_alloc_size_`. -/
def minAlloc (s : Store) : ℕ := s.fm.bytesPerBlock

end Store

/-! ## Collections -/

/-- `bluestore_cnode_t`. -/
def putCnode (bits : UInt32) : List UInt8 := putFrame 1 1 (putU32 bits)

/-- `bluestore_cnode_t`. -/
def getCnode : List UInt8 → Option (UInt32 × List UInt8) := getFrame getU32

/-- `_fsck_check_collections`. -/
def fsckCheckCollections (s : Store) : ℕ :=
  s.colls.toList.countP fun r => r.2 = [] ∨ (getCnode r.2).isNone

/-! ## Objects -/

/-- The errors, and `used_blocks`. -/
abbrev Found := ℕ × Finset ℕ

/-- One more error. -/
def Found.error (f : Found) : Found := (f.1 + 1, f.2)

/-- The blocks of an extent. -/
def blocks (minAlloc : ℕ) (e : Object.PExtent) : List ℕ :=
  List.range' (e.offset.toNat / minAlloc) ((e.length.toNat + minAlloc - 1) / minAlloc)

/-- A block is used. -/
def useBlock (depth : Depth) (f : Found) (block : ℕ) : Found :=
  (if block ∈ f.2 ∧ depth ≠ .shallow then f.1 + 1 else f.1, insert block f.2)

/-- The bounds of an extent of a blob. -/
def checkBounds (dev : Device) (depth : Depth) (e : Object.PExtent) (f : Found) : Found :=
  if depth ≠ .shallow ∧ wrap (e.offset.toNat + e.length.toNat) > dev.size.toNat then f.error else f

/-- The data of an extent of a blob. -/
def checkData (dev : Device) (depth : Depth) (e : Object.PExtent) (f : Found) : Found :=
  if depth = .deep ∧ ¬ dev.isValidIo e.offset.toNat e.length.toNat then f.error else f

/-- An extent of a blob. -/
def checkPExtent (s : Store) (depth : Depth) (f : Found) (e : Object.PExtent) : Found :=
  if e.isValid then
    checkData s.dev depth e (checkBounds s.dev depth e
      ((blocks s.minAlloc e).foldl (useBlock depth) f))
  else f

/-- `min_release_size`. -/
def minReleaseSize (minAlloc : ℕ) (b : BlobT) : UInt32 :=
  if BlobT.hasCsum b.flags then max (UInt32.ofNat minAlloc) b.csumChunkSize
  else UInt32.ofNat minAlloc

/-- `ref_map`. -/
abbrev RefMap := ℕ → UseTracker

/-- An extent is counted in the tracker of its blob, which is made for the first one. It stops with
`none` where `init` divides by 0, and where `get` writes behind the counters. -/
def countExtent (minAlloc : ℕ) (b : BlobT) (e : Extent) (tracker : UseTracker) :
    Option UseTracker := do
  let au := minReleaseSize minAlloc b
  let tracker ←
    if tracker.auSize = 0 then
      if h : 0 < au then some (UseTracker.init b.logicalLength au h) else none
    else some tracker
  tracker.get e.blobOffset e.length

/-- An extent of an object. -/
def checkExtent (s : Store) (depth : Depth) (o : Object.Onode) (f : Found × RefMap) (e : Extent) :
    Option (Found × RefMap) :=
  match e.blob with
  | none => some (f.1.error, f.2)
  | some r =>
    let b := (o.blobs r).blob
    (countExtent s.minAlloc b e (f.2 r)).map fun tracker =>
      (b.extents.foldl (checkPExtent s depth) f.1, Function.update f.2 r tracker)

/-- A key of the objects. -/
def checkObject (s : Store) (depth : Depth) (f : Found) (r : Str × Str) : Option Found :=
  if r.1.getLast? = some GhObject.extentShardKeySuffix then some f
  else if r.2 = [] then some f.error
  else
    match Object.Onode.decode r.2 with
    | none => some f.error
    | some (o, _) =>
      (o.extents.foldlM (checkExtent s depth o) (f, fun _ => .new)).map Prod.fst

/-- `_fsck_check_objects`. -/
def fsckCheckObjects (s : Store) (depth : Depth) : Option Found :=
  if s.minAlloc = 0 then some (0, ∅) else s.objs.toList.foldlM (checkObject s depth) (0, ∅)

/-! ## The freelist -/

/-- `free_blocks` of the runs that were enumerated. -/
def freeBlocks (minAlloc : ℕ) (runs : List (ℕ × ℕ)) : Finset ℕ :=
  (runs.flatMap fun r => List.range' (r.1 / minAlloc) ((r.2 + minAlloc - 1) / minAlloc)).toFinset

/-- `allocate` or `release` of one block, in a transaction of its own. -/
def turnBlock (m : Manager) (kv : Bitmap) (block : ℕ) : Option Bitmap :=
  (xor m (block * m.bytesPerBlock) m.bytesPerBlock).map (commit kv)

/-- What a repair does with the blocks that are wrong. -/
def turnBlocks (m : Manager) (repair : Bool) (kv : Bitmap) (wrong : List ℕ) : Option Bitmap :=
  if repair then wrong.foldlM (turnBlock m) kv else some kv

/-- The runs that `enumerate_next` returns; `merged` says that the database has its merge operator.
There is a run for every second block at most. -/
def enumerateFree (s : Store) (merged : Bool) : Option (List (ℕ × ℕ)) :=
  if merged then enumerate s.fm s.bitmap (s.fm.size / s.minAlloc + 2) enumerateReset else some []

/-- `_fsck_check_freelist`: the errors, and the bitmap. -/
def fsckCheckFreelist (s : Store) (used : Finset ℕ) (repair merged : Bool) :
    Option (ℕ × Bitmap) :=
  if s.minAlloc = 0 then some (0, s.bitmap)
  else
    (enumerateFree s merged).bind fun runs =>
      let free := freeBlocks s.minAlloc runs
      let conflicts := (used.sort (· ≤ ·)).filter (· ∈ free)
      (turnBlocks s.fm repair s.bitmap conflicts).bind fun kv =>
        if free = ∅ then some (conflicts.length, kv)
        else
          let leaked := (List.range (s.fm.size / s.minAlloc)).filter fun block =>
            block ∉ used ∧ block ∉ free
          (turnBlocks s.fm repair kv leaked).map fun kv => (conflicts.length + leaked.length, kv)

/-- `_fsck`: what it returns, and the store after it. -/
def runFsck (s : Store) (depth : Depth) (repair merged : Bool) : Option (ℕ × Store) :=
  (fsckCheckObjects s depth).bind fun objects =>
    let errors := fsckCheckCollections s + objects.1
    if depth = .shallow then some (errors, s)
    else
      (fsckCheckFreelist s objects.2 repair merged).map fun r =>
        let errors := errors + r.1
        let repaired := if repair then errors else 0
        (errors - repaired, { s with bitmap := r.2 })

/-- `repair`. -/
def repair (s : Store) (deep : Bool) : Option (ℕ × Store) :=
  runFsck s (if deep then .deep else .regular) true true

/-! ## When the object check stays in bounds -/

/-- An extent ends within the units that the tracker of its blob has counters for. -/
def ExtentTracked (minAlloc : ℕ) (b : BlobT) (e : Extent) : Prop :=
  0 < minReleaseSize minAlloc b ∧
    UseTracker.InUnits b.logicalLength (minReleaseSize minAlloc b) e.blobOffset e.length

/-- So do all extents of an onode. -/
def OnodeTracked (minAlloc : ℕ) (o : Object.Onode) : Prop :=
  ∀ e ∈ o.extents, ∀ r, e.blob = some r → ExtentTracked minAlloc (o.blobs r).blob e

/-- So do all extents of a key of the objects. -/
def TrackedRecord (minAlloc : ℕ) (r : Str × Str) : Prop :=
  r.1.getLast? ≠ some GhObject.extentShardKeySuffix → r.2 ≠ [] →
    ∀ o rest, Object.Onode.decode r.2 = some (o, rest) → OnodeTracked minAlloc o

/-- No extent of an object ends behind the units of its blob. -/
def Store.Tracked (s : Store) : Prop := ∀ r ∈ s.objs.toList, TrackedRecord s.minAlloc r

/-- What a part of the check does, at more than a shallow depth: it marks blocks as used, and finds
no error exactly when they are different, none was used before, and nothing else is wrong. -/
structure Pass (f : Found → Found) (marked : List ℕ) (good : Prop) : Prop where
  /-- The blocks are marked. -/
  used : ∀ s, (f s).2 = s.2 ∪ marked.toFinset
  /-- Errors are only added. -/
  le : ∀ s, s.1 ≤ (f s).1
  /-- There is no new error exactly when nothing is wrong. -/
  clean : ∀ s, (f s).1 = s.1 ↔ good ∧ marked.Nodup ∧ ∀ b ∈ marked, b ∉ s.2

namespace Pass

variable {f g : Found → Found} {marked marked' : List ℕ} {good good' : Prop}

/-- The same condition in other words. -/
theorem congr (h : Pass f marked good) (hgood : good ↔ good') : Pass f marked good' :=
  ⟨h.used, h.le, fun s => by rw [h.clean, hgood]⟩

/-- A part that does nothing. -/
theorem skip : Pass id [] True := ⟨fun s => by simp, fun s => le_rfl, fun s => by simp⟩

/-- A part that reports an error. -/
theorem error : Pass Found.error [] False :=
  ⟨fun s => by simp [Found.error], fun s => Nat.le_succ _, fun s => by simp [Found.error]⟩

/-- One part after another. -/
theorem comp (hf : Pass f marked good) (hg : Pass g marked' good') :
    Pass (fun s => g (f s)) (marked ++ marked') (good ∧ good') where
  used s := by rw [hg.used, hf.used, List.toFinset_append, Finset.union_assoc]
  le s := (hf.le s).trans (hg.le _)
  clean s := by
    have h1 := hf.le s
    have h2 := hg.le (f s)
    have hboth : (g (f s)).1 = s.1 ↔ (f s).1 = s.1 ∧ (g (f s)).1 = (f s).1 := by omega
    rw [hboth, hf.clean, hg.clean, hf.used, List.nodup_append]
    simp only [Finset.mem_union, List.mem_toFinset, List.mem_append]
    constructor
    · rintro ⟨⟨hgood, hnd, hnew⟩, hgood', hnd', hnew'⟩
      refine ⟨⟨hgood, hgood'⟩, ⟨hnd, hnd', ?_⟩, ?_⟩
      · rintro a ha b hb rfl
        exact hnew' a hb (.inr ha)
      · rintro b (hb | hb)
        · exact hnew b hb
        · exact fun hs => hnew' b hb (.inl hs)
    · rintro ⟨⟨hgood, hgood'⟩, ⟨hnd, hnd', hdis⟩, hnew⟩
      refine ⟨⟨hgood, hnd, fun b hb => hnew b (.inl hb)⟩, hgood', hnd', ?_⟩
      rintro b hb (hs | hs)
      · exact hnew b (.inr hb) hs
      · exact hdis b hs b hb rfl

/-- A loop of parts. -/
theorem foldl {α : Type} {f : Found → α → Found} {marked : α → List ℕ} {good : α → Prop}
    {l : List α} (h : ∀ a ∈ l, Pass (fun s => f s a) (marked a) (good a)) :
    Pass (fun s => l.foldl f s) (l.flatMap marked) (∀ a ∈ l, good a) := by
  induction l with
  | nil => exact skip.congr (by simp)
  | cons a l ih =>
    have hrest := ih fun b hb => h b (List.mem_cons_of_mem _ hb)
    exact ((h a List.mem_cons_self).comp hrest).congr (by simp)

end Pass

variable {s : Store} {depth : Depth}

/-- An extent of a blob is within the device, and its data can be read. -/
def InBounds (dev : Device) (depth : Depth) (e : Object.PExtent) : Prop :=
  wrap (e.offset.toNat + e.length.toNat) ≤ dev.size.toNat ∧
    (depth = .deep → dev.isValidIo e.offset.toNat e.length.toNat = true)

/-- The blocks that an extent of a blob marks. -/
def pextentBlocks (minAlloc : ℕ) (e : Object.PExtent) : List ℕ :=
  if e.isValid then blocks minAlloc e else []

/-- The blocks that an extent of an object marks: those of its blob, whatever other extents
mark them. -/
def extentBlocks (minAlloc : ℕ) (o : Object.Onode) (e : Extent) : List ℕ :=
  match o.blobOf e with
  | none => []
  | some b => b.extents.flatMap (pextentBlocks minAlloc)

/-- The extents of a blob are within the device. -/
def BlobInBounds (dev : Device) (depth : Depth) (b : BlobT) : Prop :=
  ∀ e ∈ b.extents, e.isValid = true → InBounds dev depth e

/-- The blocks that an onode marks. -/
def onodeBlocks (minAlloc : ℕ) (o : Object.Onode) : List ℕ :=
  o.extents.flatMap (extentBlocks minAlloc o)

/-- The extents of an onode have blobs, within the device. -/
def OnodeInBounds (dev : Device) (depth : Depth) (o : Object.Onode) : Prop :=
  ∀ e ∈ o.extents, ∃ b, o.blobOf e = some b ∧ BlobInBounds dev depth b

/-- The blocks that a key of the objects marks. -/
def recordBlocks (minAlloc : ℕ) (r : Str × Str) : List ℕ :=
  if r.1.getLast? = some GhObject.extentShardKeySuffix then []
  else if r.2 = [] then []
  else
    match Object.Onode.decode r.2 with
    | none => []
    | some (o, _) => onodeBlocks minAlloc o

/-- Nothing is wrong with a key of the objects by itself. -/
def GoodRecord (dev : Device) (depth : Depth) (r : Str × Str) : Prop :=
  r.1.getLast? = some GhObject.extentShardKeySuffix ∨
    r.2 ≠ [] ∧ ∃ o rest, Object.Onode.decode r.2 = some (o, rest) ∧ OnodeInBounds dev depth o

/-- The blocks that the objects mark, as often as they mark them. -/
def Store.marked (s : Store) : List ℕ := s.objs.toList.flatMap (recordBlocks s.minAlloc)

end CxxLab.Bluestore.Fsck
