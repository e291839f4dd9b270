import CxxLab.Bluestore.Blob
import CxxLab.Common.Denc
import CxxLab.Lib.SortedList
import Mathlib.Tactic

/-!
# The encoding of an onode

`Onode::encode` and `Onode::decode` of `onode.cc`, over the encodings of `bluestore_onode_t` and
`bluestore_blob_t`. The encoding has the extents one after the other, each with the whole blob that
it refers to. So `decode` makes a blob for each extent, also where extents shared one, and the use
tracker of a blob, which is not in the encoding, starts anew.

A blob is an object on a heap that extents refer to by its address. A buffer list has at most
`2 ^ 32 - 1` bytes, which bounds every count and length in an encoding.
-/

namespace CxxLab.Bluestore.Object

open Codec Denc

/-! ## The onode -/

/-- `Extent`; `blob` is the address of the blob. -/
structure Extent where
  logicalOffset : UInt32
  blobOffset : UInt32
  length : UInt32
  blob : Option ℕ
  deriving DecidableEq, Repr

/-- The order of `std::string`. -/
def stringKey (s : List UInt8) : List ℕ := s.map UInt8.toNat

/-- `bluestore_onode_t`. -/
structure OnodeT where
  nid : UInt64
  size : UInt64
  attrs : SortedList fun a : List UInt8 × List UInt8 => stringKey a.1
  /-- `extent_map_shards`: the offset and the bytes of each. -/
  extentMapShards : List (UInt32 × UInt32)
  expectedObjectSize : UInt32
  expectedWriteSize : UInt32
  allocHintFlags : UInt32
  flags : UInt8

/-- `ExtentMap`. -/
abbrev ExtentMap := SortedList fun e : Extent => e.logicalOffset.toNat

/-- `Onode`. -/
structure Onode where
  onode : OnodeT
  extentMap : ExtentMap
  /-- `exists`. -/
  present : Bool
  /-- The blobs, by their addresses. -/
  blobs : ℕ → Blob

/-! ## Encoding -/

/-- `pextent_t`. -/
def putPExtent (e : PExtent) : List UInt8 := putLba e.offset.toNat ++ putVarintLowz e.length.toNat

/-- `pextent_t`. -/
def getPExtent (p : List UInt8) : Option (PExtent × List UInt8) := do
  let (offset, p) ← getLba p
  let (length, p) ← getVarintLowz p
  some (⟨UInt64.ofNat offset, UInt32.ofNat length⟩, p)

/-- `PExtentVector`, with a `denc_varint` count. -/
def putPExtents (es : List PExtent) : List UInt8 :=
  putVarint (UInt32.ofNat es.length).toNat ++ es.flatMap putPExtent

/-- `PExtentVector`. -/
def getPExtents (p : List UInt8) : Option (List PExtent × List UInt8) := do
  let (num, p) ← getVarint p
  getMany getPExtent (UInt32.ofNat num).toNat p

/-- The checksum fields, where the flags say so. -/
def putCsum (b : BlobT) : List UInt8 :=
  if BlobT.hasCsum b.flags then
    putU8 b.csumType ++ putU8 b.csumChunkOrder ++ putBytes b.csumData
  else []

/-- The checksum fields of a new `bluestore_blob_t`. -/
def getCsum (flags : UInt32) (p : List UInt8) : Option ((UInt8 × UInt8 × List UInt8) × List UInt8) :=
  if BlobT.hasCsum flags then do
    let (type, p) ← getU8 p
    let (order, p) ← getU8 p
    let (data, p) ← getBytesOf p
    some ((type, order, data), p)
  else some ((1, 0, []), p)

/-- The unused bits, where the flags say so. -/
def putUnused (b : BlobT) : List UInt8 := if BlobT.hasUnused b.flags then putU16 b.unused else []

/-- The unused bits of a new `bluestore_blob_t`. -/
def getUnused (flags : UInt32) (p : List UInt8) : Option (UInt16 × List UInt8) :=
  if BlobT.hasUnused flags then getU16 p else some (0, p)

/-- `bluestore_blob_t`. -/
def putBlobT (b : BlobT) : List UInt8 :=
  putFrame 2 2 (putPExtents b.extents ++ putU32 b.logicalLength ++ putU32 b.flags ++ putCsum b ++
    putUnused b)

/-- `bluestore_blob_t`, into a new one. -/
def getBlobT : List UInt8 → Option (BlobT × List UInt8) :=
  getFrame fun p => do
    let (extents, p) ← getPExtents p
    let (logicalLength, p) ← getU32 p
    let (flags, p) ← getU32 p
    let ((type, order, data), p) ← getCsum flags p
    let (unused, p) ← getUnused flags p
    some (⟨extents, logicalLength, flags, type, order, data, unused⟩, p)

/-- An attribute. -/
def putAttr (a : List UInt8 × List UInt8) : List UInt8 := putBytes a.1 ++ putBytes a.2

/-- An attribute. -/
def getAttr (p : List UInt8) : Option ((List UInt8 × List UInt8) × List UInt8) := do
  let (name, p) ← getBytesOf p
  let (value, p) ← getBytesOf p
  some ((name, value), p)

/-- `shard_info`. -/
def putShard (s : UInt32 × UInt32) : List UInt8 := putFrame 1 1 (putU32 s.1 ++ putU32 s.2)

/-- `shard_info`. -/
def getShard : List UInt8 → Option ((UInt32 × UInt32) × List UInt8) :=
  getFrame fun p => do
    let (offset, p) ← getU32 p
    let (bytes, p) ← getU32 p
    some ((offset, bytes), p)

/-- `bluestore_onode_t`. -/
def putOnodeT (o : OnodeT) : List UInt8 :=
  putFrame 1 1 (putU64 o.nid ++ putU64 o.size ++ putList putAttr o.attrs.toList ++
    putList putShard o.extentMapShards ++ putU32 o.expectedObjectSize ++
    putU32 o.expectedWriteSize ++ putU32 o.allocHintFlags ++ putU8 o.flags)

/-- `bluestore_onode_t`. -/
def getOnodeT : List UInt8 → Option (OnodeT × List UInt8) :=
  getFrame fun p => do
    let (nid, p) ← getU64 p
    let (size, p) ← getU64 p
    let (attrs, p) ← getList getAttr p
    let (shards, p) ← getList getShard p
    let (expectedObjectSize, p) ← getU32 p
    let (expectedWriteSize, p) ← getU32 p
    let (allocHintFlags, p) ← getU32 p
    let (flags, p) ← getU8 p
    some (⟨nid, size, .ofList _ attrs, shards, expectedObjectSize, expectedWriteSize, allocHintFlags,
      flags⟩, p)

/-- What the encoding has of an extent. -/
structure ExtentRecord where
  logicalOffset : UInt32
  blobOffset : UInt32
  length : UInt32
  blob : Option BlobT

/-- The body of the loop of `encode`. -/
def putExtent (r : ExtentRecord) : List UInt8 :=
  putU32 r.logicalOffset ++ putU32 r.blobOffset ++ putU32 r.length ++
    match r.blob with
    | some b => putU8 1 ++ putBlobT b
    | none => putU8 0

/-- The reading part of the loop of `decode`. -/
def getExtent (p : List UInt8) : Option (ExtentRecord × List UInt8) := do
  let (logicalOffset, p) ← getU32 p
  let (blobOffset, p) ← getU32 p
  let (length, p) ← getU32 p
  let (hasBlob, p) ← getU8 p
  if hasBlob = 0 then some (⟨logicalOffset, blobOffset, length, none⟩, p)
  else
    let (b, p) ← getBlobT p
    some (⟨logicalOffset, blobOffset, length, some b⟩, p)

namespace Onode

/-- The extents, in their order. -/
def extents (o : Onode) : List Extent := o.extentMap.toList

/-- The `bluestore_blob_t` of an extent. -/
def blobOf (o : Onode) (e : Extent) : Option BlobT := e.blob.map fun r => (o.blobs r).blob

/-- What `encode` writes of the extents. -/
def records (o : Onode) : List ExtentRecord :=
  o.extents.map fun e => ⟨e.logicalOffset, e.blobOffset, e.length, o.blobOf e⟩

/-- `Onode::encode`. -/
def encode (o : Onode) : List UInt8 := putOnodeT o.onode ++ putList putExtent o.records

/-- The extents that `decode` makes of what it reads; the blob of the `i`-th extent gets the address
`i`. -/
def loadExtents (records : List ExtentRecord) : List Extent :=
  records.mapIdx fun i r => ⟨r.logicalOffset, r.blobOffset, r.length, r.blob.map fun _ => i⟩

/-- The blobs that `decode` makes. -/
def loadBlobs (records : List ExtentRecord) (i : ℕ) : Blob :=
  match records[i]? with
  | some ⟨_, _, _, some b⟩ => { Blob.new with blob := b }
  | _ => .new

/-- The onode with what `decode` has read. -/
def load (onode : OnodeT) (records : List ExtentRecord) : Onode where
  onode := onode
  extentMap := .ofList _ (loadExtents records)
  present := true
  blobs := loadBlobs records

/-- `Onode::decode`. -/
def decode (p : List UInt8) : Option (Onode × List UInt8) := do
  let (onode, p) ← getOnodeT p
  let (records, p) ← getList getExtent p
  some (load onode records, p)

end Onode

/-! ## What `decode` gives -/

/-- A `bluestore_blob_t` as it comes back: what the flags leave out has its default. -/
def BlobT.stored (b : BlobT) : BlobT :=
  { b with
    csumType := if BlobT.hasCsum b.flags then b.csumType else 1
    csumChunkOrder := if BlobT.hasCsum b.flags then b.csumChunkOrder else 0
    csumData := if BlobT.hasCsum b.flags then b.csumData else []
    unused := if BlobT.hasUnused b.flags then b.unused else 0 }

/-- An extent as it comes back. -/
def ExtentRecord.stored (r : ExtentRecord) : ExtentRecord :=
  { r with blob := r.blob.map BlobT.stored }

/-- What is written is read back. -/
theorem getPExtent_putPExtent (e : PExtent) (rest : List UInt8) :
    getPExtent (putPExtent e ++ rest) = some (e, rest) := by
  have hlen : e.length.toNat < 2 ^ 62 := lt_trans e.length.toNat_lt (by norm_num)
  unfold putPExtent getPExtent
  rw [List.append_assoc, getLba_putLba]
  simp [getVarintLowz_putVarintLowz hlen]

/-- What is written is read back. -/
theorem getPExtents_putPExtents {es : List PExtent} (h : (putPExtents es).length < 2 ^ 32)
    (rest : List UInt8) : getPExtents (putPExtents es ++ rest) = some (es, rest) := by
  unfold putPExtents at h ⊢
  rw [List.length_append] at h
  have hcard : es.length ≤ (es.flatMap putPExtent).length := card_le_flatMap (fun e => by
    unfold putPExtent
    rw [List.length_append]
    exact Nat.add_pos_left (length_putLba_pos _) _) es
  have hnum : (UInt32.ofNat es.length).toNat = es.length := by
    rw [UInt32.toNat_ofNat']
    omega
  have hmany : getMany getPExtent es.length (es.flatMap putPExtent ++ rest) =
      some (es.map id, rest) :=
    getMany_flatMap rest fun e _ => getPExtent_putPExtent e
  unfold getPExtents
  rw [hnum, List.append_assoc, getVarint_putVarint, Option.bind_eq_bind, Option.bind_some]
  dsimp only
  rw [hnum, hmany, List.map_id]

/-- The checksums come back if the flags say that there are any. -/
theorem getCsum_putCsum {b : BlobT} (h : (putCsum b).length < 2 ^ 32) (rest : List UInt8) :
    getCsum b.flags (putCsum b ++ rest) =
      some ((b.stored.csumType, b.stored.csumChunkOrder, b.stored.csumData), rest) := by
  unfold putCsum at h ⊢
  unfold getCsum
  by_cases hflag : BlobT.hasCsum b.flags = true
  · rw [if_pos hflag] at h ⊢
    simp only [List.length_append] at h
    simp [hflag, BlobT.stored, getBytesOf_putBytes (show (putBytes b.csumData).length < 2 ^ 32 by omega)]
  · simp [hflag, BlobT.stored]

/-- The unused bits come back if the flags say that there are any. -/
theorem getUnused_putUnused (b : BlobT) (rest : List UInt8) :
    getUnused b.flags (putUnused b ++ rest) = some (b.stored.unused, rest) := by
  unfold putUnused getUnused
  by_cases hflag : BlobT.hasUnused b.flags = true
  · simp [hflag, BlobT.stored]
  · simp [hflag, BlobT.stored]

/-- A `bluestore_blob_t` comes back with what its flags say that it has. -/
theorem getBlobT_putBlobT {b : BlobT} (h : (putBlobT b).length < 2 ^ 32) (rest : List UInt8) :
    getBlobT (putBlobT b ++ rest) = some (b.stored, rest) := by
  refine getFrame_putFrame h (fun rest => ?_) rest
  unfold putBlobT putFrame at h
  simp only [List.length_append] at h
  have hextents := getPExtents_putPExtents (show (putPExtents b.extents).length < 2 ^ 32 by omega)
  have hcsum := getCsum_putCsum (show (putCsum b).length < 2 ^ 32 by omega)
  simp only [List.append_assoc, hextents, Option.bind_eq_bind, Option.bind_some, getU32_putU32,
    hcsum, getUnused_putUnused]
  rfl

/-- What is written is read back. -/
theorem getAttr_putAttr {a : List UInt8 × List UInt8} (h : (putAttr a).length < 2 ^ 32)
    (rest : List UInt8) : getAttr (putAttr a ++ rest) = some (a, rest) := by
  unfold putAttr at h ⊢
  rw [List.length_append] at h
  have hname := getBytesOf_putBytes (show (putBytes a.1).length < 2 ^ 32 by omega)
  have hvalue := getBytesOf_putBytes (show (putBytes a.2).length < 2 ^ 32 by omega)
  simp [getAttr, hname, hvalue]

/-- What is written is read back. -/
theorem getShard_putShard {x : UInt32 × UInt32} (h : (putShard x).length < 2 ^ 32)
    (rest : List UInt8) : getShard (putShard x ++ rest) = some (x, rest) :=
  getFrame_putFrame h (fun rest => by simp) rest

/-- A frame has a header. -/
theorem length_putFrame_pos (version compat : UInt8) (body : List UInt8) :
    0 < (putFrame version compat body).length := by
  simp [putFrame]

/-- What is written is read back. -/
theorem getOnodeT_putOnodeT {o : OnodeT} (h : (putOnodeT o).length < 2 ^ 32) (rest : List UInt8) :
    getOnodeT (putOnodeT o ++ rest) = some (o, rest) := by
  refine getFrame_putFrame h (fun rest => ?_) rest
  unfold putOnodeT putFrame at h
  simp only [List.length_append] at h
  have hattrs : ∀ rest, getList getAttr (putList putAttr o.attrs.toList ++ rest) =
      some (o.attrs.toList.map id, rest) :=
    getList_putList (fun a => by simp [putAttr, putBytes]) (by omega)
      fun a _ hlen => getAttr_putAttr hlen
  have hshards : ∀ rest, getList getShard (putList putShard o.extentMapShards ++ rest) =
      some (o.extentMapShards.map id, rest) :=
    getList_putList (fun _ => length_putFrame_pos _ _ _) (by omega)
      fun a _ hlen => getShard_putShard hlen
  simp only [List.append_assoc, getU64_putU64, Option.bind_eq_bind, Option.bind_some, hattrs,
    hshards, getU32_putU32, getU8_putU8, List.map_id, SortedList.ofList_toList]

/-- An extent comes back with its blob as it is stored. -/
theorem getExtent_putExtent {r : ExtentRecord} (h : (putExtent r).length < 2 ^ 32)
    (rest : List UInt8) : getExtent (putExtent r ++ rest) = some (r.stored, rest) := by
  unfold putExtent at h ⊢
  unfold getExtent ExtentRecord.stored
  cases hb : r.blob with
  | none => simp
  | some b =>
    rw [hb] at h
    simp only [List.length_append] at h
    simp [getBlobT_putBlobT (show (putBlobT b).length < 2 ^ 32 by omega)]

namespace Onode

/-- What `decode` makes of the encoding of an onode. -/
def reloaded (o : Onode) : Onode := load o.onode (o.records.map ExtentRecord.stored)

/-- `decode` of what `encode` wrote. -/
theorem decode_encode {o : Onode} (h : o.encode.length < 2 ^ 32) :
    decode o.encode = some (o.reloaded, []) := by
  unfold encode at h
  rw [List.length_append] at h
  have honode := getOnodeT_putOnodeT (show (putOnodeT o.onode).length < 2 ^ 32 by omega)
  have hrecords : getList getExtent (putList putExtent o.records ++ []) =
      some (o.records.map ExtentRecord.stored, []) :=
    getList_putList (fun r => by simp [putExtent])
      (show (putList putExtent o.records).length < 2 ^ 32 by omega)
      (fun r _ hlen => getExtent_putExtent hlen) []
  rw [List.append_nil] at hrecords
  unfold decode encode
  rw [honode, Option.bind_eq_bind, Option.bind_some]
  dsimp only
  rw [hrecords]
  rfl

/-! ## The round trip -/

/-- Two extents refer to one blob. -/
def Shares (o : Onode) (i j : ℕ) : Prop :=
  ∃ e ∈ o.extents[i]?, ∃ f ∈ o.extents[j]?, ∃ r ∈ e.blob, r ∈ f.blob

/-- `put_ref` on the blob of the `i`-th extent. -/
def putRef (o : Onode) (i : ℕ) (offset length : UInt32) : Option (List PExtent × Onode) := do
  let e ← o.extents[i]?
  let r ← e.blob
  let (released, b) ← (o.blobs r).putRef offset length
  some (released, { o with blobs := Function.update o.blobs r b })

/-- What a sequence of `put_ref` calls releases. -/
def putRefs : Onode → List (ℕ × UInt32 × UInt32) → Option (List (List PExtent))
  | _, [] => some []
  | o, (i, offset, length) :: calls => do
    let (released, o) ← o.putRef i offset length
    let rest ← o.putRefs calls
    some (released :: rest)

end Onode

/-- The place of an extent in the object and in its blob. -/
def Extent.place (e : Extent) : UInt32 × UInt32 × UInt32 := (e.logicalOffset, e.blobOffset, e.length)

/-- An onode is as good as another. -/
structure SameOnode (o o' : Onode) : Prop where
  /-- The fields and the attributes. -/
  onode : o'.onode = o.onode
  /-- `exists`. -/
  present : o'.present = o.present
  /-- The logical extents. -/
  extents : o'.extents.map Extent.place = o.extents.map Extent.place
  /-- The contents of the blobs. -/
  blobs : o'.extents.map o'.blobOf = o.extents.map o.blobOf
  /-- The sharing of blobs. -/
  sharing : ∀ i j, o'.Shares i j ↔ o.Shares i j
  /-- What later calls of `put_ref` release. -/
  releases : ∀ calls rs, o.putRefs calls = some rs → o'.putRefs calls = some rs

/-- `decode` of what `encode` wrote is as good as the onode. -/
def RoundTrips (o : Onode) : Prop :=
  ∃ o', Onode.decode o.encode = some (o', []) ∧ SameOnode o o'

/-- What a `bluestore_blob_t` has beside the flags is what they say. -/
def BlobT.Tidy (b : BlobT) : Prop :=
  (BlobT.hasCsum b.flags = false → b.csumType = 1 ∧ b.csumChunkOrder = 0 ∧ b.csumData = []) ∧
    (BlobT.hasUnused b.flags = false → b.unused = 0)

/-- The onodes that come back: no two extents share a blob, and no blob with space is counted as
referred to. -/
structure Reloadable (o : Onode) : Prop where
  /-- The object is there. -/
  present : o.present = true
  /-- The flags of a blob say what it has. -/
  tidy : ∀ e ∈ o.extents, ∀ r ∈ e.blob, (o.blobs r).blob.Tidy
  /-- No blob is shared. -/
  unshared : ∀ i j, o.Shares i j → i = j
  /-- A blob has no references in its use tracker, or no space. -/
  unreferenced : ∀ e ∈ o.extents, ∀ r ∈ e.blob,
    (o.blobs r).isReferenced = false ∨ ¬ (o.blobs r).blob.HasSpace

/-- A blob comes back as it was exactly when its flags say what it has. -/
theorem BlobT.stored_eq_iff (b : BlobT) : b.stored = b ↔ b.Tidy := by
  cases b with
  | mk extents logicalLength flags csumType csumChunkOrder csumData unused =>
    unfold BlobT.stored BlobT.Tidy
    cases hc : BlobT.hasCsum flags <;> cases hu : BlobT.hasUnused flags <;>
      simp [eq_comm, and_assoc]

namespace Onode

variable {o : Onode} {i j : ℕ} {e : Extent} {r : ℕ}

/-- An extent after `decode`. -/
theorem reloaded_extents (o : Onode) : o.reloaded.extents =
    o.extents.mapIdx fun i e => { e with blob := e.blob.map fun _ => i } := by
  have hload : loadExtents (o.records.map ExtentRecord.stored) =
      o.extents.mapIdx fun i e => { e with blob := e.blob.map fun _ => i } := by
    apply List.ext_getElem?
    intro i
    simp only [loadExtents, records, List.getElem?_mapIdx, List.getElem?_map, Option.map_map]
    cases o.extents[i]? with
    | none => rfl
    | some e => simp [ExtentRecord.stored, blobOf, Function.comp_def]
  show (SortedList.ofList _ (loadExtents (o.records.map ExtentRecord.stored))).toList = _
  rw [hload]
  apply SortedList.toList_ofList
  rw [← List.pairwise_map (f := fun e : Extent => e.logicalOffset.toNat) (R := (· < ·))]
  have hkeys : (o.extents.mapIdx fun i e => { e with blob := e.blob.map fun _ => i }).map
      (fun e : Extent => e.logicalOffset.toNat) =
      o.extents.map fun e => e.logicalOffset.toNat := by
    apply List.ext_getElem?
    intro i
    simp only [List.getElem?_mapIdx, List.getElem?_map, Option.map_map]
    rfl
  rw [hkeys, List.pairwise_map]
  exact o.extentMap.sorted

/-- The extents after `decode`, by their places. -/
theorem getElem?_reloaded (o : Onode) (i : ℕ) : o.reloaded.extents[i]? =
    o.extents[i]?.map fun e => { e with blob := e.blob.map fun _ => i } := by
  rw [reloaded_extents, List.getElem?_mapIdx]

/-- A blob after `decode`. -/
theorem reloaded_blobs (he : o.extents[i]? = some e) (hr : e.blob = some r) :
    o.reloaded.blobs i = ⟨(o.blobs r).blob.stored, .new⟩ := by
  have hrecord : (o.records.map ExtentRecord.stored)[i]? =
      some ⟨e.logicalOffset, e.blobOffset, e.length, some (o.blobs r).blob.stored⟩ := by
    simp only [records, List.getElem?_map, he]
    simp [ExtentRecord.stored, blobOf, hr]
  show loadBlobs _ i = _
  unfold loadBlobs
  rw [hrecord]
  rfl

/-- After `decode` every extent has a blob of its own. -/
theorem reloaded_shares (o : Onode) (i j : ℕ) :
    o.reloaded.Shares i j ↔ i = j ∧ o.Shares i i := by
  unfold Shares
  simp only [getElem?_reloaded]
  constructor
  · rintro ⟨e, he, f, hf, r, hr, hr'⟩
    obtain ⟨e0, he0, rfl⟩ := Option.map_eq_some_iff.mp he
    obtain ⟨f0, hf0, rfl⟩ := Option.map_eq_some_iff.mp hf
    obtain ⟨r0, hr0, rfl⟩ := Option.map_eq_some_iff.mp hr
    obtain ⟨r1, hr1, rfl⟩ := Option.map_eq_some_iff.mp hr'
    exact ⟨rfl, e0, he0, e0, he0, r0, hr0, hr0⟩
  · rintro ⟨rfl, e, he, f, hf, r, hr, hr'⟩
    refine ⟨_, Option.map_eq_some_iff.mpr ⟨e, he, rfl⟩, _, Option.map_eq_some_iff.mpr ⟨e, he, rfl⟩, i,
      ?_, ?_⟩
    · exact Option.map_eq_some_iff.mpr ⟨r, hr, rfl⟩
    · exact Option.map_eq_some_iff.mpr ⟨r, hr, rfl⟩

/-- The contents of the blobs after `decode`. -/
theorem reloaded_blobOf (o : Onode) : o.reloaded.extents.map o.reloaded.blobOf =
    o.extents.map fun e => (o.blobOf e).map BlobT.stored := by
  apply List.ext_getElem?
  intro i
  simp only [List.getElem?_map, getElem?_reloaded]
  cases he : o.extents[i]? with
  | none => rfl
  | some e =>
    cases hr : e.blob with
    | none => simp [blobOf, hr]
    | some r => simp [blobOf, hr, reloaded_blobs he hr]

end Onode

/-- A blob and a reloaded one of which `put_ref` releases the same. -/
def Pair (b b' : Blob) : Prop :=
  b'.used.count = .total 0 ∧
    (b.isReferenced = false ∧ b'.blob.extents = b.blob.extents ∨
      ¬ b.blob.HasSpace ∧ ¬ b'.blob.HasSpace)

/-- `put_ref` on either of two such blobs releases the same. -/
theorem Pair.putRef {b b' b1 : Blob} {offset length : UInt32} {released : List PExtent}
    (h : Pair b b') (hput : b.putRef offset length = some (released, b1)) :
    ∃ b1', b'.putRef offset length = some (released, b1') ∧ Pair b1 b1' := by
  obtain ⟨hnew, hcase⟩ := h
  obtain ⟨b1', hput', hnew', hspace'⟩ := Blob.putRef_of_new hnew offset length
  rcases hcase with ⟨href, hext⟩ | ⟨hspace, hspace0⟩
  · obtain ⟨rfl, hspace⟩ := Blob.putRef_of_unreferenced href hput
    rw [hext] at hput'
    exact ⟨b1', hput', hnew', .inr ⟨hspace, hspace'⟩⟩
  · obtain ⟨rfl, hspace1⟩ := Blob.putRef_of_not_hasSpace hspace hput
    have hnil : b'.blob.extents.filter PExtent.isValid = [] :=
      List.filter_eq_nil_iff.mpr fun e he hv => hspace0 ⟨e, he, hv⟩
    rw [hnil] at hput'
    exact ⟨b1', hput', hnew', .inr ⟨hspace1, hspace'⟩⟩

/-- Two onodes on which `put_ref` releases the same: they share no blobs, and their blobs pair up. -/
structure Twin (o o' : Onode) : Prop where
  unshared : ∀ i j, o.Shares i j → i = j
  unshared' : ∀ i j, o'.Shares i j → i = j
  pair : ∀ (i : ℕ) (e : Extent) (r : ℕ), o.extents[i]? = some e → e.blob = some r →
    ∃ (e' : Extent) (r' : ℕ), o'.extents[i]? = some e' ∧ e'.blob = some r' ∧
      Pair (o.blobs r) (o'.blobs r')

/-- `put_ref` on either of two such onodes releases the same. -/
theorem Twin.putRef {o o' o1 : Onode} {i : ℕ} {offset length : UInt32} {released : List PExtent}
    (h : Twin o o') (hput : o.putRef i offset length = some (released, o1)) :
    ∃ o1', o'.putRef i offset length = some (released, o1') ∧ Twin o1 o1' := by
  obtain ⟨e, he, hput⟩ := Option.bind_eq_some_iff.mp hput
  obtain ⟨r, hr, hput⟩ := Option.bind_eq_some_iff.mp hput
  obtain ⟨⟨released', b1⟩, hb, hput⟩ := Option.bind_eq_some_iff.mp hput
  obtain ⟨rfl, rfl⟩ := Prod.mk.inj (Option.some.inj hput)
  obtain ⟨e', r', he', hr', hpair⟩ := h.pair i e r he hr
  obtain ⟨b1', hb', hpair1⟩ := hpair.putRef hb
  refine ⟨{ o' with blobs := Function.update o'.blobs r' b1' }, ?_, h.unshared, h.unshared', ?_⟩
  · simp [Onode.putRef, he', hr', hb']
  · intro k f s hf hs
    obtain ⟨f', s', hf', hs', hpair'⟩ := h.pair k f s hf hs
    refine ⟨f', s', hf', hs', ?_⟩
    by_cases hk : k = i
    · subst hk
      obtain rfl : e = f := Option.some.inj (he.symm.trans hf)
      obtain rfl : e' = f' := Option.some.inj (he'.symm.trans hf')
      obtain rfl : r = s := Option.some.inj (hr.symm.trans hs)
      obtain rfl : r' = s' := Option.some.inj (hr'.symm.trans hs')
      simpa using hpair1
    · -- The blobs of other extents are other blobs.
      have hne : s ≠ r := by
        rintro rfl
        exact hk (h.unshared k i ⟨f, hf, e, he, s, hs, hr⟩)
      have hne' : s' ≠ r' := by
        rintro rfl
        exact hk (h.unshared' k i ⟨f', hf', e', he', s', hs', hr'⟩)
      simpa [Function.update_of_ne hne, Function.update_of_ne hne'] using hpair'

/-- So does a sequence of calls. -/
theorem Twin.putRefs {o o' : Onode} (h : Twin o o') (calls : List (ℕ × UInt32 × UInt32))
    (rs : List (List PExtent)) (hrun : o.putRefs calls = some rs) : o'.putRefs calls = some rs := by
  induction calls generalizing o o' rs with
  | nil => exact hrun
  | cons call calls ih =>
    obtain ⟨i, offset, length⟩ := call
    obtain ⟨⟨released, o1⟩, hput, hrun⟩ := Option.bind_eq_some_iff.mp hrun
    obtain ⟨rest, hrest, hrun⟩ := Option.bind_eq_some_iff.mp hrun
    obtain rfl := Option.some.inj hrun
    obtain ⟨o1', hput', h1⟩ := h.putRef hput
    have hrest' := ih h1 rest hrest
    simp [Onode.putRefs, hput', hrest']

/-- A reloadable onode releases the same after `decode`. -/
theorem Reloadable.twin {o : Onode} (h : Reloadable o) : Twin o o.reloaded := by
  refine ⟨h.unshared, fun i j hij => ((o.reloaded_shares i j).mp hij).1, fun i e r he hr => ?_⟩
  have hmem : e ∈ o.extents := List.mem_of_getElem? he
  refine ⟨{ e with blob := some i }, i, ?_, rfl, ?_⟩
  · rw [Onode.getElem?_reloaded, he]
    simp [hr]
  · rw [Onode.reloaded_blobs he hr]
    refine ⟨rfl, ?_⟩
    rcases h.unreferenced e hmem r hr with href | hspace
    · exact .inl ⟨href, rfl⟩
    · exact .inr ⟨hspace, hspace⟩

/-- A reloadable onode comes back as good as it was. -/
theorem Reloadable.sameOnode {o : Onode} (h : Reloadable o) : SameOnode o o.reloaded where
  onode := rfl
  present := h.present.symm
  extents := by
    rw [Onode.reloaded_extents]
    apply List.ext_getElem?
    intro i
    simp only [List.getElem?_map, List.getElem?_mapIdx, Option.map_map]
    rfl
  blobs := by
    rw [Onode.reloaded_blobOf]
    apply List.map_congr_left
    intro e he
    cases hr : e.blob with
    | none => simp [Onode.blobOf, hr]
    | some r => simp [Onode.blobOf, hr, (BlobT.stored_eq_iff _).mpr (h.tidy e he r hr)]
  sharing := fun i j => by
    rw [Onode.reloaded_shares]
    constructor
    · rintro ⟨rfl, hii⟩
      exact hii
    · intro hij
      obtain rfl := h.unshared i j hij
      exact ⟨rfl, hij⟩
  releases := h.twin.putRefs

/-- What holds of an onode that comes back. -/
theorem SameOnode.reloadable {o : Onode} (h : SameOnode o o.reloaded) : Reloadable o where
  present := h.present.symm
  tidy := fun e he r hr => by
    have hblobs := h.blobs
    rw [Onode.reloaded_blobOf, List.map_inj_left] at hblobs
    have := hblobs e he
    rw [← BlobT.stored_eq_iff]
    simpa [Onode.blobOf, Option.mem_def.mp hr] using this
  unshared := fun i j hij => ((o.reloaded_shares i j).mp ((h.sharing i j).mpr hij)).1
  unreferenced := fun e he r hr => by
    by_contra hboth
    push Not at hboth
    obtain ⟨href, x, hx, hvalid⟩ := hboth
    obtain ⟨i, hi⟩ := List.getElem?_of_mem he
    -- Giving back no bytes tells the trackers apart.
    obtain ⟨b', hput⟩ := Blob.putRef_zero (by simpa using href) 0
    obtain ⟨b1, hput1, -⟩ := Blob.putRef_of_new
      (show (o.reloaded.blobs i).used.count = .total 0 by rw [Onode.reloaded_blobs hi hr]; rfl) 0 0
    have hrun := h.releases [(i, 0, 0)] [[]] (by
      simp [Onode.putRefs, Onode.putRef, hi, Option.mem_def.mp hr, hput])
    rw [Onode.reloaded_blobs hi hr] at hput1
    have hreleased : ((o.blobs r).blob.stored.extents.filter PExtent.isValid) = [] := by
      simpa [Onode.putRefs, Onode.putRef, Onode.getElem?_reloaded, hi, Option.mem_def.mp hr,
        Onode.reloaded_blobs hi hr, hput1] using hrun
    exact List.filter_eq_nil_iff.mp hreleased x hx hvalid

/-- The encoding of an onode gives it back exactly when it shares no blob among its extents and no
blob with allocated space is referred to in its use tracker. -/
theorem onode_round_trips (o : Onode) (h : o.encode.length < 2 ^ 32) :
    RoundTrips o ↔ Reloadable o := by
  constructor
  · rintro ⟨o', hdecode, hsame⟩
    rw [Onode.decode_encode h] at hdecode
    obtain rfl := (Prod.mk.inj (Option.some.inj hdecode)).1
    exact hsame.reloadable
  · intro hreload
    exact ⟨o.reloaded, Onode.decode_encode h, hreload.sameOnode⟩

/-- What is stored is what the flags say. -/
theorem BlobT.tidy_stored (b : BlobT) : b.stored.Tidy := by
  unfold BlobT.Tidy BlobT.stored
  constructor
  · intro h
    simp [h]
  · intro h
    simp [h]

/-- An onode that was read from the KV store can be written and read again. -/
theorem reloadable_reloaded (o : Onode) : Reloadable o.reloaded := by
  have hblob : ∀ e ∈ o.reloaded.extents, ∀ r ∈ e.blob,
      ∃ b : BlobT, o.reloaded.blobs r = ⟨b.stored, .new⟩ := by
    intro e he r hr
    obtain ⟨i, hi⟩ := List.getElem?_of_mem he
    rw [Onode.getElem?_reloaded] at hi
    obtain ⟨e0, he0, rfl⟩ := Option.map_eq_some_iff.mp hi
    obtain ⟨r0, hr0, rfl⟩ := Option.map_eq_some_iff.mp hr
    exact ⟨_, Onode.reloaded_blobs he0 hr0⟩
  refine ⟨rfl, fun e he r hr => ?_, fun i j hij => ((o.reloaded_shares i j).mp hij).1,
    fun e he r hr => .inl ?_⟩
  · obtain ⟨b, hb⟩ := hblob e he r hr
    rw [hb]
    exact b.tidy_stored
  · obtain ⟨b, hb⟩ := hblob e he r hr
    rw [hb]
    rfl

/-! ## An onode after a write -/

/-- The blob of a write of 8192 bytes that got two pieces of the device: `allocated`, then
`get_ref`. -/
def writtenBlob : Blob :=
  ((⟨({} : BlobT).allocated 8192 [⟨65536, 4096⟩, ⟨131072, 4096⟩], .new⟩ : Blob).getRef 0 8192 4096
    (by decide)).getD .new

/-- A new object after this write. -/
def writtenOnode : Onode where
  onode := ⟨1, 8192, .empty, [], 0, 0, 0, 0⟩
  extentMap := SortedList.empty.insert ⟨0, 0, 8192, some 0⟩
  present := true
  blobs := Function.update (fun _ => .new) 0 writtenBlob

/-- The encoding of the written onode is short. -/
theorem length_encode_writtenOnode : writtenOnode.encode.length < 2 ^ 32 := by
  decide +kernel

/-- So is that of the reloaded one. -/
theorem length_encode_reloaded : writtenOnode.reloaded.encode.length < 2 ^ 32 := by
  decide +kernel

/-- The condition is met by an onode that was read from the KV store and not changed since. -/
theorem onode_round_trips_reloaded :
    writtenOnode.reloaded.encode.length < 2 ^ 32 ∧ RoundTrips writtenOnode.reloaded := by
  refine ⟨length_encode_reloaded, (onode_round_trips _ length_encode_reloaded).mpr ?_⟩
  exact reloadable_reloaded writtenOnode

/-- The onode does not come back: where the first half is punched out, the onode releases the first
piece, and the one that was read from the KV store releases both. -/
theorem writtenOnode_not_reloaded : ¬ RoundTrips writtenOnode ∧
    writtenOnode.putRefs [(0, 0, 4096)] = some [[⟨65536, 4096⟩]] ∧
    (Onode.decode writtenOnode.encode).bind (fun o => o.1.putRefs [(0, 0, 4096)]) =
      some [[⟨65536, 4096⟩, ⟨131072, 4096⟩]] := by
  refine ⟨?_, by decide +kernel, ?_⟩
  · rintro ⟨o', hdecode, hsame⟩
    rw [Onode.decode_encode length_encode_writtenOnode] at hdecode
    obtain rfl := (Prod.mk.inj (Option.some.inj hdecode)).1
    rcases hsame.reloadable.unreferenced ⟨0, 0, 8192, some 0⟩ (by decide) 0 rfl with href | hspace
    · exact absurd href (by decide)
    · exact hspace (by decide)
  · rw [Onode.decode_encode length_encode_writtenOnode]
    decide +kernel

end CxxLab.Bluestore.Object
