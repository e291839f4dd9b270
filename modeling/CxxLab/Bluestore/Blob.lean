import Mathlib

/-!
# Blobs

`bluestore_blob_t`, its use tracker and the `Blob` that has both, from `bluestore_types.h`,
`bluestore_types.cc` and `blob.cc`. A blob maps a range of blob offsets to physical extents; the use
tracker counts, for each allocation unit, the bytes that logical extents refer to, and `put_ref`
gives back the space of the units whose count falls to zero.
-/

namespace CxxLab.Bluestore.Object

/-! ## Physical extents and `bluestore_blob_t` -/

/-- `pextent_t`. -/
structure PExtent where
  offset : UInt64
  length : UInt32
  deriving DecidableEq, Repr

/-- `INVALID_OFFSET`. -/
def invalidOffset : UInt64 := 0xffffffffffffffff

/-- `is_valid`. -/
def PExtent.isValid (e : PExtent) : Bool := e.offset != invalidOffset

/-- `bluestore_blob_t`. -/
structure BlobT where
  extents : List PExtent := []
  logicalLength : UInt32 := 0
  flags : UInt32 := 0
  /-- `csum_type`; `CSUM_NONE` is 1. -/
  csumType : UInt8 := 1
  csumChunkOrder : UInt8 := 0
  csumData : List UInt8 := []
  unused : UInt16 := 0
  deriving DecidableEq, Repr

namespace BlobT

/-- `has_csum`, which is `has_flag(FLAG_CSUM)`. -/
def hasCsum (flags : UInt32) : Bool := flags &&& 4 != 0

/-- `has_unused`, which is `has_flag(FLAG_HAS_UNUSED)`. -/
def hasUnused (flags : UInt32) : Bool := flags &&& 8 != 0

/-- `get_csum_chunk_size`. -/
def csumChunkSize (b : BlobT) : UInt32 := 1 <<< b.csumChunkOrder.toUInt32

/-- `allocated`. -/
def allocated (b : BlobT) (length : UInt32) (allocs : List PExtent) : BlobT :=
  { b with extents := allocs, logicalLength := length }

/-- The loop of `release_extents`: the extents that are kept and those that are released. An extent
that starts at `off` goes when one range of `logical` covers it. -/
def splitReleased (logical : List PExtent) : UInt32 → List PExtent → List PExtent × List PExtent
  | _, [] => ([], [])
  | off, e :: es =>
    let stop := off + e.length
    let (kept, gone) := splitReleased logical stop es
    if logical.any fun l => l.offset ≤ off.toUInt64 && l.offset + l.length.toUInt64 ≥ stop.toUInt64
    then (kept, e :: gone)
    else (e :: kept, gone)

/-- `release_extents`: the blob that is left, and the space that is released. -/
def releaseExtents (b : BlobT) (all : Bool) (logical : List PExtent) : BlobT × List PExtent :=
  if all then ({ b with extents := [], logicalLength := 0 }, b.extents.filter PExtent.isValid)
  else
    let (kept, gone) := splitReleased logical 0 b.extents
    ({ b with extents := kept, logicalLength := (kept.map PExtent.length).sum },
      gone.filter PExtent.isValid)

/-- Some of the blob's space is allocated. -/
def HasSpace (b : BlobT) : Prop := ∃ e ∈ b.extents, e.isValid = true

instance (b : BlobT) : Decidable b.HasSpace := inferInstanceAs (Decidable (∃ e ∈ b.extents, _))

end BlobT

/-! ## The use tracker -/

/-- The counters of a use tracker. -/
inductive UseCount where
  /-- `num_au` is 0: `total_bytes`. -/
  | total (bytes : UInt32)
  /-- `bytes_per_au`. -/
  | perAu (bytes : List UInt32)
  deriving DecidableEq, Repr

/-- `bluestore_blob_use_tracker_t`. -/
structure UseTracker where
  auSize : UInt32
  count : UseCount
  /-- Counters for units are made by `init` alone, which divides by their size. -/
  au_pos : (∃ bytes, count = .perAu bytes) → 0 < auSize

namespace UseTracker

/-- The tracker of a new blob. -/
def new : UseTracker := ⟨0, .total 0, by simp⟩

/-- `is_empty`. -/
def isEmpty (t : UseTracker) : Bool :=
  match t.count with
  | .total n => n == 0
  | .perAu bytes => bytes.all (· == 0)

/-- `init`. -/
def init (fullLength auSize : UInt32) (h : 0 < auSize) : UseTracker :=
  let numAu := (fullLength + auSize - 1) / auSize
  ⟨auSize, if numAu ≤ 1 then .total 0 else .perAu (List.replicate numAu.toNat 0), fun _ => h⟩

/-- The loop of `get`, over the units of `[offset, stop)`; a unit beyond the last one is out of
bounds. Every round takes at least a byte of the range. -/
def getLoop (au stop : UInt32) : ℕ → UInt32 → List UInt32 → Option (List UInt32)
  | 0, _, _ => none
  | fuel + 1, offset, bytes =>
    if offset < stop then do
      let pos := (offset / au).toNat
      let diff := min (au - offset % au) (stop - offset)
      let n ← bytes[pos]?
      getLoop au stop fuel (offset + diff) (bytes.set pos (n + diff))
    else some bytes

/-- `get`. -/
def get (t : UseTracker) (offset len : UInt32) : Option UseTracker :=
  match h : t.count with
  | .total n => some ⟨t.auSize, .total (n + len), by simp⟩
  | .perAu bytes =>
    (getLoop t.auSize (offset + len) (len.toNat + 1) offset bytes).map fun bytes' =>
      ⟨t.auSize, .perAu bytes', fun _ => t.au_pos ⟨bytes, h⟩⟩

/-- What the loop of `put` has done: the counters, the released ranges, the offset after the last of
them, and whether every unit so far is free of references. -/
structure PutState where
  bytes : List UInt32
  release : List PExtent := []
  nextOffs : ℕ := 0
  maybeEmpty : Bool := true

/-- A unit has no references any more. -/
def PutState.releaseUnit (s : PutState) (au : UInt32) (pos : ℕ) : PutState :=
  let start := pos * au.toNat
  match s.release.getLast? with
  | some l =>
    if s.nextOffs = start then
      { s with
        release := s.release.dropLast ++ [{ l with length := l.length + au }]
        nextOffs := s.nextOffs + au.toNat }
    else
      { s with
        release := s.release ++ [⟨UInt64.ofNat start, au⟩]
        nextOffs := start + au.toNat }
  | none =>
    { s with release := [⟨UInt64.ofNat start, au⟩], nextOffs := start + au.toNat }

/-- The loop of `put`. It stops with `none` where the assertion fails that a unit has as many
references as are given back, and where a unit is out of bounds. Every round takes references away,
so their sum bounds the rounds. -/
def putLoop (au stop : UInt32) : ℕ → UInt32 → PutState → Option PutState
  | 0, _, _ => none
  | fuel + 1, offset, s =>
    if offset < stop then do
      let phase := offset % au
      let pos := (offset / au).toNat
      let diff := min (au - phase) (stop - offset)
      let n ← s.bytes[pos]?
      if n < diff then none
      else
        let s := { s with bytes := s.bytes.set pos (n - diff) }
        let offset := offset + (if phase = 0 then au else au - phase)
        putLoop au stop fuel offset
          (if n - diff = 0 then s.releaseUnit au pos else { s with maybeEmpty := false })
    else some s

/-- `put`: whether nothing refers to the blob any more, the released ranges otherwise, and the
tracker. -/
def put (t : UseTracker) (offset len : UInt32) : Option (Bool × List PExtent × UseTracker) :=
  match h : t.count with
  | .total n =>
    if n ≤ len then some (true, [], ⟨t.auSize, .total 0, by simp⟩)
    else some (false, [], ⟨t.auSize, .total (n - len), by simp⟩)
  | .perAu bytes =>
    (putLoop t.auSize (offset + len) ((bytes.map UInt32.toNat).sum + 1) offset { bytes }).map
      fun s =>
        let t' : UseTracker := ⟨t.auSize, .perAu s.bytes, fun _ => t.au_pos ⟨bytes, h⟩⟩
        let empty := s.maybeEmpty && t'.isEmpty
        (empty, if empty then [] else s.release, t')

/-- A round of the loops covers at least a byte. -/
theorem round_pos {au offset stop : UInt32} (hau : 0 < au) (h : offset < stop) :
    0 < min (au - offset % au) (stop - offset) := by
  rw [UInt32.lt_iff_toNat_lt] at hau h
  have hmod : (offset % au).toNat < au.toNat := by
    rw [UInt32.toNat_mod]
    exact Nat.mod_lt _ hau
  have h1 : 0 < au - offset % au := by
    rw [UInt32.lt_iff_toNat_lt, UInt32.toNat_sub_of_le _ _ (UInt32.le_iff_toNat_le.mpr hmod.le)]
    exact Nat.sub_pos_of_lt hmod
  have h2 : 0 < stop - offset := by
    rw [UInt32.lt_iff_toNat_lt, UInt32.toNat_sub_of_le _ _ (UInt32.le_iff_toNat_le.mpr h.le)]
    exact Nat.sub_pos_of_lt h
  show 0 < if au - offset % au ≤ stop - offset then au - offset % au else stop - offset
  split_ifs
  · exact h1
  · exact h2

end UseTracker

/-! ## `Blob` -/

/-- `Blob`. -/
structure Blob where
  /-- `blob_`. -/
  blob : BlobT
  /-- `used_in_blob_`. -/
  used : UseTracker

namespace Blob

/-- A new blob. -/
def new : Blob := ⟨{}, .new⟩

/-- `is_referenced`. -/
def isReferenced (b : Blob) : Bool := !b.used.isEmpty

/-- `get_ref`; `none` where the assertion fails that the blob has a length. -/
def getRef (b : Blob) (offset length minAllocSize : UInt32) (h : 0 < minAllocSize) : Option Blob :=
  if b.blob.logicalLength = 0 then none
  else
    let minReleaseSize :=
      if BlobT.hasCsum b.blob.flags then max minAllocSize b.blob.csumChunkSize else minAllocSize
    have hpos : 0 < minReleaseSize := by
      have hmax : ∀ x, 0 < max minAllocSize x := by
        intro x
        show 0 < if minAllocSize ≤ x then x else minAllocSize
        split_ifs with hx
        · exact UInt32.lt_of_lt_of_le h hx
        · exact h
      dsimp only [minReleaseSize]
      split_ifs
      · exact hmax _
      · exact h
    let used :=
      if b.used.isEmpty then .init b.blob.logicalLength minReleaseSize hpos else b.used
    (used.get offset length).map fun used => { b with used := used }

/-- `put_ref`: the released space, and the blob. -/
def putRef (b : Blob) (offset length : UInt32) : Option (List PExtent × Blob) :=
  (b.used.put offset length).map fun (empty, logical, used) =>
    if empty = false ∧ logical = [] then ([], { b with used := used })
    else
      let (blob, released) := b.blob.releaseExtents empty logical
      (released, ⟨blob, used⟩)

end Blob

/-! ## What `put_ref` releases -/

namespace BlobT

/-- An extent that is kept or released is one of the blob's. -/
theorem mem_splitReleased {logical : List PExtent} {off : UInt32} {es : List PExtent} {e : PExtent}
    (h : e ∈ (splitReleased logical off es).1 ∨ e ∈ (splitReleased logical off es).2) : e ∈ es := by
  induction es generalizing off with
  | nil => simp [splitReleased] at h
  | cons e' es ih =>
    rw [splitReleased] at h
    dsimp only at h
    split_ifs at h
    · rcases h with h | h
      · exact List.mem_cons_of_mem _ (ih (.inl h))
      · rcases List.mem_cons.mp h with rfl | h
        · exact List.mem_cons_self
        · exact List.mem_cons_of_mem _ (ih (.inr h))
    · rcases h with h | h
      · rcases List.mem_cons.mp h with rfl | h
        · exact List.mem_cons_self
        · exact List.mem_cons_of_mem _ (ih (.inl h))
      · exact List.mem_cons_of_mem _ (ih (.inr h))

/-- Only allocated space is released. -/
theorem releaseExtents_of_not_hasSpace {b : BlobT} (h : ¬ b.HasSpace) (all : Bool)
    (logical : List PExtent) :
    (b.releaseExtents all logical).2 = [] ∧ ¬ (b.releaseExtents all logical).1.HasSpace := by
  have hinvalid : ∀ e ∈ b.extents, ¬ e.isValid = true := fun e he hv => h ⟨e, he, hv⟩
  unfold releaseExtents
  split_ifs
  · refine ⟨List.filter_eq_nil_iff.mpr hinvalid, ?_⟩
    rintro ⟨e, he, -⟩
    cases he
  · refine ⟨List.filter_eq_nil_iff.mpr fun e he => hinvalid e (mem_splitReleased (.inr he)), ?_⟩
    rintro ⟨e, he, hv⟩
    exact hinvalid e (mem_splitReleased (.inl he)) hv

end BlobT

namespace Blob

/-- A blob without allocated space releases nothing. -/
theorem putRef_of_not_hasSpace {b b' : Blob} {offset length : UInt32} {r : List PExtent}
    (h : ¬ b.blob.HasSpace) (hput : b.putRef offset length = some (r, b')) :
    r = [] ∧ ¬ b'.blob.HasSpace := by
  obtain ⟨⟨empty, logical, used⟩, -, hres⟩ := Option.map_eq_some_iff.mp hput
  dsimp only at hres
  split_ifs at hres
  · obtain ⟨rfl, rfl⟩ := Prod.mk.inj hres
    exact ⟨rfl, h⟩
  · obtain ⟨rfl, rfl⟩ := Prod.mk.inj hres
    exact BlobT.releaseExtents_of_not_hasSpace h empty logical

/-- A blob whose tracker says that nothing refers to it releases everything. -/
theorem putRef_of_unreferenced {b b' : Blob} {offset length : UInt32} {r : List PExtent}
    (h : b.isReferenced = false) (hput : b.putRef offset length = some (r, b')) :
    r = b.blob.extents.filter PExtent.isValid ∧ ¬ b'.blob.HasSpace := by
  obtain ⟨⟨empty, logical, used⟩, hused, hres⟩ := Option.map_eq_some_iff.mp hput
  have hempty : b.used.isEmpty = true := by
    simpa [isReferenced] using h
  obtain rfl : empty = true := by
    unfold UseTracker.put at hused
    split at hused
    · rename_i n hcount
      obtain rfl : n = 0 := by simpa [UseTracker.isEmpty, hcount] using hempty
      rw [if_pos UInt32.zero_le] at hused
      exact (congrArg Prod.fst (Option.some.inj hused)).symm
    · rename_i bytes hcount
      have hzero : ∀ n ∈ bytes, n = 0 := by simpa [UseTracker.isEmpty, hcount] using hempty
      have hau := b.used.au_pos ⟨bytes, hcount⟩
      obtain ⟨s, hs, hres⟩ := Option.map_eq_some_iff.mp hused
      -- A round of the loop would have nothing to give back.
      unfold UseTracker.putLoop at hs
      split_ifs at hs with hlt
      · obtain ⟨n, hn, hs⟩ := Option.bind_eq_some_iff.mp hs
        have hn0 : n = 0 := hzero n (List.mem_of_getElem? hn)
        rw [hn0, if_pos (UseTracker.round_pos hau hlt)] at hs
        cases hs
      · obtain rfl := Option.some.inj hs
        have : (bytes.all (· == 0)) = true := by simpa using hzero
        simpa [UseTracker.isEmpty, this] using (congrArg Prod.fst hres).symm
  simp only [Bool.true_eq_false, false_and, if_false] at hres
  obtain ⟨rfl, rfl⟩ := Prod.mk.inj hres
  refine ⟨by simp [BlobT.releaseExtents], ?_⟩
  rintro ⟨e, he, -⟩
  simp [BlobT.releaseExtents] at he

/-- A new tracker lets `put_ref` release everything. -/
theorem putRef_of_new {b : Blob} (h : b.used.count = .total 0) (offset length : UInt32) :
    ∃ b', b.putRef offset length = some (b.blob.extents.filter PExtent.isValid, b') ∧
      b'.used.count = .total 0 ∧ ¬ b'.blob.HasSpace := by
  have hput : b.used.put offset length = some (true, [], ⟨b.used.auSize, .total 0, by simp⟩) := by
    unfold UseTracker.put
    split
    · rename_i n hcount
      obtain rfl : n = 0 := UseCount.total.inj (hcount.symm.trans h)
      rw [if_pos UInt32.zero_le]
    · rename_i bytes hcount
      rw [h] at hcount
      cases hcount
  unfold putRef
  rw [hput]
  refine ⟨_, by simp [BlobT.releaseExtents]; rfl, rfl, ?_⟩
  rintro ⟨e, he, -⟩
  cases he

/-- Giving back no bytes of a blob that is referred to releases nothing. -/
theorem putRef_zero {b : Blob} (h : b.isReferenced = true) (offset : UInt32) :
    ∃ b', b.putRef offset 0 = some ([], b') := by
  have hne : b.used.isEmpty = false := by simpa [isReferenced] using h
  have hput : ∃ t, b.used.put offset 0 = some (false, [], t) := by
    unfold UseTracker.put
    split
    · rename_i n hcount
      have hn : n ≠ 0 := by simpa [UseTracker.isEmpty, hcount] using hne
      have hle : ¬ n ≤ 0 := fun hle => hn (UInt32.le_zero_iff.mp hle)
      rw [if_neg hle]
      exact ⟨_, rfl⟩
    · rename_i bytes hcount
      have hbytes : bytes.all (· == 0) = false := by
        simpa [UseTracker.isEmpty, hcount] using hne
      -- The loop has no round.
      have hloop : UseTracker.putLoop b.used.auSize (offset + 0)
          ((bytes.map UInt32.toNat).sum + 1) offset { bytes } = some { bytes } := by
        unfold UseTracker.putLoop
        rw [if_neg (by simp)]
      rw [hloop]
      exact ⟨_, by simp [UseTracker.isEmpty, hbytes]; rfl⟩
  obtain ⟨t, ht⟩ := hput
  unfold putRef
  rw [ht]
  exact ⟨_, by simp; rfl⟩

end Blob

end CxxLab.Bluestore.Object
