import CxxLab.Bluestore.Blob

/-!
# The layout of a blob

The extents of a blob lie end to end, so an offset of the blob is mapped by its position alone. The
layout of a blob is the list of the addresses of its bytes, with `none` in a hole; the two lookups,
`bluestore_blob_t::map` and `_blob_to_phys`, read it.
-/

namespace CxxLab.Bluestore.Object

/-- The larger of two numbers. -/
theorem toNat_max64 (a b : UInt64) : (max a b).toNat = max a.toNat b.toNat := by
  show (if a ≤ b then b else a).toNat = max a.toNat b.toNat
  split_ifs with h
  · exact (max_eq_right (UInt64.le_iff_toNat_le.mp h)).symm
  · exact (max_eq_left (not_le.mp fun hle => h (UInt64.le_iff_toNat_le.mpr hle)).le).symm

/-- The smaller of two numbers. -/
theorem toNat_min64 (a b : UInt64) : (min a b).toNat = min a.toNat b.toNat := by
  show (if a ≤ b then a else b).toNat = min a.toNat b.toNat
  split_ifs with h
  · exact (min_eq_left (UInt64.le_iff_toNat_le.mp h)).symm
  · exact (min_eq_right (not_le.mp fun hle => h (UInt64.le_iff_toNat_le.mpr hle)).le).symm

/-! ## Lookups -/

namespace PExtent

/-- The addresses of the bytes of an extent, which mean nothing in a hole. -/
def raw (e : PExtent) : List UInt64 :=
  (List.range e.length.toNat).map fun i => e.offset + UInt64.ofNat i

/-- The addresses of the bytes of an extent; a hole has none. -/
def bytes (e : PExtent) : List (Option UInt64) :=
  e.raw.map fun p => if e.isValid then some p else none

/-- There is an address for each byte of an extent. -/
@[simp] theorem length_raw (e : PExtent) : e.raw.length = e.length.toNat := by
  simp [raw]

/-- So there is with the holes. -/
@[simp] theorem length_bytes (e : PExtent) : e.bytes.length = e.length.toNat := by
  simp [bytes]

/-- A hole has no addresses. -/
theorem bytes_of_hole {e : PExtent} (h : e.isValid = false) : ∀ a ∈ e.bytes, a = none := by
  intro a ha
  obtain ⟨p, -, rfl⟩ := List.mem_map.mp ha
  simp [h]

/-- An extent that is no hole has those of its bytes. -/
theorem bytes_of_valid {e : PExtent} (h : e.isValid = true) : e.bytes = e.raw.map some := by
  simp [bytes, h]

end PExtent

/-- Where the ranges start and stop. -/
def spans (logical : List PExtent) : List (ℕ × ℕ) :=
  logical.map fun l => (l.offset.toNat, l.offset.toNat + l.length.toNat)

/-- The total length of some extents. -/
def totalLength (es : List PExtent) : ℕ := (es.map fun e => e.length.toNat).sum

/-- No extents have no length. -/
@[simp] theorem totalLength_nil : totalLength [] = 0 := rfl

/-- The first extent counts with its length. -/
@[simp] theorem totalLength_cons (e : PExtent) (es : List PExtent) :
    totalLength (e :: es) = e.length.toNat + totalLength es := rfl

/-- The lengths of two lists of extents add up. -/
@[simp] theorem totalLength_append (a b : List PExtent) :
    totalLength (a ++ b) = totalLength a + totalLength b := by
  simp [totalLength]

/-- The extents of a blob with the offset of each. -/
def placed : ℕ → List PExtent → List (ℕ × PExtent)
  | _, [] => []
  | off, e :: es => (off, e) :: placed (off + e.length.toNat) es

/-- No extent is placed before the start. -/
theorem le_of_mem_placed {off : ℕ} {es : List PExtent} {p : ℕ × PExtent} (h : p ∈ placed off es) :
    off ≤ p.1 := by
  induction es generalizing off with
  | nil => cases h
  | cons e es ih =>
    rcases List.mem_cons.mp h with rfl | h
    · exact le_rfl
    · exact (Nat.le_add_right _ _).trans (ih h)

/-- The addresses of the bytes of extents that lie end to end. -/
def layout (es : List PExtent) : List (Option UInt64) := es.flatMap PExtent.bytes

/-- No extents have no layout. -/
@[simp] theorem layout_nil : layout [] = [] := rfl

/-- The addresses of the first extent come first. -/
@[simp] theorem layout_cons (e : PExtent) (es : List PExtent) :
    layout (e :: es) = e.bytes ++ layout es := rfl

/-- The address at a position of a layout: none in a hole, and none beyond the end. -/
def addressAt (l : List (Option UInt64)) (x : ℕ) : Option UInt64 := l.getD x none

/-- A position in the first part of a layout. -/
theorem addressAt_append_left {a b : List (Option UInt64)} {x : ℕ} (h : x < a.length) :
    addressAt (a ++ b) x = addressAt a x :=
  List.getD_append _ _ _ _ h

/-- A position in the second part. -/
theorem addressAt_append_right {a b : List (Option UInt64)} {x : ℕ} (h : a.length ≤ x) :
    addressAt (a ++ b) x = addressAt b (x - a.length) :=
  List.getD_append_right _ _ _ _ h

/-- Beyond the end there is no address. -/
theorem addressAt_of_le {l : List (Option UInt64)} {x : ℕ} (h : l.length ≤ x) :
    addressAt l x = none :=
  List.getD_eq_default _ _ h

/-- A position in front of the place where a layout is cut. -/
theorem addressAt_take (l : List (Option UInt64)) {n x : ℕ} (h : x < n) :
    addressAt (l.take n) x = addressAt l x := by
  unfold addressAt
  rw [List.getD_eq_getElem?_getD, List.getD_eq_getElem?_getD, List.getElem?_take_of_lt h]

/-- A position behind the place where a layout is cut. -/
theorem addressAt_drop (l : List (Option UInt64)) (n x : ℕ) :
    addressAt (l.drop n) x = addressAt l (n + x) := by
  unfold addressAt
  rw [List.getD_eq_getElem?_getD, List.getD_eq_getElem?_getD, List.getElem?_drop]

/-- A layout of holes has no address anywhere. -/
theorem addressAt_of_holes {l : List (Option UInt64)} (h : ∀ a ∈ l, a = none) (x : ℕ) :
    addressAt l x = none := by
  rcases Nat.lt_or_ge x l.length with hlt | hge
  · exact (List.getD_eq_getElem _ _ hlt).trans (h _ (List.getElem_mem hlt))
  · exact addressAt_of_le hge

/-- The addresses of an extent follow its offset. -/
theorem addressAt_bytes {e : PExtent} (h : e.isValid = true) {x : ℕ} (hx : x < e.length.toNat) :
    addressAt e.bytes x = some (e.offset + UInt64.ofNat x) := by
  have hlen : x < e.bytes.length := by rwa [PExtent.length_bytes]
  rw [addressAt, List.getD_eq_getElem _ _ hlen]
  simp [PExtent.bytes, PExtent.raw, h]

/-- A position behind the first extent. -/
theorem addressAt_cons_add (e : PExtent) (es : List PExtent) (x : ℕ) :
    addressAt (layout (e :: es)) (e.length.toNat + x) = addressAt (layout es) x := by
  rw [layout_cons, addressAt_append_right (by rw [PExtent.length_bytes]; omega),
    PExtent.length_bytes, Nat.add_sub_cancel_left]

namespace BlobT

/-- The address that an offset of the blob is mapped to. -/
def physAt (b : BlobT) (x : ℕ) : Option UInt64 := addressAt (layout b.extents) x

/-- The loop of `_blob_to_phys`. -/
def blobToPhysFrom (bOff : UInt64) : UInt64 → List PExtent → UInt64
  | _, [] => 0
  | off, e :: es =>
    if bOff ≥ off ∧ bOff < off + e.length.toUInt64 then e.offset + (bOff - off)
    else blobToPhysFrom bOff (off + e.length.toUInt64) es

/-- `_blob_to_phys`. -/
def blobToPhys (b : BlobT) (bOff : UInt64) : UInt64 := blobToPhysFrom bOff 0 b.extents

/-- A round of `map`: what it calls its function with, if the extent overlaps the range. -/
def mapRound (bOff bLen extentOff : UInt64) (ex : PExtent) : List (UInt64 × UInt64) :=
  let extentEnd := extentOff + ex.length.toUInt64
  if bOff < extentEnd ∧ bOff + bLen > extentOff then
    let s := max bOff extentOff
    let eEnd := min (bOff + bLen) extentEnd
    [(ex.offset + (s - extentOff), eEnd - s)]
  else []

/-- The loop of `map`: the address and the length of each piece, in the order of the calls. -/
def mapFrom (bOff bLen : UInt64) : UInt64 → List PExtent → List (UInt64 × UInt64)
  | _, [] => []
  | extentOff, ex :: exs =>
    let extentEnd := extentOff + ex.length.toUInt64
    mapRound bOff bLen extentOff ex ++
      if extentEnd ≥ bOff + bLen then [] else mapFrom bOff bLen extentEnd exs

/-- `map`. -/
def map (b : BlobT) (bOff bLen : UInt64) : List (UInt64 × UInt64) := mapFrom bOff bLen 0 b.extents

/-- The loop of `_blob_to_phys` answers the address at the position. -/
theorem blobToPhysFrom_eq {bOff : UInt64} (es : List PExtent) {off : UInt64}
    (hfit : off.toNat + totalLength es < 2 ^ 64) (hoff : off.toNat ≤ bOff.toNat) :
    blobToPhysFrom bOff off es = (es.flatMap PExtent.raw).getD (bOff.toNat - off.toNat) 0 := by
  induction es generalizing off with
  | nil => rfl
  | cons e es ih =>
    rw [totalLength_cons] at hfit
    have hstop : (off + e.length.toUInt64).toNat = off.toNat + e.length.toNat := by
      rw [UInt64.toNat_add, UInt32.toNat_toUInt64, Nat.mod_eq_of_lt (by omega)]
    rw [blobToPhysFrom, List.flatMap_cons]
    simp only [ge_iff_le, UInt64.le_iff_toNat_le, UInt64.lt_iff_toNat_lt, hstop]
    split_ifs with hin
    · rw [List.getD_append _ _ _ _ (by rw [PExtent.length_raw]; omega),
        List.getD_eq_getElem _ _ (by rw [PExtent.length_raw]; omega)]
      simp only [PExtent.raw, List.getElem_map, List.getElem_range]
      rw [← UInt64.toNat_sub_of_le _ _ (UInt64.le_iff_toNat_le.mpr hoff), UInt64.ofNat_toNat]
    · rw [ih (by omega) (by omega), hstop,
        List.getD_append_right _ _ _ _ (by rw [PExtent.length_raw]; omega), PExtent.length_raw,
        Nat.sub_sub]

/-- The addresses of a piece that `map` passes on. -/
def pieceBytes (p : UInt64 × UInt64) : List UInt64 :=
  (List.range p.2.toNat).map fun i => p.1 + UInt64.ofNat i

/-- A part of an extent. -/
theorem pieceBytes_part (e : PExtent) {s n : UInt64} (h : s.toNat + n.toNat ≤ e.length.toNat) :
    pieceBytes (e.offset + s, n) = (e.raw.take (s.toNat + n.toNat)).drop s.toNat := by
  apply List.ext_getElem
  · simp only [pieceBytes, List.length_map, List.length_range, List.length_drop, List.length_take,
      PExtent.length_raw]
    omega
  · intro i hi hi'
    simp only [pieceBytes, PExtent.raw, List.getElem_map, List.getElem_range, List.getElem_drop,
      List.getElem_take, UInt64.ofNat_add, UInt64.ofNat_toNat, UInt64.add_assoc]

section
variable {bOff bLen off : UInt64}

/-- A round of `map` passes on what the extent has of the range. -/
theorem mapRound_eq (hend : bOff.toNat + bLen.toNat < 2 ^ 64) {e : PExtent}
    (hfit : off.toNat + e.length.toNat < 2 ^ 64) :
    (mapRound bOff bLen off e).flatMap pieceBytes =
      (e.raw.take (bOff.toNat + bLen.toNat - off.toNat)).drop (bOff.toNat - off.toNat) := by
  have hstop : (off + e.length.toUInt64).toNat = off.toNat + e.length.toNat := by
    rw [UInt64.toNat_add, UInt32.toNat_toUInt64, Nat.mod_eq_of_lt hfit]
  have hbend : (bOff + bLen).toNat = bOff.toNat + bLen.toNat := by
    rw [UInt64.toNat_add, Nat.mod_eq_of_lt hend]
  have hs : (max bOff off).toNat = max bOff.toNat off.toNat := toNat_max64 bOff off
  have ht : (min (bOff + bLen) (off + e.length.toUInt64)).toNat =
      min (bOff.toNat + bLen.toNat) (off.toNat + e.length.toNat) := by
    rw [toNat_min64, hbend, hstop]
  unfold mapRound
  simp only [gt_iff_lt, UInt64.lt_iff_toNat_lt, hstop, hbend]
  split_ifs with hin
  · have hs' : (max bOff off - off).toNat = bOff.toNat - off.toNat := by
      rw [UInt64.toNat_sub_of_le _ _ (UInt64.le_iff_toNat_le.mpr (by omega)), hs]
      omega
    have hn : (min (bOff + bLen) (off + e.length.toUInt64) - max bOff off).toNat =
        min (bOff.toNat + bLen.toNat) (off.toNat + e.length.toNat) -
          max bOff.toNat off.toNat := by
      rw [UInt64.toNat_sub_of_le _ _ (UInt64.le_iff_toNat_le.mpr (by omega)), hs, ht]
    rw [List.flatMap_singleton, pieceBytes_part e (by omega), hs', hn]
    -- The range ends in the extent or beyond it.
    rcases Nat.le_total (off.toNat + e.length.toNat) (bOff.toNat + bLen.toNat) with hle | hle
    · rw [List.take_of_length_le (by rw [PExtent.length_raw]; omega),
        List.take_of_length_le (by rw [PExtent.length_raw]; omega)]
    · congr 2
      omega
  · symm
    rw [List.flatMap_nil, List.drop_eq_nil_iff, List.length_take, PExtent.length_raw]
    omega

/-- The loop of `map` passes on the addresses at the positions, in order. -/
theorem mapFrom_eq (hend : bOff.toNat + bLen.toNat < 2 ^ 64) (es : List PExtent)
    (hfit : off.toNat + totalLength es < 2 ^ 64) :
    (mapFrom bOff bLen off es).flatMap pieceBytes =
      ((es.flatMap PExtent.raw).take (bOff.toNat + bLen.toNat - off.toNat)).drop
        (bOff.toNat - off.toNat) := by
  induction es generalizing off with
  | nil => simp [mapFrom]
  | cons e es ih =>
    rw [totalLength_cons] at hfit
    have hstop : (off + e.length.toUInt64).toNat = off.toNat + e.length.toNat := by
      rw [UInt64.toNat_add, UInt32.toNat_toUInt64, Nat.mod_eq_of_lt (by omega)]
    have hbend : (bOff + bLen).toNat = bOff.toNat + bLen.toNat := by
      rw [UInt64.toNat_add, Nat.mod_eq_of_lt hend]
    have hrest := @ih (off + e.length.toUInt64) (by omega)
    rw [hstop] at hrest
    rw [mapFrom, List.flatMap_append, mapRound_eq hend (by omega), List.flatMap_cons,
      List.take_append, List.drop_append, PExtent.length_raw]
    simp only [ge_iff_le, UInt64.le_iff_toNat_le, hstop, hbend]
    congr 1
    split_ifs with hlast
    · have hnone : bOff.toNat + bLen.toNat - off.toNat - e.length.toNat = 0 := by omega
      rw [hnone, List.take_zero, List.drop_nil, List.flatMap_nil]
    · rw [hrest, List.length_take, PExtent.length_raw, Nat.sub_sub, Nat.sub_sub,
        Nat.min_eq_right (by omega)]

end

/-- A mapped byte has its address in the layout with the holes. -/
theorem raw_of_addressAt {es : List PExtent} {x : ℕ} {p : UInt64}
    (h : addressAt (layout es) x = some p) : (es.flatMap PExtent.raw)[x]? = some p := by
  induction es generalizing x with
  | nil => simp [addressAt] at h
  | cons e es ih =>
    rw [layout_cons] at h
    rw [List.flatMap_cons]
    rcases Nat.lt_or_ge x e.length.toNat with hx | hx
    · rw [addressAt_append_left (by rwa [PExtent.length_bytes])] at h
      rw [List.getElem?_append_left (by rwa [PExtent.length_raw])]
      cases hv : e.isValid with
      | false =>
        rw [addressAt_of_holes (PExtent.bytes_of_hole hv)] at h
        cases h
      | true =>
        rw [addressAt_bytes hv hx] at h
        simpa [PExtent.raw, hx] using h
    · rw [addressAt_append_right (by rwa [PExtent.length_bytes]), PExtent.length_bytes] at h
      rw [List.getElem?_append_right (by rwa [PExtent.length_raw]), PExtent.length_raw]
      exact ih h

/-- `_blob_to_phys` answers the address of a mapped byte. -/
theorem blobToPhys_of_physAt {b : BlobT} (hfit : totalLength b.extents < 2 ^ 64) {x : UInt64}
    {p : UInt64} (h : b.physAt x.toNat = some p) : b.blobToPhys x = p := by
  have hfrom := @blobToPhysFrom_eq x b.extents 0 (by simpa using hfit) (by simp)
  rw [UInt64.toNat_zero, Nat.sub_zero] at hfrom
  rw [blobToPhys, hfrom, List.getD_eq_getElem?_getD, raw_of_addressAt h]
  rfl

/-- `map` passes on the address of a mapped byte at its place. -/
theorem map_of_physAt {b : BlobT} (hfit : totalLength b.extents < 2 ^ 64) {bOff bLen : UInt64}
    (hend : bOff.toNat + bLen.toNat < 2 ^ 64) {i : ℕ} (hi : i < bLen.toNat) {p : UInt64}
    (h : b.physAt (bOff.toNat + i) = some p) :
    ((b.map bOff bLen).flatMap pieceBytes)[i]? = some p := by
  have hfrom := @mapFrom_eq bOff bLen 0 hend b.extents (by simpa using hfit)
  rw [UInt64.toNat_zero, Nat.sub_zero, Nat.sub_zero] at hfrom
  rw [map, hfrom, List.getElem?_drop, List.getElem?_take_of_lt (by omega)]
  exact raw_of_addressAt h

end BlobT

end CxxLab.Bluestore.Object
