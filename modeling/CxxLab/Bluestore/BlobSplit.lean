import CxxLab.Bluestore.BlobCsum
import CxxLab.Bluestore.BlobLayout
import CxxLab.Bluestore.UseTracker

/-!
# Blob splits

`Blob::split` cuts the extents, the checksums and the use counters of a blob at one offset, each in
its own way. `split_keeps_iff` says when the two blobs have together what the blob had.
-/

namespace CxxLab.Bluestore.Object

namespace BlobT

/-- `can_split`. -/
def canSplit (b : BlobT) : Bool := !hasUnused b.flags

/-- `can_split_at`. -/
def canSplitAt (b : BlobT) (blobOffset : UInt32) : Bool :=
  !hasCsum b.flags || blobOffset % b.csumChunkSize == 0

/-- The right part of an extent that `split` cuts. -/
def cutRight (e : PExtent) (splitLen : UInt32) : PExtent :=
  if e.isValid then ⟨e.offset + splitLen.toUInt64, e.length - splitLen⟩
  else ⟨invalidOffset, e.length - splitLen⟩

/-- The first loop of `split`: the extents that end at or before the split offset. The extent over
it is cut, and the others go to the right. -/
def splitExtents (blobOffset : UInt32) : UInt32 → List PExtent → List PExtent × List PExtent
  | _, [] => ([], [])
  | offset, e :: es =>
    if offset + e.length ≤ blobOffset then
      let (l, r) := splitExtents blobOffset (offset + e.length) es
      (e :: l, r)
    else if offset < blobOffset then
      let splitLen := blobOffset - offset
      ([{ e with length := splitLen }], cutRight e splitLen :: es)
    else ([], e :: es)

/-- `memcpy` of a part of the checksums; `none` where it reads beyond them. -/
def csumPart (b : BlobT) (start size : ℕ) : Option (List UInt8) :=
  if start + size ≤ b.csumData.length then some ((b.csumData.drop start).take size) else none

/-- `split`: the blob that is left, and the one on the right, which was `rb`. -/
def split (b rb : BlobT) (blobOffset : UInt32) : Option (BlobT × BlobT) := do
  let (left, right) := splitExtents blobOffset 0 b.extents
  let rb := { rb with
    extents := right, logicalLength := b.logicalLength - blobOffset, flags := b.flags }
  let lb := { b with extents := left, logicalLength := blobOffset }
  if hasCsum b.flags then
    let csumSize := csumValueSize b.csumType
    let leftChunks := (blobOffset / b.csumChunkSize).toNat
    let rightChunks := (rb.logicalLength / b.csumChunkSize).toNat
    let rightData ← b.csumPart (csumSize * leftChunks) (csumSize * rightChunks)
    let leftData ← b.csumPart 0 (csumSize * leftChunks)
    some ({ lb with csumData := leftData },
      { rb with
        csumData := rightData, csumType := b.csumType, csumChunkOrder := b.csumChunkOrder
        flags := b.flags ||| 4 })
  else some (lb, rb)

end BlobT

namespace Blob

/-- `can_split`. -/
def canSplit (b : Blob) : Bool := b.used.canSplit && b.blob.canSplit

/-- `can_split_at`. -/
def canSplitAt (b : Blob) (blobOffset : UInt32) : Option Bool :=
  (b.used.canSplitAt blobOffset).map (· && b.blob.canSplitAt blobOffset)

/-- `split`, with the low halves of the addresses of the new counters: the blob that is left, and
the one on the right, which was `r`. -/
def split (b r : Blob) (blobOffset ptr ptr' : UInt32) : Option (Blob × Blob) := do
  let (used, rUsed) ← b.used.split blobOffset ptr ptr'
  let (blob, rBlob) ← b.blob.split r.blob blobOffset
  some (⟨blob, used⟩, ⟨rBlob, rUsed⟩)

end Blob

/-! ## The extents -/

section
variable {blobOffset : UInt32} {e : PExtent} {es : List PExtent}

/-- No allocated extent over the split offset reaches `INVALID_OFFSET` there, which would make a hole
of its right part. -/
def CutFits (x off : ℕ) (es : List PExtent) : Prop :=
  ∀ p ∈ placed off es, p.2.isValid = true → p.1 < x → x < p.1 + p.2.length.toNat →
    p.2.offset + UInt64.ofNat (x - p.1) ≠ invalidOffset

/-- The left part of an extent. -/
theorem bytes_left {k : UInt32} (h : k.toNat ≤ e.length.toNat) :
    PExtent.bytes { e with length := k } = e.bytes.take k.toNat := by
  have hraw : PExtent.raw { e with length := k } = e.raw.take k.toNat := by
    rw [PExtent.raw, PExtent.raw, ← List.map_take, List.take_range, Nat.min_eq_left h]
  rw [PExtent.bytes, PExtent.bytes, hraw, ← List.map_take]
  rfl

/-- A number of 32 bits in 64. -/
theorem toUInt64_eq_ofNat (k : UInt32) : k.toUInt64 = UInt64.ofNat k.toNat := by
  rw [← UInt32.toNat_toUInt64, UInt64.ofNat_toNat]

/-- The right part of an extent, unless it reaches `INVALID_OFFSET`. -/
theorem bytes_cutRight {k : UInt32} (h : k.toNat ≤ e.length.toNat)
    (hcut : e.isValid = true → e.offset + UInt64.ofNat k.toNat ≠ invalidOffset) :
    (BlobT.cutRight e k).bytes = e.bytes.drop k.toNat := by
  have hlen : (e.length - k).toNat = e.length.toNat - k.toNat :=
    UInt32.toNat_sub_of_le _ _ (UInt32.le_iff_toNat_le.mpr h)
  unfold BlobT.cutRight
  cases hv : e.isValid with
  | false =>
    -- A hole is as good as any other of its length.
    have hnone : ∀ a : PExtent, a.isValid = false →
        a.bytes = List.replicate a.length.toNat none := fun a ha =>
      List.eq_replicate_iff.mpr ⟨PExtent.length_bytes a, PExtent.bytes_of_hole ha⟩
    rw [if_neg Bool.false_ne_true, hnone e hv, hnone _ (by simp [PExtent.isValid]),
      List.drop_replicate, hlen]
  | true =>
    have hvalid : (⟨e.offset + UInt64.ofNat k.toNat, e.length - k⟩ : PExtent).isValid = true :=
      bne_iff_ne.mpr (hcut hv)
    have hraw : PExtent.raw ⟨e.offset + UInt64.ofNat k.toNat, e.length - k⟩ =
        e.raw.drop k.toNat := by
      apply List.ext_getElem
      · rw [PExtent.length_raw, List.length_drop, PExtent.length_raw, hlen]
      · intro i hi hi'
        simp only [PExtent.raw, List.getElem_map, List.getElem_range, List.getElem_drop,
          UInt64.ofNat_add, UInt64.add_assoc]
    rw [if_pos rfl, toUInt64_eq_ofNat, PExtent.bytes_of_valid hvalid, PExtent.bytes_of_valid hv,
      hraw, List.map_drop]

/-- A right part that reaches `INVALID_OFFSET` is a hole. -/
theorem isValid_cutRight {k : UInt32} (hv : e.isValid = true)
    (hbad : e.offset + UInt64.ofNat k.toNat = invalidOffset) :
    (BlobT.cutRight e k).isValid = false := by
  rw [BlobT.cutRight, if_pos hv, toUInt64_eq_ofNat, hbad]
  rfl

/-- Extents behind the offset are not cut. -/
theorem cutFits_right {x off : ℕ} (h : x ≤ off) : CutFits x off es := by
  intro p hp _ hlt
  exact absurd hlt (h.trans (le_of_mem_placed hp)).not_gt

/-- The first extent can be cut, and so can the others. -/
theorem cutFits_cons {x off : ℕ} :
    CutFits x off (e :: es) ↔
      (e.isValid = true → off < x → x < off + e.length.toNat →
        e.offset + UInt64.ofNat (x - off) ≠ invalidOffset) ∧
      CutFits x (off + e.length.toNat) es := by
  simp only [CutFits, placed, List.forall_mem_cons]

/-- The first loop of `split` cuts the layout in two, if no cut makes a hole. -/
theorem layout_splitExtents {offset : UInt32} (hfit : offset.toNat + totalLength es < 2 ^ 32)
    (hle : offset.toNat ≤ blobOffset.toNat)
    (hcover : blobOffset.toNat ≤ offset.toNat + totalLength es) :
    layout (BlobT.splitExtents blobOffset offset es).1 =
        (layout es).take (blobOffset.toNat - offset.toNat) ∧
      (CutFits blobOffset.toNat offset.toNat es →
        layout (BlobT.splitExtents blobOffset offset es).2 =
          (layout es).drop (blobOffset.toNat - offset.toNat)) ∧
      (addressAt (layout (BlobT.splitExtents blobOffset offset es).2) 0 =
          addressAt (layout es) (blobOffset.toNat - offset.toNat) →
        CutFits blobOffset.toNat offset.toNat es) := by
  induction es generalizing offset with
  | nil =>
    refine ⟨by simp [BlobT.splitExtents], fun _ => by simp [BlobT.splitExtents], fun _ => ?_⟩
    exact fun p hp => absurd hp List.not_mem_nil
  | cons e es ih =>
    rw [totalLength_cons] at hfit hcover
    -- Where the extent ends in the blob.
    have hstop : (offset + e.length).toNat = offset.toNat + e.length.toNat := by
      rw [UInt32.toNat_add, Nat.mod_eq_of_lt (by omega)]
    rw [BlobT.splitExtents]
    simp only [UInt32.le_iff_toNat_le, UInt32.lt_iff_toNat_lt, hstop, cutFits_cons]
    split_ifs with hleft hover
    · -- The extent goes to the left.
      obtain ⟨hl, hr, hcut⟩ := @ih (offset + e.length) (by omega) (by omega) (by omega)
      rw [hstop] at hl hr hcut
      have hsub : blobOffset.toNat - offset.toNat =
          e.length.toNat + (blobOffset.toNat - (offset.toNat + e.length.toNat)) := by omega
      dsimp only
      rw [layout_cons, hl, hsub, addressAt_cons_add, layout_cons, ← PExtent.length_bytes e,
        List.take_length_add_append, List.drop_length_add_append, PExtent.length_bytes]
      exact ⟨rfl, fun h => hr h.2, fun h => ⟨fun _ _ hx => absurd hx hleft.not_gt, hcut h⟩⟩
    · -- The extent is cut.
      have hk : (blobOffset - offset).toNat = blobOffset.toNat - offset.toNat :=
        UInt32.toNat_sub_of_le _ _ (UInt32.le_iff_toNat_le.mpr hle)
      have hin : blobOffset.toNat - offset.toNat < e.bytes.length := by
        rw [PExtent.length_bytes]
        omega
      have htail : CutFits blobOffset.toNat (offset.toNat + e.length.toNat) es :=
        cutFits_right (by omega)
      have hright : (BlobT.cutRight e (blobOffset - offset)).length.toNat =
          e.length.toNat - (blobOffset.toNat - offset.toNat) := by
        have hsub : (e.length - (blobOffset - offset)).toNat =
            e.length.toNat - (blobOffset - offset).toNat :=
          UInt32.toNat_sub_of_le _ _ (UInt32.le_iff_toNat_le.mpr (by omega))
        rw [← hk, ← hsub]
        unfold BlobT.cutRight
        split_ifs
        · rfl
        · rfl
      dsimp only
      rw [layout_cons, layout_nil, List.append_nil, layout_cons, bytes_left (by omega), hk,
        List.take_append_of_le_length hin.le]
      refine ⟨rfl, ?_, ?_⟩
      · rintro ⟨hcut, -⟩
        rw [layout_cons, List.drop_append_of_le_length hin.le, bytes_cutRight (by omega), hk]
        intro hv
        rw [hk]
        exact hcut hv hover (by omega)
      · intro h
        refine ⟨fun hv _ hx hbad => ?_, htail⟩
        -- The right part would be a hole.
        have hhole := @isValid_cutRight _ (blobOffset - offset) hv (by rw [hk]; exact hbad)
        rw [addressAt_append_left hin, addressAt_bytes hv (by omega), layout_cons,
          addressAt_append_left (by rw [PExtent.length_bytes]; omega),
          addressAt_of_holes (PExtent.bytes_of_hole hhole)] at h
        cases h
    · -- The extent and all behind it go to the right.
      have hzero : blobOffset.toNat - offset.toNat = 0 := by omega
      dsimp only
      rw [hzero, List.take_zero, List.drop_zero]
      exact ⟨rfl, fun _ => rfl, fun _ => ⟨fun _ hx => absurd hx hover, cutFits_right (by omega)⟩⟩

end

/-! ## The split -/

/-- There is a checksum for each chunk of the blob and no more. -/
def CsumFits (b : BlobT) : Prop :=
  b.csumData.length =
    BlobT.csumValueSize b.csumType * (b.logicalLength.toNat / b.csumChunkSize.toNat)

/-- The two blobs have together what the blob had: the mapping, the length, the checksums and the
counters. -/
structure Halves (b l r : Blob) (off : ℕ) : Prop where
  left : ∀ x < off, l.blob.physAt x = b.blob.physAt x
  right : ∀ x, off ≤ x → r.blob.physAt (x - off) = b.blob.physAt x
  lengths : l.blob.logicalLength.toNat + r.blob.logicalLength.toNat = b.blob.logicalLength.toNat
  hasCsum : BlobT.hasCsum l.blob.flags = BlobT.hasCsum b.blob.flags ∧
    BlobT.hasCsum r.blob.flags = BlobT.hasCsum b.blob.flags
  csum : BlobT.hasCsum b.blob.flags = true → l.blob.csumData ++ r.blob.csumData = b.blob.csumData
  csumKind : BlobT.hasCsum b.blob.flags = true → ∀ h ∈ [l, r],
    h.blob.csumType = b.blob.csumType ∧ h.blob.csumChunkOrder = b.blob.csumChunkOrder
  counts : b.used.SplitOf l.used r.used

/-- The flag that is set is found. -/
theorem hasCsum_or (flags : UInt32) : BlobT.hasCsum (flags ||| 4) = true := by
  refine bne_iff_ne.mpr fun h => ?_
  have hnat : (flags.toNat ||| 4) &&& 4 = 0 := by
    rw [← UInt32.toNat_inj, UInt32.toNat_and, UInt32.toNat_or] at h
    exact h
  have hbit := congrArg (Nat.testBit · 2) hnat
  rw [Nat.testBit_and, Nat.testBit_or, Nat.zero_testBit, show Nat.testBit 4 2 = true from rfl,
    Bool.or_true] at hbit
  cases hbit

namespace BlobT

/-- A split of a blob without checksums. -/
theorem split_of_not_hasCsum {b : BlobT} (h : hasCsum b.flags = false) (rb : BlobT) (off : UInt32) :
    b.split rb off =
      some ({ b with extents := (splitExtents off 0 b.extents).1, logicalLength := off },
        { rb with
          extents := (splitExtents off 0 b.extents).2
          logicalLength := b.logicalLength - off, flags := b.flags }) := by
  unfold split
  simp only [h, Bool.false_eq_true, if_false]

/-- A split of a blob with checksums copies those of its chunks, if there are as many. -/
theorem split_of_hasCsum {b : BlobT} (h : hasCsum b.flags = true) (rb : BlobT) {off : UInt32}
    (hle : off.toNat ≤ b.logicalLength.toNat) (hat : b.canSplitAt off = true) :
    ∃ chunks, off.toNat / b.csumChunkSize.toNat = chunks ∧
      b.split rb off =
        if csumValueSize b.csumType * (b.logicalLength.toNat / b.csumChunkSize.toNat) ≤
            b.csumData.length then
          some ({ b with
              extents := (splitExtents off 0 b.extents).1, logicalLength := off
              csumData := b.csumData.take (csumValueSize b.csumType * chunks) },
            { rb with
              extents := (splitExtents off 0 b.extents).2
              logicalLength := b.logicalLength - off
              csumData := (b.csumData.drop (csumValueSize b.csumType * chunks)).take
                (csumValueSize b.csumType *
                  (b.logicalLength.toNat / b.csumChunkSize.toNat - chunks))
              csumType := b.csumType, csumChunkOrder := b.csumChunkOrder
              flags := b.flags ||| 4 })
        else none := by
  refine ⟨_, rfl, ?_⟩
  have hpos := b.csumChunkSize_pos
  have hmod : off.toNat % b.csumChunkSize.toNat = 0 := by
    have hzero : off % b.csumChunkSize = 0 := by simpa [canSplitAt, h] using hat
    rw [← UInt32.toNat_mod, hzero]
    rfl
  have hleft : (off / b.csumChunkSize).toNat = off.toNat / b.csumChunkSize.toNat :=
    UInt32.toNat_div _ _
  -- The split offset is where a chunk begins.
  have hright : ((b.logicalLength - off) / b.csumChunkSize).toNat =
      b.logicalLength.toNat / b.csumChunkSize.toNat - off.toNat / b.csumChunkSize.toNat := by
    rw [UInt32.toNat_div, UInt32.toNat_sub_of_le _ _ (UInt32.le_iff_toNat_le.mpr hle)]
    obtain ⟨k, hk⟩ := Nat.dvd_of_mod_eq_zero hmod
    rw [hk, Nat.sub_mul_div, Nat.mul_div_cancel_left _ hpos]
  have hchunks : off.toNat / b.csumChunkSize.toNat ≤
      b.logicalLength.toNat / b.csumChunkSize.toNat := Nat.div_le_div_right hle
  generalize hlc : off.toNat / b.csumChunkSize.toNat = lc at *
  generalize hn : b.logicalLength.toNat / b.csumChunkSize.toNat = n at *
  have hsum : csumValueSize b.csumType * lc + csumValueSize b.csumType * (n - lc) =
      csumValueSize b.csumType * n := by rw [← Nat.mul_add, Nat.add_sub_cancel' hchunks]
  unfold split csumPart
  simp only [h, if_true, hleft, hright, hsum, Nat.zero_add, List.drop_zero]
  split_ifs with hfit hshort
  · rfl
  · exact absurd ((Nat.mul_le_mul_left _ hchunks).trans hfit) hshort
  · rfl
  · rfl

end BlobT

/-- An allowed split strictly inside a blob gives two blobs that have together what the blob had
exactly when there is a checksum for each chunk and no more, and no cut extent reaches
`INVALID_OFFSET`. -/
theorem split_keeps_iff {b : Blob} (hv : b.used.Valid)
    (hfit : totalLength b.blob.extents < 2 ^ 32)
    (hcover : b.blob.logicalLength.toNat ≤ totalLength b.blob.extents) {off : UInt32}
    (hpos : 0 < off) (hlt : off < b.blob.logicalLength) (hsplit : b.canSplit = true)
    (hat : b.canSplitAt off = some true) (r : Blob) (ptr ptr' : UInt32) :
    (∃ l r', b.split r off ptr ptr' = some (l, r') ∧ Halves b l r' off.toNat) ↔
      (BlobT.hasCsum b.blob.flags = true → CsumFits b.blob) ∧
        CutFits off.toNat 0 b.blob.extents := by
  have hlt' := UInt32.lt_iff_toNat_lt.mp hlt
  have hsub : (b.blob.logicalLength - off).toNat = b.blob.logicalLength.toNat - off.toNat :=
    UInt32.toNat_sub_of_le _ _ (UInt32.le_iff_toNat_le.mpr hlt'.le)
  obtain ⟨hused, hblob⟩ : b.used.canSplitAt off = some true ∧ b.blob.canSplitAt off = true := by
    obtain ⟨u, hu, hub⟩ := Option.map_eq_some_iff.mp hat
    obtain ⟨hu', hb⟩ := Bool.and_eq_true_iff.mp hub
    exact ⟨hu' ▸ hu, hb⟩
  -- The counters.
  have hcounts := (UseTracker.split_iff hv (Bool.and_eq_true_iff.mp hsplit).1 hused ptr ptr').mpr
    (UInt32.pos_iff_ne_zero.mp hpos)
  obtain ⟨lUsed, rUsed, hlr, hsplitOf⟩ := hcounts
  -- The extents.
  obtain ⟨hleft, hright, hcut⟩ := @layout_splitExtents off b.blob.extents 0 (by simpa using hfit)
    (by simp) (by simp; omega)
  rw [UInt32.toNat_zero, Nat.sub_zero] at hleft hright hcut
  have hat_left : ∀ x < off.toNat,
      addressAt (layout (BlobT.splitExtents off 0 b.blob.extents).1) x = b.blob.physAt x := by
    intro x hx
    rw [hleft, addressAt_take _ hx]
    rfl
  have hat_right : CutFits off.toNat 0 b.blob.extents → ∀ x, off.toNat ≤ x →
      addressAt (layout (BlobT.splitExtents off 0 b.blob.extents).2) (x - off.toNat) =
        b.blob.physAt x := by
    intro h x hx
    rw [hright h, addressAt_drop, Nat.add_sub_cancel' hx]
    rfl
  have hcut' : (∀ x, off.toNat ≤ x →
      addressAt (layout (BlobT.splitExtents off 0 b.blob.extents).2) (x - off.toNat) =
        b.blob.physAt x) → CutFits off.toNat 0 b.blob.extents := by
    intro h
    have hfirst := h off.toNat le_rfl
    rw [Nat.sub_self] at hfirst
    exact hcut hfirst
  -- The two parts have the lengths of the blob.
  have hlengths : off.toNat + (b.blob.logicalLength - off).toNat =
      b.blob.logicalLength.toNat := by omega
  have hrun : b.split r off ptr ptr' =
      (b.blob.split r.blob off).map fun p => (⟨p.1, lUsed⟩, ⟨p.2, rUsed⟩) := by
    unfold Blob.split
    rw [hlr]
    cases b.blob.split r.blob off with
    | none => rfl
    | some p => rfl
  rw [hrun]
  cases hc : BlobT.hasCsum b.blob.flags with
  -- Without checksums nothing else can go wrong.
  | false =>
    rw [BlobT.split_of_not_hasCsum hc]
    constructor
    · rintro ⟨l, r', hsome, h⟩
      obtain ⟨rfl, rfl⟩ := Prod.mk.inj (Option.some.inj hsome)
      exact ⟨nofun, hcut' h.right⟩
    · rintro ⟨-, h⟩
      refine ⟨_, _, rfl, ⟨hat_left, hat_right h, hlengths, ⟨rfl, rfl⟩, ?_, ?_, hsplitOf⟩⟩
      · exact fun h => absurd (hc.symm.trans h) Bool.false_ne_true
      · exact fun h => absurd (hc.symm.trans h) Bool.false_ne_true
  -- With checksums a whole number of chunks goes to the left.
  | true =>
    obtain ⟨chunks, hchunks, hres⟩ := BlobT.split_of_hasCsum hc r.blob hlt'.le hblob
    have hle : chunks ≤ b.blob.logicalLength.toNat / b.blob.csumChunkSize.toNat := by
      rw [← hchunks]
      exact Nat.div_le_div_right hlt'.le
    -- The words that go to the left and those that stay are all that there are.
    have hsum : BlobT.csumValueSize b.blob.csumType * chunks +
        BlobT.csumValueSize b.blob.csumType *
          (b.blob.logicalLength.toNat / b.blob.csumChunkSize.toNat - chunks) =
        BlobT.csumValueSize b.blob.csumType *
          (b.blob.logicalLength.toNat / b.blob.csumChunkSize.toNat) := by
      rw [← Nat.mul_add, Nat.add_sub_cancel' hle]
    have hcat : ∀ n m (l : List UInt8), l.take n ++ (l.drop n).take m = l.take (n + m) := by
      intro n m l
      rw [List.take_add]
    rw [hres]
    constructor
    · rintro ⟨l, r', hsome, h⟩
      split_ifs at hsome with henough
      · obtain ⟨rfl, rfl⟩ := Prod.mk.inj (Option.some.inj hsome)
        refine ⟨fun _ => ?_, hcut' h.right⟩
        -- What is copied is all there is.
        have hall := h.csum hc
        dsimp only at hall
        rw [hcat, hsum] at hall
        have hlen := congrArg List.length hall
        rw [List.length_take] at hlen
        unfold CsumFits
        omega
      · cases hsome
    · rintro ⟨hcsum, h⟩
      have hcsum := hcsum rfl
      rw [if_pos (by unfold CsumFits at hcsum; omega)]
      refine ⟨_, _, rfl, ⟨hat_left, hat_right h, hlengths, ⟨rfl, ?_⟩, fun _ => ?_, fun _ => ?_,
        hsplitOf⟩⟩
      · dsimp only
        rw [hasCsum_or, hc]
      · dsimp only
        rw [hcat, hsum, List.take_of_length_le hcsum.le]
      · simp

/-- A blob of three units with a checksum for each. -/
def threeUnits : BlobT where
  extents := [⟨0x10000, 0x1000⟩, ⟨0x20000, 0x1000⟩, ⟨0x30000, 0x1000⟩]
  logicalLength := 0x3000
  flags := 4
  csumType := 4
  csumChunkOrder := 12
  csumData := [1, 0, 0, 0, 2, 0, 0, 0, 3, 0, 0, 0]

/-- All three units are referred to. -/
def threeUsed : UseTracker := ⟨0x1000, .perAu [0x1000, 0x1000, 0x1000], fun _ => by decide⟩

/-- The tracker of three units is valid. -/
theorem valid_threeUsed : threeUsed.Valid where
  counters b hb := by
    obtain rfl := UseCount.perAu.inj hb
    exact ⟨by decide, by decide⟩
  unset h0 := absurd h0 (by decide)

/-- The blob of three units is split after the first. -/
theorem split_keeps_threeUnits :
    ∃ l r, Blob.split ⟨threeUnits, threeUsed⟩ .new 0x1000 0 0 = some (l, r) ∧
      Halves ⟨threeUnits, threeUsed⟩ l r 0x1000 := by
  refine (split_keeps_iff (b := ⟨threeUnits, threeUsed⟩) valid_threeUsed (by decide) (by decide)
    (by decide) (by decide) rfl rfl .new 0 0).mpr ⟨fun _ => rfl, ?_⟩
  -- No extent lies over the split offset.
  intro p hp _ hlt hgt
  simp only [threeUnits, placed, List.mem_cons, List.not_mem_nil, or_false] at hp
  rcases hp with rfl | rfl | rfl
  · exact absurd hgt (by decide)
  · exact absurd hlt (by decide)
  · exact absurd hlt (by decide)

/-- When the last of three units is released, its checksum stays; a split of what is left then loses
it. -/
theorem split_loses_csum :
    ∃ b released l r, Blob.putRef ⟨threeUnits, threeUsed⟩ 0x2000 0x1000 = some (released, b) ∧
      b.blob.logicalLength = 0x2000 ∧ totalLength b.blob.extents = 0x2000 ∧ b.canSplit = true ∧
      b.canSplitAt 0x1000 = some true ∧ b.split .new 0x1000 0 0 = some (l, r) ∧
      l.blob.csumData ++ r.blob.csumData ≠ b.blob.csumData :=
  ⟨_, _, _, _, rfl, rfl, rfl, rfl, rfl, rfl, by decide⟩

end CxxLab.Bluestore.Object
