import CxxLab.Bluefs.Types
import Mathlib.Tactic

/-!
# What a node maps

A node as the list of the bytes of the devices that it maps, in the order of the file. Merging
extents does not change it, and a delta has what was not logged.
-/

namespace CxxLab.Bluefs

/-- The bytes of extents: their devices and addresses. -/
def spread (es : List Extent) : List (ℕ × ℕ) :=
  es.flatMap fun e => (List.range' e.offset e.length).map (e.bdev, ·)

/-- The bytes that extents have together. -/
def total (es : List Extent) : ℕ := (es.map Extent.length).sum

/-- No extents have no addresses. -/
@[simp] theorem spread_nil : spread [] = [] := rfl

/-- The addresses of the first extent come first. -/
theorem spread_cons (e : Extent) (es : List Extent) :
    spread (e :: es) = (List.range' e.offset e.length).map (e.bdev, ·) ++ spread es := rfl

/-- The addresses of two lists of extents. -/
theorem spread_append (a b : List Extent) : spread (a ++ b) = spread a ++ spread b :=
  List.flatMap_append

/-- No extents have no length. -/
@[simp] theorem total_nil : total [] = 0 := rfl

/-- The first extent counts with its length. -/
@[simp] theorem total_cons (e : Extent) (es : List Extent) :
    total (e :: es) = e.length + total es := rfl

/-- There are as many addresses as bytes. -/
theorem length_spread (es : List Extent) : (spread es).length = total es := by
  induction es with
  | nil => rfl
  | cons e es ih =>
    rw [spread_cons, List.length_append, ih, List.length_map, List.length_range', total_cons]

/-- The first bytes of an extent. -/
theorem spread_split (e : Extent) {k : ℕ} (hk : k ≤ e.length) :
    spread [e] = spread [⟨e.bdev, e.offset, k⟩] ++
      spread [⟨e.bdev, e.offset + k, e.length - k⟩] := by
  have hrange : List.range' e.offset e.length =
      List.range' e.offset k ++ List.range' (e.offset + k) (e.length - k) := by
    rw [List.range'_append_1, Nat.add_sub_cancel' hk]
  simp only [spread, List.flatMap_singleton]
  rw [← List.map_append, ← hrange]

namespace Fnode

/-- What the node maps. -/
def spread (n : Fnode) : List (ℕ × ℕ) := Bluefs.spread n.extents

/-- The count of a node is right, and no more was logged than there is. -/
structure Sized (n : Fnode) : Prop where
  /-- `allocated`. -/
  allocated : n.allocated = n.spread.length
  /-- `allocated_committed`. -/
  committed : n.allocatedCommitted ≤ n.allocated

/-- An extent that is appended, merged or not. -/
theorem spread_appendExtent (n : Fnode) (e : Extent) :
    (n.appendExtent e).spread = n.spread ++ Bluefs.spread [e] := by
  have hplain : Bluefs.spread (n.extents ++ [e]) = n.spread ++ Bluefs.spread [e] :=
    spread_append _ _
  unfold appendExtent
  cases hlast : n.extents.getLast? with
  | none => exact hplain
  | some last =>
    dsimp only
    split_ifs with hmerge
    · obtain ⟨hstop, hdev, -⟩ := hmerge
      obtain ⟨es, hes⟩ := List.getLast?_eq_some_iff.mp hlast
      have hsplit := spread_split ⟨last.bdev, last.offset, last.length + e.length⟩
        (Nat.le_add_right last.length e.length)
      have hnext : last.offset + last.length = e.offset := hstop
      dsimp only at hsplit
      rw [Nat.add_sub_cancel_left, hnext] at hsplit
      unfold spread
      dsimp only
      rw [hes, List.dropLast_concat, spread_append, spread_append, List.append_assoc, hsplit]
      congr 2
      rw [hdev]
    · exact hplain

/-- An extent that is appended counts as allocated. -/
theorem allocated_appendExtent (n : Fnode) (e : Extent) :
    (n.appendExtent e).allocated = n.allocated + e.length := by
  unfold appendExtent
  cases n.extents.getLast? with
  | none => rfl
  | some last => dsimp only; split_ifs <;> rfl

/-- The fields that an extent does not change. -/
theorem appendExtent_fields (n : Fnode) (e : Extent) :
    (n.appendExtent e).ino = n.ino ∧ (n.appendExtent e).size = n.size ∧
      (n.appendExtent e).mtime = n.mtime ∧
      (n.appendExtent e).allocatedCommitted = n.allocatedCommitted := by
  unfold appendExtent
  cases n.extents.getLast? with
  | none => exact ⟨rfl, rfl, rfl, rfl⟩
  | some last => dsimp only; split_ifs <;> exact ⟨rfl, rfl, rfl, rfl⟩

/-- Extents that are appended one after the other. -/
theorem claimExtents_spec (n : Fnode) (es : List Extent) :
    (n.claimExtents es).spread = n.spread ++ Bluefs.spread es ∧
      (n.claimExtents es).allocated = n.allocated + total es ∧
      (n.claimExtents es).ino = n.ino ∧ (n.claimExtents es).size = n.size ∧
      (n.claimExtents es).mtime = n.mtime ∧
      (n.claimExtents es).allocatedCommitted = n.allocatedCommitted := by
  induction es generalizing n with
  | nil => exact ⟨(List.append_nil _).symm, rfl, rfl, rfl, rfl, rfl⟩
  | cons e es ih =>
    obtain ⟨hspread, hall, hino, hsize, hmtime, hcomm⟩ := ih (n.appendExtent e)
    obtain ⟨hino', hsize', hmtime', hcomm'⟩ := n.appendExtent_fields e
    refine ⟨?_, ?_, hino.trans hino', hsize.trans hsize', hmtime.trans hmtime', hcomm.trans hcomm'⟩
    · calc ((n.appendExtent e).claimExtents es).spread
        _ = (n.appendExtent e).spread ++ Bluefs.spread es := hspread
        _ = (n.spread ++ Bluefs.spread [e]) ++ Bluefs.spread es := by rw [spread_appendExtent]
        _ = n.spread ++ Bluefs.spread (e :: es) := by
          rw [List.append_assoc, ← spread_append, List.singleton_append]
    · calc ((n.appendExtent e).claimExtents es).allocated
        _ = n.allocated + e.length + total es := by rw [hall, allocated_appendExtent]
        _ = n.allocated + total (e :: es) := by rw [total_cons, Nat.add_assoc]

/-- A node that claims extents counts them. -/
theorem Sized.claimExtents {n : Fnode} (h : n.Sized) (es : List Extent) :
    (n.claimExtents es).Sized := by
  obtain ⟨hspread, hall, -, -, -, hcomm⟩ := n.claimExtents_spec es
  refine ⟨?_, ?_⟩
  · rw [hspread, hall, List.length_append, length_spread, h.allocated]
  · rw [hall, hcomm]
    exact h.committed.trans (Nat.le_add_right _ _)

/-- The extent of a delta that is not wholly logged. -/
theorem deltaExtents_cons {committed pos : ℕ} {e : Extent} (es : List Extent)
    (h : committed < pos + e.length) : deltaExtents committed pos (e :: es) =
      ⟨e.bdev, e.offset + (committed - pos), e.length - (committed - pos)⟩ ::
        deltaExtents committed (pos + e.length) es := by
  have hskip : (if pos < committed then committed - pos else 0) = committed - pos := by
    split_ifs <;> omega
  rw [deltaExtents, if_neg (not_le.mpr h)]
  dsimp only
  rw [hskip]
  split_ifs with h0
  · rw [h0]
    rfl
  · rfl

/-- The extents of a delta map what was not logged. -/
theorem spread_deltaExtents (committed : ℕ) (es : List Extent) (pos : ℕ) :
    Bluefs.spread (deltaExtents committed pos es) = (Bluefs.spread es).drop (committed - pos) := by
  induction es generalizing pos with
  | nil => simp [deltaExtents]
  | cons e es ih =>
    have hlen : ((List.range' e.offset e.length).map (e.bdev, ·)).length = e.length := by simp
    by_cases hle : pos + e.length ≤ committed
    · have hgone : ((List.range' e.offset e.length).map (e.bdev, ·)).drop (committed - pos) = [] :=
        List.drop_eq_nil_of_le (by omega)
      rw [deltaExtents, if_pos hle, ih, spread_cons, List.drop_append, hlen, hgone, List.nil_append]
      congr 1
      omega
    · -- The part of the extent that was not logged, and all that follows.
      rw [deltaExtents_cons es (not_le.mp hle), spread_cons, ih, spread_cons, List.drop_append, hlen,
        show committed - (pos + e.length) = 0 by omega,
        show committed - pos - e.length = 0 by omega, List.drop_zero, ← List.map_drop,
        List.drop_range']
      simp

/-- The loop of `recalc_allocated` counts the extents and changes nothing else. -/
theorem recalcExtent_foldl (es : List Extent) (n : Fnode) :
    (es.foldl recalcExtent n).allocated = n.allocated + total es ∧
      (es.foldl recalcExtent n).extents = n.extents ∧ (es.foldl recalcExtent n).ino = n.ino ∧
      (es.foldl recalcExtent n).size = n.size ∧ (es.foldl recalcExtent n).mtime = n.mtime := by
  induction es generalizing n with
  | nil => exact ⟨rfl, rfl, rfl, rfl, rfl⟩
  | cons e es ih =>
    obtain ⟨hall, hext, hino, hsize, hmtime⟩ := ih (n.recalcExtent e)
    refine ⟨?_, hext, hino, hsize, hmtime⟩
    rw [List.foldl_cons, hall, total_cons, ← Nat.add_assoc]
    rfl

/-- A node that was encoded and decoded. -/
theorem decoded_spec (n : Fnode) : n.decoded.allocated = n.spread.length ∧
    n.decoded.spread = n.spread ∧ n.decoded.ino = n.ino ∧ n.decoded.size = n.size ∧
    n.decoded.mtime = n.mtime := by
  obtain ⟨hall, hext, hino, hsize, hmtime⟩ :=
    recalcExtent_foldl n.extents { n with allocated := 0, extentsIndex := [] }
  refine ⟨?_, ?_, hino, hsize, hmtime⟩
  · show (n.extents.foldl recalcExtent _).allocated = _
    rw [hall, spread, length_spread, Nat.zero_add]
  · show Bluefs.spread (n.extents.foldl recalcExtent _).extents = _
    rw [hext]
    rfl

/-! ## Logged nodes -/

/-- A replayed node maps what was logged of a node. -/
structure Logged (n r : Fnode) : Prop where
  /-- How much there is. -/
  allocated : r.allocated = n.allocatedCommitted
  /-- What it maps. -/
  spread : r.spread = n.spread.take n.allocatedCommitted

/-- A replayed node is the node. -/
structure Same (n r : Fnode) : Prop where
  /-- What it maps. -/
  spread : r.spread = n.spread
  size : r.size = n.size
  mtime : r.mtime = n.mtime

/-- `reset_delta` takes everything allocated for committed. -/
theorem resetDelta_sized {n : Fnode} (h : n.allocated = n.spread.length) : n.resetDelta.Sized :=
  ⟨h, le_refl n.allocated⟩

/-- What was logged of a node does not change when extents are appended. -/
theorem Logged.claimExtents {n r : Fnode} (h : n.Logged r) (hn : n.Sized) (es : List Extent)
    (size : ℕ) : Logged { n.claimExtents es with size := size } r := by
  obtain ⟨hspread, -, -, -, -, hcomm⟩ := n.claimExtents_spec es
  have hle : n.allocatedCommitted ≤ n.spread.length := hn.allocated ▸ hn.committed
  refine ⟨h.allocated.trans hcomm.symm, ?_⟩
  show r.spread = (n.claimExtents es).spread.take (n.claimExtents es).allocatedCommitted
  rw [hspread, hcomm, List.take_append_of_le_length hle, h.spread]

/-- A node that was logged as it is. -/
theorem logged_resetDelta {n r : Fnode} (h : n.allocated = n.spread.length)
    (hall : r.allocated = n.allocated) (hspread : r.spread = n.spread) : n.resetDelta.Logged r := by
  refine ⟨hall, ?_⟩
  show r.spread = n.spread.take n.allocated
  rw [hspread, h, List.take_length]

/-- The replay of a full update. -/
theorem logged_decoded {n : Fnode} (h : n.allocated = n.spread.length) :
    n.resetDelta.Logged n.decoded ∧ n.resetDelta.Same n.decoded := by
  obtain ⟨hall, hspread, -, hsize, hmtime⟩ := n.decoded_spec
  exact ⟨logged_resetDelta h (hall.trans h.symm) hspread, hspread, hsize, hmtime⟩

/-- The replay of a delta. -/
theorem logged_delta {n r : Fnode} (h : n.Sized) (hr : n.Logged r) :
    n.resetDelta.Logged
        ({ r with mtime := n.makeDelta.mtime, size := n.makeDelta.size }.claimExtents
          n.makeDelta.extents) ∧
      n.resetDelta.Same
        ({ r with mtime := n.makeDelta.mtime, size := n.makeDelta.size }.claimExtents
          n.makeDelta.extents) := by
  obtain ⟨hspread, hall, -, hsize, hmtime, -⟩ :=
    claimExtents_spec { r with mtime := n.mtime, size := n.size } n.makeDelta.extents
  have hdelta : Bluefs.spread n.makeDelta.extents = n.spread.drop n.allocatedCommitted :=
    spread_deltaExtents n.allocatedCommitted n.extents 0
  have htotal : total n.makeDelta.extents = n.allocated - n.allocatedCommitted := by
    rw [← length_spread, hdelta, List.length_drop, h.allocated]
  have hwhole : r.spread ++ Bluefs.spread n.makeDelta.extents = n.spread := by
    rw [hr.spread, hdelta, List.take_append_drop]
  have hcomm := h.committed
  refine ⟨logged_resetDelta h.allocated ?_ (hspread.trans hwhole), hspread.trans hwhole, hsize,
    hmtime⟩
  rw [show n.makeDelta.mtime = n.mtime from rfl, show n.makeDelta.size = n.size from rfl, hall]
  show r.allocated + total n.makeDelta.extents = n.allocated
  rw [hr.allocated, htotal]
  omega

end Fnode

end CxxLab.Bluefs
