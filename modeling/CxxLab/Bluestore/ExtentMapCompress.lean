import CxxLab.Bluestore.ExtentMap

/-!
# Merging neighbours in the extent map

`compress_extent_map` of `extent_map.cc`, which replaces two extents by one where the second goes
on in the blob where the first ends. After each merge it starts again from the beginning.

What the loop does is a sequence of merges that ends when nothing in the range is left to merge
(`compressLoop_spec`). A merge keeps what the map says of every byte unless the length of the merged
extent has more than 32 bits.
-/

namespace CxxLab.Bluestore.Object.ExtentMap

/-! ## The functions of the source -/

/-- The walk over the physical extents of a blob from `blobOff` on: the physical places of the blob
offsets `currEnd` and `nextStart`, each as it was where no extent has the offset. -/
def physWalk (currEnd nextStart : UInt32) : List PExtent → UInt32 → UInt64 × UInt64 → UInt64 × UInt64
  | [], _, p => p
  | e :: es, blobOff, (currPhysEnd, nextPhysStart) =>
    physWalk currEnd nextStart es (blobOff + e.length)
      (if blobOff ≤ currEnd ∧ currEnd < blobOff + e.length
        then e.offset + (currEnd - blobOff).toUInt64 else currPhysEnd,
      if blobOff ≤ nextStart ∧ nextStart < blobOff + e.length
        then e.offset + (nextStart - blobOff).toUInt64 else nextPhysStart)

/-- The loop of `compress_extent_map`, in at most `fuel` rounds. A null blob of two neighbours ends
it with `none`. -/
def compressLoop (blobs : ℕ → Blob) (offset stop : UInt64) :
    ℕ → ExtentMap → Option Extent → ℕ → Option (ExtentMap × ℕ)
  | _, m, none, compressed => some (m, compressed)
  | 0, _, some _, _ => none
  | fuel + 1, m, some it, compressed =>
    if it.logicalOffset.toUInt64 ≥ stop then some (m, compressed)
    else if it.logicalEnd.toUInt64 ≤ offset then
      compressLoop blobs offset stop fuel m (m.next it.start) compressed
    else
      match m.next it.start with
      | none => some (m, compressed)
      | some next =>
        if it.logicalEnd = next.logicalOffset ∧ it.blob = next.blob ∧
            it.blobOffset + it.length = next.blobOffset then
          match it.blob with
          | none => none
          | some b =>
            let phys := physWalk (it.blobOffset + it.length) next.blobOffset
              (blobs b).blob.extents 0 (0, 0)
            if phys.1 ≠ phys.2 then
              compressLoop blobs offset stop fuel m (some next) compressed
            else
              let newLen := it.length + next.length
              let erased : ExtentMap := (m.remove it.start).remove next.start
              let merged : ExtentMap :=
                erased.insert ⟨it.logicalOffset, it.blobOffset, newLen, it.blob⟩
              compressLoop blobs offset stop fuel merged merged.front (compressed + 1)
        else compressLoop blobs offset stop fuel m (some next) compressed

/-- `compress_extent_map`; `none` also if the loop were not over after as many rounds as the square
of the number of extents. -/
def compressExtentMap (blobs : ℕ → Blob) (m : ExtentMap) (offset length : UInt64) :
    Option (ExtentMap × ℕ) :=
  compressLoop blobs offset (offset + length) ((m.toList.length + 1) ^ 2) m m.front 0

/-! ## Bytes and use trackers -/

/-- The extents are apart. -/
def Spread (m : ExtentMap) : Prop := ∀ e ∈ m.toList, ∀ f ∈ m.toList, e = f ∨ e.Apart f

instance (m : ExtentMap) : Decidable m.Spread :=
  inferInstanceAs (Decidable (∀ e ∈ m.toList, ∀ f ∈ m.toList, e = f ∨ e.Apart f))

/-- The number of bytes that refer to bytes of the blob `b` whose offsets satisfy `p`. -/
noncomputable def referenced (m : ExtentMap) (b : ℕ) (p : UInt32 → Prop) : ℕ :=
  {x : ℕ | ∃ o, m.Mapped x (some b) o ∧ p o}.ncard

/-- The use tracker of every blob counts the bytes that refer to it. -/
def Counted (blobs : ℕ → Blob) (m : ExtentMap) : Prop :=
  ∀ b, match (blobs b).used.count with
    | .total n => n.toNat = m.referenced b fun _ => True
    | .perAu bytes => ∀ i (h : i < bytes.length),
        (bytes[i]).toNat = m.referenced b fun o => (o / (blobs b).used.auSize).toNat = i

/-- `m'` says the same as `m`, with `k` extents fewer. -/
structure Compressed (blobs : ℕ → Blob) (m m' : ExtentMap) (k : ℕ) : Prop where
  spread : m'.Spread
  mapped : ∀ x b o, m'.Mapped x b o ↔ m.Mapped x b o
  removed : m'.toList.length + k = m.toList.length
  counted : Counted blobs m → Counted blobs m'

/-! ## Merges -/

/-- The second extent goes on where the first ends, as the loop tests it. -/
def Continues (e f : Extent) : Prop :=
  e.logicalEnd = f.logicalOffset ∧ e.blob = f.blob ∧ e.blobOffset + e.length = f.blobOffset

/-- The extent that takes the place of two. -/
def merge (e f : Extent) : Extent := ⟨e.logicalOffset, e.blobOffset, e.length + f.length, e.blob⟩

/-- The map with two extents merged. -/
def mergeAt (m : ExtentMap) (e f : Extent) : ExtentMap :=
  ((m.remove e.start).remove f.start).insert (merge e f)

/-- The extent overlaps the range. -/
def InRange (offset stop : UInt64) (e : Extent) : Prop :=
  e.start < stop.toNat ∧ offset.toNat < e.stop

/-- The neighbours `e` and `f` are merged. -/
structure Merging (offset stop : UInt64) (m : ExtentMap) (e f : Extent) : Prop where
  mem : e ∈ m.toList
  next : m.next e.start = some f
  inRange : InRange offset stop e
  continues : Continues e f

/-- `k` merges lead from `m` to `m'`. -/
inductive Merges (offset stop : UInt64) : ExtentMap → ExtentMap → ℕ → Prop
  | refl (m : ExtentMap) : Merges offset stop m m 0
  | step {m m' : ExtentMap} {e f : Extent} {k : ℕ} (h : Merging offset stop m e f)
      (rest : Merges offset stop (m.mergeAt e f) m' k) : Merges offset stop m m' (k + 1)

/-- Nothing in the range is left to merge. -/
def Settled (offset stop : UInt64) (m : ExtentMap) : Prop := ∀ e f, ¬ Merging offset stop m e f

variable {m m' : ExtentMap} {e f : Extent} {offset stop : UInt64} {k : ℕ}

/-- An extent stops before the next one starts. -/
theorem Spread.stop_le (h : m.Spread) (he : e ∈ m.toList) (hf : f ∈ m.toList)
    (hlt : e.start < f.start) : e.stop ≤ f.start := by
  rcases h e he f hf with rfl | hap
  · exact absurd hlt (lt_irrefl _)
  · exact hap.stop_le hlt

/-- An extent that another one follows ends within 32 bits. -/
theorem Spread.logicalEnd_toNat (h : m.Spread) (he : e ∈ m.toList)
    (hn : m.next e.start = some f) : e.logicalEnd.toNat = e.stop := by
  obtain ⟨hf, hlt, -⟩ := SortedList.next_eq_some hn
  exact Extent.logicalEnd_toNat ((h.stop_le he hf hlt).trans_lt f.logicalOffset.toNat_lt)

/-- The length of a merged extent has 32 bits. -/
theorem stop_merge (e f : Extent) :
    (merge e f).stop = e.start + (e.length.toNat + f.length.toNat) % 2 ^ 32 := by
  show e.start + (e.length + f.length).toNat = _
  rw [UInt32.toNat_add]

namespace Merging

variable (h : Merging offset stop m e f) (hm : m.Spread)

include h

/-- The second extent is in the map. -/
theorem mem_right : f ∈ m.toList := (SortedList.next_eq_some h.next).1

/-- The second extent starts behind the first one. -/
theorem start_lt : e.start < f.start := (SortedList.next_eq_some h.next).2.1

/-- The merged extent takes the place of the two. -/
theorem mem_mergeAt (c : Extent) :
    c ∈ (m.mergeAt e f).toList ↔ c = merge e f ∨ (c ∈ m.toList ∧ c ≠ e ∧ c ≠ f) := by
  have hfree : ∀ c ∈ ((m.remove e.start).remove f.start).toList, c.start ≠ (merge e f).start := by
    intro c hc
    exact (SortedList.mem_remove.mp (SortedList.mem_remove.mp hc).1).2
  have hmem : c ∈ ((m.remove e.start).remove f.start).toList ↔ c ∈ m.toList ∧ c ≠ e ∧ c ≠ f := by
    rw [SortedList.mem_remove, SortedList.mem_remove, and_assoc]
    refine and_congr_right fun hc => and_congr ?_ ?_
    · exact ⟨fun hne heq => hne (heq ▸ rfl), fun hne heq => hne (SortedList.eq_of_key_eq hc h.mem heq)⟩
    · exact ⟨fun hne heq => hne (heq ▸ rfl),
        fun hne heq => hne (SortedList.eq_of_key_eq hc h.mem_right heq)⟩
  rw [mergeAt, SortedList.mem_insert hfree, hmem]

/-- A merge takes one extent from the map. -/
theorem length_mergeAt : (m.mergeAt e f).toList.length + 1 = m.toList.length := by
  have hfree : ∀ c ∈ ((m.remove e.start).remove f.start).toList, c.start ≠ (merge e f).start := by
    intro c hc
    exact (SortedList.mem_remove.mp (SortedList.mem_remove.mp hc).1).2
  have hf : f ∈ (m.remove e.start).toList :=
    SortedList.mem_remove.mpr ⟨h.mem_right, h.start_lt.ne'⟩
  calc (m.mergeAt e f).toList.length + 1
      = ((m.remove e.start).remove f.start).toList.length + 1 + 1 := by
        rw [mergeAt, SortedList.length_insert hfree]
    _ = (m.remove e.start).toList.length + 1 := by rw [SortedList.length_remove hf]
    _ = m.toList.length := SortedList.length_remove h.mem

include hm

/-- The first extent stops where the second one starts. -/
theorem stop_eq : e.stop = f.start := by
  rw [← hm.logicalEnd_toNat h.mem h.next, h.continues.1]

/-- The merged extent stops where the second one does. -/
theorem stop_merge_le : (merge e f).stop ≤ f.stop := by
  have hle := Nat.mod_le (e.length.toNat + f.length.toNat) (2 ^ 32)
  have heq := h.stop_eq hm
  rw [stop_merge]
  unfold Extent.stop at heq ⊢
  omega

/-- What the merged extent says of a byte, one of the two says. -/
theorem maps_merge {x : ℕ} {b : Option ℕ} {o : UInt32} :
    (merge e f).Maps x b o ↔ x < (merge e f).stop ∧ (e.Maps x b o ∨ f.Maps x b o) := by
  have heq := h.stop_eq hm
  obtain ⟨-, hblob, hoff⟩ := h.continues
  have hes : e.stop = e.start + e.length.toNat := rfl
  have hoffset : ∀ x, f.start ≤ x →
      e.blobOffset + UInt32.ofNat (x - e.start) = f.blobOffset + UInt32.ofNat (x - f.start) := by
    intro x hx
    have hsum : x - e.start = e.length.toNat + (x - f.start) := by omega
    rw [hsum, UInt32.ofNat_add, UInt32.ofNat_toNat, ← UInt32.add_assoc, hoff]
  have hle := h.stop_merge_le hm
  constructor
  · rintro ⟨hlo, hhi, hb, ho⟩
    refine ⟨hhi, ?_⟩
    by_cases hx : x < e.stop
    · exact .inl ⟨hlo, hx, hb, ho⟩
    · rw [not_lt, heq] at hx
      exact .inr ⟨hx, hhi.trans_le hle, hblob.symm.trans hb, (hoffset x hx).symm.trans ho⟩
  · rintro ⟨hhi, ⟨hlo, -, hb, ho⟩ | ⟨hlo, -, hb, ho⟩⟩
    · exact ⟨hlo, hhi, hb, ho⟩
    · exact ⟨h.start_lt.le.trans hlo, hhi, hblob.trans hb, (hoffset x hlo).trans ho⟩

/-- The map says nothing new after a merge. -/
theorem mapped_of_mergeAt {x : ℕ} {b : Option ℕ} {o : UInt32} (hx : (m.mergeAt e f).Mapped x b o) :
    m.Mapped x b o := by
  obtain ⟨c, hc, hcx⟩ := hx
  rcases (h.mem_mergeAt c).mp hc with rfl | ⟨hc, -⟩
  · rcases ((h.maps_merge hm).mp hcx).2 with hex | hfx
    · exact ⟨e, h.mem, hex⟩
    · exact ⟨f, h.mem_right, hfx⟩
  · exact ⟨c, hc, hcx⟩

/-- The map stays spread. -/
theorem spread_mergeAt : (m.mergeAt e f).Spread := by
  have hg : ∀ c ∈ m.toList, c ≠ e → c ≠ f → (merge e f).Apart c := by
    intro c hc hce hcf
    have hle := h.stop_merge_le hm
    have heq := h.stop_eq hm
    -- What is before `e` ends before it, what is after `f` starts after it.
    rcases lt_trichotomy c.start e.start with hlt | hsame | hgt
    · have hle : c.stop ≤ e.start := hm.stop_le hc h.mem hlt
      exact .inr hle
    · exact absurd (SortedList.eq_of_key_eq hc h.mem hsame) hce
    · have hfc : f.start ≤ c.start := (SortedList.next_eq_some h.next).2.2 c hc hgt
      have hne : f.start ≠ c.start := fun hsame =>
        hcf (SortedList.eq_of_key_eq hc h.mem_right hsame.symm)
      exact .inl (hle.trans (hm.stop_le h.mem_right hc (lt_of_le_of_ne hfc hne)))
  intro c hc d hd
  rcases (h.mem_mergeAt c).mp hc with rfl | ⟨hc, hce, hcf⟩ <;>
    rcases (h.mem_mergeAt d).mp hd with rfl | ⟨hd, hde, hdf⟩
  · exact .inl rfl
  · exact .inr (hg d hd hde hdf)
  · exact .inr (hg c hc hce hcf).symm
  · exact hm c hc d hd

/-- A merge whose length has no more than 32 bits keeps what the map says. -/
theorem mapped_mergeAt (hfit : e.length.toNat + f.length.toNat < 2 ^ 32) (x : ℕ) (b : Option ℕ)
    (o : UInt32) : (m.mergeAt e f).Mapped x b o ↔ m.Mapped x b o := by
  refine ⟨h.mapped_of_mergeAt hm, ?_⟩
  have heq := h.stop_eq hm
  have hstop : (merge e f).stop = f.stop := by
    rw [stop_merge, Nat.mod_eq_of_lt hfit]
    unfold Extent.stop at heq ⊢
    omega
  rintro ⟨c, hc, hcx⟩
  by_cases hce : c = e
  · subst hce
    refine ⟨merge c f, (h.mem_mergeAt _).mpr (.inl rfl), (h.maps_merge hm).mpr ⟨?_, .inl hcx⟩⟩
    rw [hstop]
    exact hcx.2.1.trans_le (heq.le.trans f.start_le_stop)
  · by_cases hcf : c = f
    · subst hcf
      refine ⟨merge e c, (h.mem_mergeAt _).mpr (.inl rfl), (h.maps_merge hm).mpr ⟨?_, .inr hcx⟩⟩
      rw [hstop]
      exact hcx.2.1
    · exact ⟨c, (h.mem_mergeAt c).mpr (.inr ⟨hc, hce, hcf⟩), hcx⟩

/-- Any other merge loses the last byte of the second extent. -/
theorem not_mapped_mergeAt (hfit : 2 ^ 32 ≤ e.length.toNat + f.length.toNat) :
    ∃ x b o, m.Mapped x b o ∧ ¬ (m.mergeAt e f).Mapped x b o := by
  have heq := h.stop_eq hm
  have hpos : 0 < f.length.toNat := by
    have := e.length.toNat_lt
    omega
  have hstop : f.stop = f.start + f.length.toNat := rfl
  refine ⟨f.stop - 1, f.blob, _, ⟨f, h.mem_right, by omega, by omega, rfl, rfl⟩, ?_⟩
  rintro ⟨c, hc, hlo, hhi, -⟩
  rcases (h.mem_mergeAt c).mp hc with rfl | ⟨hc, hce, hcf⟩
  · have hlt := f.length.toNat_lt
    have hlt' := e.length.toNat_lt
    have hes : e.stop = e.start + e.length.toNat := rfl
    rw [stop_merge] at hhi
    omega
  · rcases (hm c hc f h.mem_right).resolve_left hcf with hap | hap <;> omega

end Merging

/-! ## Extents with more than 32 bits to come -/

/-- An extent in the range begins `2 ^ 32` bytes that are mapped to its blob, one after the
other. -/
def Overlong (offset stop : UInt64) (m : ExtentMap) : Prop :=
  ∃ e ∈ m.toList, InRange offset stop e ∧ ∀ x, e.start ≤ x → x < e.start + 2 ^ 32 →
    m.Mapped x e.blob (e.blobOffset + UInt32.ofNat (x - e.start))

namespace Merging

variable (h : Merging offset stop m e f) (hm : m.Spread)

include h hm

/-- The bytes of two neighbours are mapped to their blob, one after the other. -/
theorem mapped_neighbours {x : ℕ} (hlo : e.start ≤ x) (hhi : x < f.stop) :
    m.Mapped x e.blob (e.blobOffset + UInt32.ofNat (x - e.start)) := by
  have heq := h.stop_eq hm
  obtain ⟨-, hblob, hoff⟩ := h.continues
  by_cases hx : x < e.stop
  · exact ⟨e, h.mem, hlo, hx, rfl, rfl⟩
  · have hes : e.stop = e.start + e.length.toNat := rfl
    refine ⟨f, h.mem_right, by omega, hhi, hblob.symm, ?_⟩
    have hsum : x - e.start = e.length.toNat + (x - f.start) := by omega
    rw [hsum, UInt32.ofNat_add, UInt32.ofNat_toNat, ← UInt32.add_assoc, hoff]

/-- The lengths of two extents that are merged fit 32 bits, if nothing is too long. -/
theorem fits (hover : ¬ Overlong offset stop m) : e.length.toNat + f.length.toNat < 2 ^ 32 := by
  have heq := h.stop_eq hm
  have hes : e.stop = e.start + e.length.toNat := rfl
  have hfs : f.stop = f.start + f.length.toNat := rfl
  by_contra hle
  exact hover ⟨e, h.mem, h.inRange, fun x hlo hhi => h.mapped_neighbours hm hlo (by omega)⟩

/-- Such an extent is there before a merge if there is one after it, and the other way. -/
theorem overlong_mergeAt (hfit : e.length.toNat + f.length.toNat < 2 ^ 32) :
    Overlong offset stop (m.mergeAt e f) ↔ Overlong offset stop m := by
  have heq := h.stop_eq hm
  have hmapped := h.mapped_mergeAt hm hfit
  have hstop : (merge e f).stop = f.stop := by
    rw [stop_merge, Nat.mod_eq_of_lt hfit]
    unfold Extent.stop at heq ⊢
    omega
  constructor
  · rintro ⟨c, hc, hr, hall⟩
    rcases (h.mem_mergeAt c).mp hc with rfl | ⟨hc, -⟩
    · exact ⟨e, h.mem, h.inRange, fun x hlo hhi => (hmapped _ _ _).mp (hall x hlo hhi)⟩
    · exact ⟨c, hc, hr, fun x hlo hhi => (hmapped _ _ _).mp (hall x hlo hhi)⟩
  · rintro ⟨c, hc, hr, hall⟩
    have hgr : InRange offset stop (merge e f) := by
      refine ⟨h.inRange.1, h.inRange.2.trans_le ?_⟩
      rw [hstop, heq]
      exact f.start_le_stop
    have hg : (merge e f) ∈ (m.mergeAt e f).toList := (h.mem_mergeAt _).mpr (.inl rfl)
    by_cases hce : c = e
    · subst hce
      exact ⟨merge c f, hg, hgr, fun x hlo hhi => (hmapped _ _ _).mpr (hall x hlo hhi)⟩
    · by_cases hcf : c = f
      · subst hcf
        refine ⟨merge e c, hg, hgr, fun x hlo hhi => (hmapped _ _ _).mpr ?_⟩
        -- From the start of `e` on, the bytes are those of `e` and those from `c` on.
        by_cases hx : x < c.stop
        · exact h.mapped_neighbours hm hlo hx
        · obtain ⟨-, hblob, hoff⟩ := h.continues
          have hes : e.stop = e.start + e.length.toNat := rfl
          have hlt := h.start_lt
          have hcs := c.start_le_stop
          have hin := hall x (by omega) (by
            have hhi' : x < e.start + 2 ^ 32 := hhi
            omega)
          have hsum : x - e.start = e.length.toNat + (x - c.start) := by omega
          show m.Mapped x e.blob (e.blobOffset + UInt32.ofNat (x - e.start))
          rw [hsum, UInt32.ofNat_add, UInt32.ofNat_toNat, ← UInt32.add_assoc, hoff, hblob]
          exact hin
      · exact ⟨c, (h.mem_mergeAt c).mpr (.inr ⟨hc, hce, hcf⟩), hr,
          fun x hlo hhi => (hmapped _ _ _).mpr (hall x hlo hhi)⟩

end Merging

/-- Such an extent is followed by one that goes on, so it is not there when nothing is left to
merge. -/
theorem Settled.not_overlong (hs : Settled offset stop m) (hm : m.Spread) :
    ¬ Overlong offset stop m := by
  rintro ⟨e, he, hr, hall⟩
  have hes : e.stop = e.start + e.length.toNat := rfl
  have hlt := e.length.toNat_lt
  obtain ⟨f, hf, hlo, hhi, hblob, hoff⟩ := hall e.stop e.start_le_stop (by omega)
  -- The extent that maps the byte after `e` starts there.
  have hne : e ≠ f := by
    rintro rfl
    exact lt_irrefl _ hhi
  have hstart : e.stop = f.start := by
    rcases (hm e he f hf).resolve_left hne with hap | hap
    · exact le_antisymm hap hlo
    · have := e.start_le_stop
      omega
  have hkey : e.start < f.start := by
    refine lt_of_le_of_ne (e.start_le_stop.trans hstart.le) fun hsame => ?_
    exact hne (SortedList.eq_of_key_eq he hf hsame)
  have hnext : m.next e.start = some f := by
    cases hn : m.next e.start with
    | none => exact absurd (SortedList.next_eq_none hn f hf) (not_le.mpr hkey)
    | some g =>
      obtain ⟨hg, hlt, hleast⟩ := SortedList.next_eq_some hn
      have hge : e.stop ≤ g.start := hm.stop_le he hg hlt
      have hgf : g.start ≤ f.start := hleast f hf hkey
      rw [SortedList.eq_of_key_eq hg hf (le_antisymm hgf (hstart.ge.trans hge))]
  refine hs e f ⟨he, hnext, hr, ?_, hblob.symm, ?_⟩
  · rw [← UInt32.toNat_inj, hm.logicalEnd_toNat he hnext, hstart]
  · have hsum : e.stop - e.start = e.length.toNat := by omega
    have hzero : e.stop - f.start = 0 := by omega
    rw [hsum, hzero, UInt32.ofNat_toNat] at hoff
    exact hoff.symm.trans (UInt32.add_zero _)

/-! ## Sequences of merges -/

namespace Merges

/-- A map stays spread whatever is merged. -/
theorem spread (h : Merges offset stop m m' k) (hm : m.Spread) : m'.Spread := by
  induction h with
  | refl m => exact hm
  | step h rest ih => exact ih (h.spread_mergeAt hm)

/-- Each merge takes an extent out. -/
theorem length (h : Merges offset stop m m' k) : m'.toList.length + k = m.toList.length := by
  induction h with
  | refl m => rfl
  | step h rest ih => rw [← h.length_mergeAt, ← ih, Nat.add_assoc]

/-- What is mapped after the merges was mapped before. -/
theorem mapped_of (h : Merges offset stop m m' k) (hm : m.Spread) {x : ℕ} {b : Option ℕ}
    {o : UInt32} (hx : m'.Mapped x b o) : m.Mapped x b o := by
  induction h with
  | refl m => exact hx
  | step h rest ih => exact h.mapped_of_mergeAt hm (ih (h.spread_mergeAt hm) hx)

/-- Merges keep what the map says, where no length comes to more than 32 bits. -/
theorem mapped_iff (h : Merges offset stop m m' k) (hm : m.Spread)
    (hover : ¬ Overlong offset stop m) (x : ℕ) (b : Option ℕ) (o : UInt32) :
    m'.Mapped x b o ↔ m.Mapped x b o := by
  induction h with
  | refl m => exact Iff.rfl
  | step h rest ih =>
    have hfit := h.fits hm hover
    rw [ih (h.spread_mergeAt hm) (mt (h.overlong_mergeAt hm hfit).mp hover),
      h.mapped_mergeAt hm hfit]

/-- Where one does, and the merges go on as long as there are any, a byte is lost. -/
theorem exists_lost (h : Merges offset stop m m' k) (hm : m.Spread) (hs : Settled offset stop m')
    (hover : Overlong offset stop m) : ∃ x b o, m.Mapped x b o ∧ ¬ m'.Mapped x b o := by
  induction h with
  | refl m => exact absurd hover (hs.not_overlong hm)
  | step h rest ih =>
    have hspread := h.spread_mergeAt hm
    rcases lt_or_ge (_ + _) (2 ^ 32) with hfit | hlong
    · obtain ⟨x, b, o, hx, hlost⟩ := ih hspread hs ((h.overlong_mergeAt hm hfit).mpr hover)
      exact ⟨x, b, o, h.mapped_of_mergeAt hm hx, hlost⟩
    · obtain ⟨x, b, o, hx, hlost⟩ := h.not_mapped_mergeAt hm hlong
      exact ⟨x, b, o, hx, fun hx' => hlost (rest.mapped_of hspread hx')⟩

end Merges

/-! ## The loop -/

/-- The two walks look for one offset, so they find one place. -/
theorem physWalk_self (o : UInt32) (es : List PExtent) (off : UInt32) (p : UInt64 × UInt64)
    (hp : p.1 = p.2) : (physWalk o o es off p).1 = (physWalk o o es off p).2 := by
  induction es generalizing off p with
  | nil => exact hp
  | cons e es ih =>
    obtain ⟨c, s⟩ := p
    obtain rfl : c = s := hp
    exact ih _ _ rfl

/-- Nothing before the iterator is left to merge. -/
def SettledTo (offset stop : UInt64) (m : ExtentMap) : Option Extent → Prop
  | none => Settled offset stop m
  | some it => it ∈ m.toList ∧ ∀ e f, Merging offset stop m e f → it.start ≤ e.start

/-- Before the first extent everything is settled. -/
theorem settledTo_front (m : ExtentMap) : SettledTo offset stop m m.front := by
  cases hf : m.front with
  | none =>
    intro e f h
    have he := h.mem
    rw [SortedList.front_eq_none hf] at he
    exact absurd he List.not_mem_nil
  | some it =>
    obtain ⟨hit, hleast⟩ := SortedList.front_eq_some hf
    exact ⟨hit, fun e f h => hleast e h.mem⟩

/-- The iterator goes on when its extent is not to be merged. -/
theorem SettledTo.next {it : Extent} (h : SettledTo offset stop m (some it))
    (hit : ∀ f, ¬ Merging offset stop m it f) : SettledTo offset stop m (m.next it.start) := by
  have hlater : ∀ e f, Merging offset stop m e f → it.start < e.start := by
    intro e f hef
    refine lt_of_le_of_ne (h.2 e f hef) fun hsame => ?_
    obtain rfl : it = e := SortedList.eq_of_key_eq h.1 hef.mem hsame
    exact hit f hef
  cases hn : m.next it.start with
  | none =>
    intro e f hef
    exact absurd (SortedList.next_eq_none hn e hef.mem) (not_le.mpr (hlater e f hef))
  | some g =>
    obtain ⟨hg, -, hleast⟩ := SortedList.next_eq_some hn
    exact ⟨hg, fun e f hef => hleast e hef.mem (hlater e f hef)⟩

/-- A round that merges. -/
theorem compressLoop_merge (blobs : ℕ → Blob) {it : Extent} {b fuel compressed : ℕ}
    (hge : ¬ it.logicalOffset.toUInt64 ≥ stop) (hskip : ¬ it.logicalEnd.toUInt64 ≤ offset)
    (hnext : m.next it.start = some f) (hc : Continues it f) (hb : it.blob = some b) :
    compressLoop blobs offset stop (fuel + 1) m (some it) compressed =
      compressLoop blobs offset stop fuel (m.mergeAt it f) (m.mergeAt it f).front
        (compressed + 1) := by
  obtain ⟨lo, bo, len, blob⟩ := it
  obtain rfl : blob = some b := hb
  have hphys := physWalk_self (bo + len) (blobs b).blob.extents 0 (0, 0) rfl
  have hoff : bo + len = f.blobOffset := hc.2.2
  rw [compressLoop, if_neg hge, if_neg hskip, hnext]
  dsimp only
  refine (if_pos hc).trans ?_
  rw [← hoff, if_neg (not_not.mpr hphys)]
  rfl

/-- A round that leaves two neighbours as they are. -/
theorem compressLoop_pass (blobs : ℕ → Blob) {it : Extent} {fuel compressed : ℕ}
    (hge : ¬ it.logicalOffset.toUInt64 ≥ stop) (hskip : ¬ it.logicalEnd.toUInt64 ≤ offset)
    (hnext : m.next it.start = some f) (hc : ¬ Continues it f) :
    compressLoop blobs offset stop (fuel + 1) m (some it) compressed =
      compressLoop blobs offset stop fuel m (some f) compressed := by
  rw [compressLoop, if_neg hge, if_neg hskip, hnext]
  exact if_neg hc

/-- The loop ends after merges that leave nothing in the range to merge. -/
theorem compressLoop_spec (blobs : ℕ → Blob) (offset stop : UInt64) {n : ℕ} (fuel : ℕ)
    {m : ExtentMap} {it : Option Extent} (hm : m.Spread) (hb : ∀ e ∈ m.toList, e.blob ≠ none)
    (hit : SettledTo offset stop m it) (hn : m.toList.length ≤ n)
    (hfuel : m.toList.length * (n + 1) + m.rest it ≤ fuel) (compressed : ℕ) :
    ∃ m' k, compressLoop blobs offset stop fuel m it compressed = some (m', compressed + k) ∧
      Merges offset stop m m' k ∧ Settled offset stop m' := by
  induction fuel generalizing m it compressed with
  | zero =>
    cases it with
    | none => exact ⟨m, 0, rfl, .refl m, hit⟩
    | some e =>
      have hpos : 0 < m.rest (some e) := List.countP_pos_iff.mpr ⟨e, hit.1, by simp⟩
      omega
  | succ fuel ih =>
    -- At the end of the map, behind the range, at a pair that merges, or at one that does not.
    cases it with
    | none => exact ⟨m, 0, rfl, .refl m, hit⟩
    | some it =>
      have he := hit.1
      have hrest : m.rest (m.next it.start) < m.rest (some it) := SortedList.rest_next_lt he
      by_cases hge : it.logicalOffset.toUInt64 ≥ stop
      · refine ⟨m, 0, by simp [compressLoop, hge], .refl m, fun e f h => ?_⟩
        have hle : stop.toNat ≤ it.start := by
          rw [ge_iff_le, UInt64.le_iff_toNat_le, UInt32.toNat_toUInt64] at hge
          exact hge
        exact absurd h.inRange.1 (not_lt.mpr (hle.trans (hit.2 e f h)))
      by_cases hskip : it.logicalEnd.toUInt64 ≤ offset
      -- An extent that ends before the range is not merged.
      · have hnot : ∀ f, ¬ Merging offset stop m it f := by
          intro f h
          have hlt := h.inRange.2
          rw [UInt64.le_iff_toNat_le, UInt32.toNat_toUInt64, hm.logicalEnd_toNat he h.next] at hskip
          exact absurd hlt (not_lt.mpr hskip)
        obtain ⟨m', k, heq, hmerges⟩ := ih hm hb (hit.next hnot) hn (by omega) compressed
        refine ⟨m', k, ?_, hmerges⟩
        rw [compressLoop, if_neg hge, if_pos hskip]
        exact heq
      cases hnext : m.next it.start with
      | none =>
        have hnot : ∀ f, ¬ Merging offset stop m it f := by
          intro f h
          have := h.next
          rw [hnext] at this
          cases this
        have hlast := hit.next hnot
        rw [hnext] at hlast
        refine ⟨m, 0, ?_, .refl m, hlast⟩
        rw [compressLoop, if_neg hge, if_neg hskip, hnext]
        rfl
      | some f =>
        by_cases hc : Continues it f
        · have hin : InRange offset stop it := by
            rw [ge_iff_le, UInt64.le_iff_toNat_le, UInt32.toNat_toUInt64, not_le] at hge
            rw [UInt64.le_iff_toNat_le, UInt32.toNat_toUInt64, hm.logicalEnd_toNat he hnext,
              not_le] at hskip
            exact ⟨hge, hskip⟩
          have h : Merging offset stop m it f := ⟨he, hnext, hin, hc⟩
          obtain ⟨b, hblob⟩ := Option.ne_none_iff_exists'.mp (hb it he)
          have hb' : ∀ e ∈ (m.mergeAt it f).toList, e.blob ≠ none := by
            intro e hmem
            rcases (h.mem_mergeAt e).mp hmem with rfl | ⟨hmem, -⟩
            · exact hb it he
            · exact hb e hmem
          have hlen := h.length_mergeAt
          have hn' : (m.mergeAt it f).toList.length ≤ n := by omega
          have hrounds := rounds_lt (r := m.rest (some it)) (Nat.lt_of_succ_le hlen.le)
            ((SortedList.rest_le (m.mergeAt it f) (m.mergeAt it f).front).trans hn')
          obtain ⟨m', k, heq, hmerges, hs⟩ := ih (h.spread_mergeAt hm) hb' (settledTo_front _) hn'
            (Nat.le_of_lt_succ (hrounds.trans_le hfuel)) (compressed + 1)
          refine ⟨m', k + 1, ?_, .step h hmerges, hs⟩
          rw [compressLoop_merge blobs hge hskip hnext hc hblob, heq]
          congr 2
          omega
        · have hnot : ∀ g, ¬ Merging offset stop m it g := by
            intro g h
            have hsame := h.next
            rw [hnext] at hsame
            cases hsame
            exact hc h.continues
          have hlast := hit.next hnot
          rw [hnext] at hlast hrest
          obtain ⟨m', k, heq, hmerges⟩ := ih hm hb hlast hn (by omega) compressed
          refine ⟨m', k, ?_, hmerges⟩
          rw [compressLoop_pass blobs hge hskip hnext hc]
          exact heq

/-! ## The whole pass -/

/-- What is counted depends on what the map says alone. -/
theorem Counted.of_mapped {blobs : ℕ → Blob}
    (h : ∀ x b o, m'.Mapped x b o ↔ m.Mapped x b o) (hc : Counted blobs m) : Counted blobs m' := by
  have hsame : ∀ b p, m'.referenced b p = m.referenced b p := by
    intro b p
    unfold referenced
    simp only [h]
  intro b
  have hb := hc b
  simp only [hsame]
  exact hb

/-- `compress_extent_map` ends and keeps what the map says, exactly when no extent of the range
begins `2 ^ 32` bytes that are mapped to its blob one after the other. -/
theorem compressExtentMap_iff (blobs : ℕ → Blob) (hm : m.Spread)
    (hb : ∀ e ∈ m.toList, e.blob ≠ none) (offset length : UInt64) :
    (∃ m' k, compressExtentMap blobs m offset length = some (m', k) ∧ Compressed blobs m m' k) ↔
      ¬ Overlong offset (offset + length) m := by
  have hfuel : m.toList.length * (m.toList.length + 1) + m.rest m.front ≤
      (m.toList.length + 1) ^ 2 := by
    have := SortedList.rest_le m m.front
    nlinarith
  obtain ⟨m', k, heq, hmerges, hs⟩ := compressLoop_spec blobs offset (offset + length) _ hm hb
    (settledTo_front m) (le_refl _) hfuel 0
  rw [Nat.zero_add] at heq
  have hrun : compressExtentMap blobs m offset length = some (m', k) := heq
  constructor
  · rintro ⟨m'', k'', heq'', hc⟩ hover
    rw [hrun] at heq''
    cases heq''
    obtain ⟨x, b, o, hx, hlost⟩ := hmerges.exists_lost hm hs hover
    exact hlost ((hc.mapped x b o).mpr hx)
  · intro hover
    have hmapped := hmerges.mapped_iff hm hover
    exact ⟨m', k, hrun, hmerges.spread hm, hmapped, hmerges.length, .of_mapped hmapped⟩

/-- Two neighbours with `2 ^ 32` bytes together: the merged extent is empty. -/
theorem compressExtentMap_overlong :
    let m : ExtentMap := ⟨[⟨0, 0, 0x80000000, some 0⟩, ⟨0x80000000, 0x80000000, 0x80000000, some 0⟩],
      by decide⟩
    m.Spread ∧ ¬ ∃ m' k, compressExtentMap (fun _ => .new) m 0 10 = some (m', k) ∧
      Compressed (fun _ => .new) m m' k := by
  refine ⟨by decide, ?_⟩
  rintro ⟨m', k, heq, hc⟩
  obtain ⟨hm, -⟩ := Prod.mk.inj (Option.some.inj heq)
  obtain ⟨e, he, -, hhi, -⟩ := (hc.mapped 0 (some 0) 0).mpr
    ⟨⟨0, 0, 0x80000000, some 0⟩, by decide, by decide, by decide, by decide, by decide⟩
  rw [← hm] at he
  have hempty : ([⟨0, 0, 0, some 0⟩] : List Extent).all fun e => e.stop ≤ 0 := by decide
  exact absurd hhi (not_lt.mpr (by simpa using List.all_eq_true.mp hempty e he))

/-- Two neighbours are merged. -/
theorem compressExtentMap_iff_neighbours :
    let m : ExtentMap := ⟨[⟨0, 0, 4, some 0⟩, ⟨4, 4, 4, some 0⟩], by decide⟩
    (∃ m' k, compressExtentMap (fun _ => .new) m 0 8 = some (m', k) ∧
        Compressed (fun _ => .new) m m' k) ↔ ¬ Overlong 0 (0 + 8) m :=
  compressExtentMap_iff (m := ⟨[⟨0, 0, 4, some 0⟩, ⟨4, 4, 4, some 0⟩], by decide⟩)
    (fun _ => .new) (by decide) (by decide) 0 8

end CxxLab.Bluestore.Object.ExtentMap
