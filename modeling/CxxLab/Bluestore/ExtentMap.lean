import CxxLab.Bluestore.OnodeCodec
import CxxLab.Lib.SortedCursor

/-!
# The extent map

`ExtentMap` of `extent_map.h` and `extent_map.cc`: the extents of an object, in the order of their
logical offsets. `punch_hole` takes a range out of the map and reports what was there.

Offsets and lengths of the map are of 32 bits; the arguments of `seek_lextent` and `punch_hole` are
of 64 bits, and the source cuts them where it stores them.
-/

namespace CxxLab.Bluestore.Object

/-! ## Extents -/

namespace Extent

/-- `logical_end`. -/
def logicalEnd (e : Extent) : UInt32 := e.logicalOffset + e.length

/-- Where the extent starts. -/
abbrev start (e : Extent) : ℕ := e.logicalOffset.toNat

/-- Where the extent ends. -/
def stop (e : Extent) : ℕ := e.start + e.length.toNat

/-- The logical byte `x` is the byte `o` of the blob `b`. -/
def Maps (e : Extent) (x : ℕ) (b : Option ℕ) (o : UInt32) : Prop :=
  e.start ≤ x ∧ x < e.stop ∧ e.blob = b ∧ e.blobOffset + UInt32.ofNat (x - e.start) = o

/-- One extent ends before the other starts. -/
def Apart (e f : Extent) : Prop := e.stop ≤ f.start ∨ f.stop ≤ e.start

instance (e f : Extent) : Decidable (e.Apart f) :=
  inferInstanceAs (Decidable (e.stop ≤ f.start ∨ f.stop ≤ e.start))

/-- `p` is a part of `e`. -/
structure Part (e p : Extent) : Prop where
  start : e.start ≤ p.start
  stop : p.stop ≤ e.stop
  maps : ∀ x b o, p.Maps x b o ↔ e.Maps x b o ∧ p.start ≤ x ∧ x < p.stop

variable {e f p : Extent}

/-- An extent does not end before it starts. -/
theorem start_le_stop (e : Extent) : e.start ≤ e.stop := Nat.le_add_right _ _

/-- Extents are apart in either order. -/
theorem Apart.symm (h : e.Apart f) : f.Apart e := Or.symm h

/-- What is apart from an extent is apart from its parts. -/
theorem Apart.mono (h : e.Apart f) (hp : e.Part p) : p.Apart f :=
  h.imp (hp.stop.trans ·) (·.trans hp.start)

/-- Where the later of two extents starts, the other has ended. -/
theorem Apart.stop_le (h : e.Apart f) (hlt : e.start < f.start) : e.stop ≤ f.start := by
  rcases h with h | h
  · exact h
  · exact absurd (f.start_le_stop.trans h) (not_le.mpr hlt)

/-- An extent that ends within 32 bits ends where `logical_end` says. -/
theorem logicalEnd_toNat (h : e.stop < 2 ^ 32) : e.logicalEnd.toNat = e.stop := by
  unfold logicalEnd
  rw [UInt32.toNat_add]
  exact Nat.mod_eq_of_lt h

/-- The part of an extent from `a` to `z`, with the arithmetic of the source. -/
def cut (e : Extent) (a z : UInt64) : Extent :=
  ⟨a.toUInt32, (e.blobOffset.toUInt64 + (a - e.logicalOffset.toUInt64)).toUInt32,
    (z - a).toUInt32, e.blob⟩

section

variable {a z : UInt64} (ha : e.start ≤ a.toNat) (haz : a ≤ z) (hz : z.toNat ≤ e.stop)
  (he : e.stop < 2 ^ 32)

include haz hz he

/-- A cut extent starts where it was cut. -/
theorem start_cut : (e.cut a z).start = a.toNat := by
  have hle : a.toNat ≤ z.toNat := haz
  show a.toUInt32.toNat = a.toNat
  rw [UInt64.toNat_toUInt32]
  omega

/-- A cut extent stops where it was cut. -/
theorem stop_cut : (e.cut a z).stop = z.toNat := by
  have hle : a.toNat ≤ z.toNat := haz
  have hlen : (z - a).toUInt32.toNat = z.toNat - a.toNat := by
    rw [UInt64.toNat_toUInt32, UInt64.toNat_sub_of_le _ _ haz]
    omega
  show (e.cut a z).start + (z - a).toUInt32.toNat = z.toNat
  rw [start_cut haz hz he, hlen]
  omega

omit haz hz he in
include ha in
/-- The blob offsets of the part are those of the extent. -/
theorem blobOffset_cut {x : ℕ} (hx : a.toNat ≤ x) :
    (e.cut a z).blobOffset + UInt32.ofNat (x - a.toNat) =
      e.blobOffset + UInt32.ofNat (x - e.start) := by
  have hle : e.logicalOffset.toUInt64 ≤ a := by
    show e.logicalOffset.toUInt64.toNat ≤ a.toNat
    rwa [UInt32.toNat_toUInt64]
  have hsub : (a - e.logicalOffset.toUInt64).toNat = a.toNat - e.start := by
    rw [UInt64.toNat_sub_of_le _ _ hle, UInt32.toNat_toUInt64]
  have hfrom : (a - e.logicalOffset.toUInt64).toUInt32 = UInt32.ofNat (a.toNat - e.start) := by
    rw [← hsub]
    rfl
  have hsum : x - e.start = (a.toNat - e.start) + (x - a.toNat) := by omega
  show (e.blobOffset.toUInt64 + (a - e.logicalOffset.toUInt64)).toUInt32 + _ = _
  rw [UInt64.toUInt32_add, UInt32.toUInt32_toUInt64, hfrom, hsum, UInt32.ofNat_add, UInt32.add_assoc]

include ha in
/-- It is a part of the extent. -/
theorem part_cut : e.Part (e.cut a z) := by
  have hstart := start_cut haz hz he
  have hstop := stop_cut haz hz he
  refine ⟨hstart ▸ ha, hstop ▸ hz, fun x b o => ?_⟩
  unfold Maps
  rw [hstart, hstop]
  constructor
  · rintro ⟨hax, hxz, hb, ho⟩
    rw [blobOffset_cut ha hax] at ho
    exact ⟨⟨ha.trans hax, hxz.trans_le hz, hb, ho⟩, hax, hxz⟩
  · rintro ⟨⟨-, -, hb, ho⟩, hax, hxz⟩
    rw [← blobOffset_cut ha hax] at ho
    exact ⟨hax, hxz, hb, ho⟩

end

end Extent

/-- `OldExtent`. -/
structure OldExtent where
  e : Extent
  released : List PExtent := []
  blobEmpty : Bool := false

/-! ## The functions of the source -/

namespace ExtentMap

/-- `seek_lextent`. The key of the search has 32 bits. -/
def seekLextent (m : ExtentMap) (offset : UInt64) : Option Extent :=
  match m.before (offset + 1).toUInt32.toNat with
  | none => none
  | some it => if it.logicalEnd.toUInt64 > offset then some it else none

/-- `seek_lextent`, or `begin` where it finds nothing. -/
def seekOrBegin (m : ExtentMap) (offset : UInt64) : Option Extent :=
  (m.seekLextent offset).or m.front

/-- The loop of `punch_hole`, in at most `fuel` rounds. -/
def punchLoop (offset stop : UInt64) :
    ℕ → ExtentMap → Option Extent → List OldExtent → Option (ExtentMap × List OldExtent)
  | _, m, none, old => some (m, old)
  | 0, _, some _, _ => none
  | fuel + 1, m, some it, old =>
    let eLo := it.logicalOffset.toUInt64
    let eEnd := it.logicalEnd.toUInt64
    let eBo := it.blobOffset.toUInt64
    if eLo ≥ stop then some (m, old)
    else if eEnd ≤ offset then punchLoop offset stop fuel m (m.next it.start) old
    else
      let punchLo := max eLo offset
      let punchEnd := min eEnd stop
      let punchLen := punchEnd - punchLo
      let punchBo := eBo + (punchLo - eLo)
      let old := old ++
        [{ e := ⟨punchLo.toUInt32, punchBo.toUInt32, punchLen.toUInt32, it.blob⟩ }]
      let erased : ExtentMap := m.remove it.start
      if eLo < offset ∧ eEnd > stop then
        -- The extent spans the hole: a head and a tail stay.
        let withHead : ExtentMap := erased.insert
          ⟨it.logicalOffset, it.blobOffset, (offset - eLo).toUInt32, it.blob⟩
        some (withHead.insert
          ⟨stop.toUInt32, (eBo + (stop - eLo)).toUInt32, (eEnd - stop).toUInt32, it.blob⟩, old)
      else if eLo < offset then
        let withHead : ExtentMap := erased.insert
          ⟨it.logicalOffset, it.blobOffset, (offset - eLo).toUInt32, it.blob⟩
        punchLoop offset stop fuel withHead (withHead.seekOrBegin offset) old
      else if eEnd > stop then
        some (erased.insert
          ⟨stop.toUInt32, (eBo + (stop - eLo)).toUInt32, (eEnd - stop).toUInt32, it.blob⟩, old)
      else punchLoop offset stop fuel erased (erased.seekOrBegin offset) old

/-- `punch_hole`; `none` if the loop were not over after as many rounds as the square of the number
of extents. -/
def punchHole (m : ExtentMap) (offset length : UInt64) (old : List OldExtent) :
    Option (ExtentMap × List OldExtent) :=
  punchLoop offset (offset + length) ((m.toList.length + 1) ^ 2) m (m.seekOrBegin offset) old

/-! ## What a map holds -/

/-- The extents are apart, and end within 32 bits. -/
structure Disjoint (m : ExtentMap) : Prop where
  apart : ∀ e ∈ m.toList, ∀ f ∈ m.toList, e = f ∨ e.Apart f
  stop : ∀ e ∈ m.toList, e.stop < 2 ^ 32

/-- The map maps the logical byte `x` to the byte `o` of the blob `b`. -/
def Mapped (m : ExtentMap) (x : ℕ) (b : Option ℕ) (o : UInt32) : Prop :=
  ∃ e ∈ m.toList, e.Maps x b o

/-- The extents that were reported map the byte `x` to the byte `o` of the blob `b`. -/
def OldMapped (old : List OldExtent) (x : ℕ) (b : Option ℕ) (o : UInt32) : Prop :=
  ∃ d ∈ old, d.e.Maps x b o

/-- The hole from `lo` to `hi` is out of `m`, which is `m'` now; the extents in `old` are what was
in it. -/
structure Punched (lo hi : ℕ) (m m' : ExtentMap) (old : List OldExtent) : Prop where
  disjoint : m'.Disjoint
  mapped : ∀ x b o, m'.Mapped x b o ↔ m.Mapped x b o ∧ ¬ (lo ≤ x ∧ x < hi)
  inHole : ∀ x b o, OldMapped old x b o ↔ m.Mapped x b o ∧ lo ≤ x ∧ x < hi
  oldApart : old.Pairwise fun d d' => d.e.Apart d'.e

/-! ## Iterators -/

/-- Everything before the iterator ends at `lo`. -/
def At (m : ExtentMap) (lo : ℕ) : Option Extent → Prop
  | none => ∀ c ∈ m.toList, c.stop ≤ lo
  | some e => e ∈ m.toList ∧ ∀ c ∈ m.toList, c.start < e.start → c.stop ≤ lo

variable {m m' m₀ : ExtentMap} {e d : Extent} {lo hi : ℕ}

/-- The later of two extents of a map starts where the other has ended. -/
theorem Disjoint.stop_le (h : m.Disjoint) {c : Extent} (hc : c ∈ m.toList) (he : e ∈ m.toList)
    (hlt : c.start < e.start) : c.stop ≤ e.start := by
  rcases h.apart c hc e he with rfl | hap
  · exact absurd hlt (lt_irrefl _)
  · exact hap.stop_le hlt

/-- `seek_lextent` finds the first extent that ends behind the offset. -/
theorem at_seekOrBegin (h : m.Disjoint) (offset : UInt64) :
    m.At offset.toNat (m.seekOrBegin offset) := by
  cases hs : m.seekLextent offset with
  | none =>
    rw [seekOrBegin, hs, Option.none_or]
    cases hf : m.front with
    | none =>
      intro c hc
      rw [SortedList.front_eq_none hf] at hc
      exact absurd hc List.not_mem_nil
    | some e =>
      obtain ⟨he, hleast⟩ := SortedList.front_eq_some hf
      exact ⟨he, fun c hc hlt => absurd hlt (not_lt.mpr (hleast c hc))⟩
  | some e =>
    rw [seekOrBegin, hs, Option.some_or]
    unfold seekLextent at hs
    cases hb : m.before (offset + 1).toUInt32.toNat with
    | none =>
      rw [hb] at hs
      cases hs
    | some it =>
      simp only [hb] at hs
      split_ifs at hs
      obtain rfl := Option.some.inj hs
      obtain ⟨he, hkey, -⟩ := SortedList.before_eq_some hb
      -- The extent starts at the offset or before, also where the key of the search was cut.
      have hle : it.start ≤ offset.toNat := by
        have hcut : (offset + 1).toUInt32.toNat ≤ offset.toNat + 1 := by
          rw [UInt64.toNat_toUInt32, UInt64.toNat_add]
          exact (Nat.mod_le _ _).trans (Nat.mod_le _ _)
        exact Nat.le_of_lt_succ (hkey.trans_le hcut)
      exact ⟨he, fun c hc hlt => (h.stop_le hc he hlt).trans hle⟩

/-- The next extent is the first that ends behind the offset, if this one does not. -/
theorem At.next (h : m.At lo (some e)) (hstop : e.stop ≤ lo) : m.At lo (m.next e.start) := by
  obtain ⟨he, hbefore⟩ := h
  -- What is before the next extent is before this one, or is this one.
  have hle : ∀ c ∈ m.toList, c.start ≤ e.start → c.stop ≤ lo := by
    intro c hc hce
    rcases hce.lt_or_eq with hlt | heq
    · exact hbefore c hc hlt
    · rwa [SortedList.eq_of_key_eq hc he heq]
  cases hn : m.next e.start with
  | none => exact fun c hc => hle c hc (SortedList.next_eq_none hn c hc)
  | some f =>
    obtain ⟨hf, hlt, hleast⟩ := SortedList.next_eq_some hn
    exact ⟨hf, fun c hc hcf => hle c hc (not_lt.mp fun hec => absurd hcf (not_lt.mpr
      (hleast c hc hec)))⟩

/-! ## One extent is cut -/

/-- The extent `e` is cut at a hole from `lo` to `hi`: `d` is what is inside, `ps` what stays. -/
structure Cuts (lo hi : ℕ) (e d : Extent) (ps : List Extent) : Prop where
  inside : e.Part d
  inHole : lo ≤ d.start ∧ d.stop ≤ hi
  parts : ∀ p ∈ ps, e.Part p
  outside : ∀ p ∈ ps, p.stop ≤ lo ∨ hi ≤ p.start
  apart : ∀ p ∈ ps, ∀ q ∈ ps, p = q ∨ p.Apart q
  whole : ∀ x, e.start ≤ x → x < e.stop →
    (d.start ≤ x ∧ x < d.stop) ∨ ∃ p ∈ ps, p.start ≤ x ∧ x < p.stop

/-- The larger of two numbers. -/
theorem toNat_max (a b : UInt64) : (max a b).toNat = max a.toNat b.toNat := by
  show (if a ≤ b then b else a).toNat = if a.toNat ≤ b.toNat then b.toNat else a.toNat
  exact apply_ite _ _ _ _

/-- The smaller of two numbers. -/
theorem toNat_min (a b : UInt64) : (min a b).toNat = min a.toNat b.toNat := by
  show (if a ≤ b then a else b).toNat = if a.toNat ≤ b.toNat then a.toNat else b.toNat
  exact apply_ite _ _ _ _

/-- What `punch_hole` cuts from an extent that overlaps the hole. -/
theorem cuts_cut {offset stop : UInt64} (hle : offset ≤ stop) (he : e.stop < 2 ^ 32)
    (hstop : e.logicalOffset.toUInt64 < stop) (hoffset : offset < e.logicalEnd.toUInt64) :
    Cuts offset.toNat stop.toNat e
      (e.cut (max e.logicalOffset.toUInt64 offset) (min e.logicalEnd.toUInt64 stop))
      ((if e.logicalOffset.toUInt64 < offset then [e.cut e.logicalOffset.toUInt64 offset] else []) ++
        if e.logicalEnd.toUInt64 > stop then [e.cut stop e.logicalEnd.toUInt64] else []) := by
  have hlo : e.logicalOffset.toUInt64.toNat = e.start := UInt32.toNat_toUInt64 _
  have hend : e.logicalEnd.toUInt64.toNat = e.stop := by
    rw [UInt32.toNat_toUInt64, Extent.logicalEnd_toNat he]
  have hes := e.start_le_stop
  generalize e.logicalOffset.toUInt64 = eLo at *
  generalize e.logicalEnd.toUInt64 = eEnd at *
  -- The offsets where the extent and the hole begin and end.
  have hmax := toNat_max eLo offset
  have hmin := toNat_min eEnd stop
  generalize max eLo offset = a at *
  generalize min eEnd stop = z at *
  rw [UInt64.le_iff_toNat_le] at hle
  rw [UInt64.lt_iff_toNat_lt] at hstop hoffset
  have haz : a ≤ z := by
    rw [UInt64.le_iff_toNat_le]
    omega
  -- What is cut lies in the extent.
  have hze : z.toNat ≤ e.stop := by omega
  have hea : e.start ≤ a.toNat := by omega
  have hstart := Extent.start_cut haz hze he
  have hcutStop := Extent.stop_cut haz hze he
  -- The head and the tail, where there are any.
  have hhead : eLo < offset → e.Part (e.cut eLo offset) ∧ (e.cut eLo offset).start = e.start ∧
      (e.cut eLo offset).stop = offset.toNat := by
    intro hlt
    have hoe : offset.toNat ≤ e.stop := by omega
    have h := UInt64.le_of_lt hlt
    exact ⟨Extent.part_cut hlo.ge h hoe he, (Extent.start_cut h hoe he).trans hlo,
      Extent.stop_cut h hoe he⟩
  have htail : eEnd > stop → e.Part (e.cut stop eEnd) ∧ (e.cut stop eEnd).start = stop.toNat ∧
      (e.cut stop eEnd).stop = e.stop := by
    intro hgt
    have hes : e.start ≤ stop.toNat := by omega
    have h := UInt64.le_of_lt hgt
    exact ⟨Extent.part_cut hes h hend.le he, Extent.start_cut h hend.le he,
      (Extent.stop_cut h hend.le he).trans hend⟩
  have hmem : ∀ p, p ∈ ((if eLo < offset then [e.cut eLo offset] else []) ++
      if eEnd > stop then [e.cut stop eEnd] else []) ↔
      (eLo < offset ∧ p = e.cut eLo offset) ∨ (eEnd > stop ∧ p = e.cut stop eEnd) := by
    intro p
    split_ifs <;> simp [*]
  -- The piece in the hole, and what is left of the extent around it.
  refine ⟨Extent.part_cut hea haz hze he, by omega, fun p hp => ?_, fun p hp => ?_,
    fun p hp q hq => ?_, fun x hx hxe => ?_⟩
  · rcases (hmem p).mp hp with ⟨h, rfl⟩ | ⟨h, rfl⟩
    · exact (hhead h).1
    · exact (htail h).1
  · rcases (hmem p).mp hp with ⟨h, rfl⟩ | ⟨h, rfl⟩
    · exact .inl (hhead h).2.2.le
    · exact .inr (htail h).2.1.ge
  · rcases (hmem p).mp hp with ⟨h, rfl⟩ | ⟨h, rfl⟩ <;>
      rcases (hmem q).mp hq with ⟨h', rfl⟩ | ⟨h', rfl⟩
    · exact .inl rfl
    · exact .inr (.inl (by rw [(hhead h).2.2, (htail h').2.1]; exact hle))
    · exact .inr (.inr (by rw [(hhead h').2.2, (htail h).2.1]; exact hle))
    · exact .inl rfl
  -- Every byte of the extent is in one of the pieces.
  · rw [hstart, hcutStop]
    by_cases hxo : x < offset.toNat
    · have h : eLo < offset := by
        rw [UInt64.lt_iff_toNat_lt]
        omega
      refine .inr ⟨_, (hmem _).mpr (.inl ⟨h, rfl⟩), ?_⟩
      rw [(hhead h).2.1, (hhead h).2.2]
      exact ⟨hx, hxo⟩
    · by_cases hxs : stop.toNat ≤ x
      · have h : eEnd > stop := by
          rw [gt_iff_lt, UInt64.lt_iff_toNat_lt]
          omega
        refine .inr ⟨_, (hmem _).mpr (.inr ⟨h, rfl⟩), ?_⟩
        rw [(htail h).2.1, (htail h).2.2]
        exact ⟨hxs, hxe⟩
      · exact .inl ⟨by omega, by omega⟩

/-- The extent `e` of `m` is replaced by its parts `ps` in `m'`. -/
def Replaced (m m' : ExtentMap) (e : Extent) (ps : List Extent) : Prop :=
  ∀ c, c ∈ m'.toList ↔ (c ∈ m.toList ∧ c ≠ e) ∨ c ∈ ps

/-- What `punch_hole` keeps in its loop: `m₀` was the map before, `new` was reported so far. -/
structure Punching (lo hi : ℕ) (m₀ m : ExtentMap) (new : List OldExtent) : Prop where
  disjoint : m.Disjoint
  outside : ∀ x b o, ¬ (lo ≤ x ∧ x < hi) → (m.Mapped x b o ↔ m₀.Mapped x b o)
  inside : ∀ x b o, lo ≤ x → x < hi → (m₀.Mapped x b o ↔ m.Mapped x b o ∨ OldMapped new x b o)
  within : ∀ d ∈ new, lo ≤ d.e.start ∧ d.e.stop ≤ hi
  newApart : new.Pairwise fun d d' => d.e.Apart d'.e
  apart : ∀ d ∈ new, ∀ e ∈ m.toList, d.e.Apart e

/-- Before the loop nothing is punched. -/
theorem Punching.start (h : m.Disjoint) : Punching lo hi m m [] where
  disjoint := h
  outside _ _ _ _ := Iff.rfl
  inside _ _ _ _ _ := ⟨.inl, Or.rec id fun ⟨_, hd, _⟩ => absurd hd List.not_mem_nil⟩
  within _ hd := absurd hd List.not_mem_nil
  newApart := List.Pairwise.nil
  apart _ hd := absurd hd List.not_mem_nil

/-- A byte of an extent that is cut is in one of the pieces. -/
theorem Cuts.maps_iff {ps : List Extent} (h : Cuts lo hi e d ps) (x : ℕ) (b : Option ℕ)
    (o : UInt32) : e.Maps x b o ↔ d.Maps x b o ∨ ∃ p ∈ ps, p.Maps x b o := by
  constructor
  · intro hx
    rcases h.whole x hx.1 hx.2.1 with hd | ⟨p, hp, hpx⟩
    · exact .inl ((h.inside.maps x b o).mpr ⟨hx, hd⟩)
    · exact .inr ⟨p, hp, ((h.parts p hp).maps x b o).mpr ⟨hx, hpx⟩⟩
  · rintro (hd | ⟨p, hp, hpx⟩)
    · exact ((h.inside.maps x b o).mp hd).1
    · exact (((h.parts p hp).maps x b o).mp hpx).1

/-- What was mapped by the extent is mapped by its parts or has gone. -/
theorem Replaced.mapped_iff {ps : List Extent} (hr : Replaced m m' e ps) (he : e ∈ m.toList)
    (h : Cuts lo hi e d ps) (x : ℕ) (b : Option ℕ) (o : UInt32) :
    m.Mapped x b o ↔ m'.Mapped x b o ∨ d.Maps x b o := by
  constructor
  · rintro ⟨c, hc, hx⟩
    by_cases hce : c = e
    · subst hce
      rcases (h.maps_iff x b o).mp hx with hd | ⟨p, hp, hpx⟩
      · exact .inr hd
      · exact .inl ⟨p, (hr p).mpr (.inr hp), hpx⟩
    · exact .inl ⟨c, (hr c).mpr (.inl ⟨hc, hce⟩), hx⟩
  · rintro (⟨c, hc, hx⟩ | hd)
    · rcases (hr c).mp hc with ⟨hc, -⟩ | hc
      · exact ⟨c, hc, hx⟩
      · exact ⟨e, he, (h.maps_iff x b o).mpr (.inr ⟨c, hc, hx⟩)⟩
    · exact ⟨e, he, (h.maps_iff x b o).mpr (.inl hd)⟩

/-- Parts of an extent are apart from the other extents. -/
theorem Replaced.disjoint {ps : List Extent} (hr : Replaced m m' e ps) (hm : m.Disjoint)
    (he : e ∈ m.toList) (h : Cuts lo hi e d ps) : m'.Disjoint where
  apart := by
    intro c hc f hf
    rcases (hr c).mp hc with ⟨hcm, hce⟩ | hcp <;> rcases (hr f).mp hf with ⟨hfm, hfe⟩ | hfp
    · exact hm.apart c hcm f hfm
    · exact .inr ((((hm.apart e he c hcm).resolve_left (Ne.symm hce)).mono (h.parts f hfp)).symm)
    · exact .inr (((hm.apart e he f hfm).resolve_left (Ne.symm hfe)).mono (h.parts c hcp))
    · exact h.apart c hcp f hfp
  stop := by
    intro c hc
    rcases (hr c).mp hc with ⟨hc, -⟩ | hc
    · exact hm.stop c hc
    · exact (h.parts c hc).stop.trans_lt (hm.stop e he)

/-- What one round does that cuts an extent. -/
theorem Punching.cut {new : List OldExtent} {ps : List Extent} (h : Punching lo hi m₀ m new)
    (he : e ∈ m.toList) (hcut : Cuts lo hi e d ps) (hr : Replaced m m' e ps) :
    Punching lo hi m₀ m' (new ++ [{ e := d }]) where
  disjoint := hr.disjoint h.disjoint he hcut
  outside x b o hx := by
    have hd : ¬ d.Maps x b o := fun hd =>
      hx ⟨hcut.inHole.1.trans hd.1, hd.2.1.trans_le hcut.inHole.2⟩
    rw [← h.outside x b o hx, hr.mapped_iff he hcut, or_iff_left hd]
  inside x b o hlo hhi := by
    have hnew : OldMapped (new ++ [{ e := d }]) x b o ↔ OldMapped new x b o ∨ d.Maps x b o := by
      simp [OldMapped, or_and_right, exists_or]
    rw [h.inside x b o hlo hhi, hr.mapped_iff he hcut, hnew, or_assoc, or_comm (a := d.Maps x b o)]
  within := by
    simp only [List.mem_append, List.mem_singleton]
    rintro d' (hd' | rfl)
    · exact h.within d' hd'
    · exact hcut.inHole
  newApart := by
    rw [List.pairwise_append]
    refine ⟨h.newApart, List.pairwise_singleton _ _, fun d' hd' f hf => ?_⟩
    rw [List.mem_singleton.mp hf]
    exact ((h.apart d' hd' e he).symm.mono hcut.inside).symm
  apart := by
    simp only [List.mem_append, List.mem_singleton]
    rintro d' hd' c hc
    rcases (hr c).mp hc with ⟨hcm, hce⟩ | hcp
    · rcases hd' with hd' | rfl
      · exact h.apart d' hd' c hcm
      · exact ((h.disjoint.apart e he c hcm).resolve_left (Ne.symm hce)).mono hcut.inside
    · rcases hd' with hd' | rfl
      · exact ((h.apart d' hd' e he).symm.mono (hcut.parts c hcp)).symm
      · -- What is inside the hole is apart from what is outside.
        exact (hcut.outside c hcp).elim (fun hlo => .inr (hlo.trans hcut.inHole.1))
          fun hhi => .inl (hcut.inHole.2.trans hhi)

/-- When no extent is in the hole any more, it is out of the map. -/
theorem Punching.done {new : List OldExtent} (h : Punching lo hi m₀ m new)
    (hout : ∀ c ∈ m.toList, c.stop ≤ lo ∨ hi ≤ c.start) : Punched lo hi m₀ m new where
  disjoint := h.disjoint
  mapped x b o := by
    by_cases hx : lo ≤ x ∧ x < hi
    · refine iff_of_false ?_ fun h => h.2 hx
      rintro ⟨c, hc, hcx⟩
      have hlo := hcx.1
      have hhi := hcx.2.1
      rcases hout c hc with hle | hge <;> omega
    · rw [h.outside x b o hx, and_iff_left hx]
  inHole x b o := by
    constructor
    · rintro ⟨d, hd, hdx⟩
      have hx : lo ≤ x ∧ x < hi :=
        ⟨(h.within d hd).1.trans hdx.1, hdx.2.1.trans_le (h.within d hd).2⟩
      exact ⟨(h.inside x b o hx.1 hx.2).mpr (.inr ⟨d, hd, hdx⟩), hx⟩
    · rintro ⟨hx, hlo, hhi⟩
      rcases (h.inside x b o hlo hhi).mp hx with ⟨c, hc, hcx⟩ | hold
      · have hlo' := hcx.1
        have hhi' := hcx.2.1
        rcases hout c hc with hle | hge <;> omega
      · exact hold
  oldApart := h.newApart

/-! ## The loop -/

/-- The number of extents that end after `lo`. -/
def ending (m : ExtentMap) (lo : ℕ) : ℕ := m.toList.countP fun c => lo < c.stop

/-- An extent is taken out whole. -/
theorem replaced_nil (he : e ∈ m.toList) : Replaced m (m.remove e.start) e [] := by
  intro c
  rw [SortedList.mem_remove, or_iff_left List.not_mem_nil]
  refine and_congr_right fun hc => ?_
  exact ⟨fun hne heq => hne (heq ▸ rfl), fun hne heq => hne (SortedList.eq_of_key_eq hc he heq)⟩

/-- A part is added whose place is free. -/
theorem Replaced.insert {ps : List Extent} {p : Extent} (h : Replaced m m' e ps)
    (hp : ∀ c ∈ m'.toList, c.start ≠ p.start) : Replaced m (m'.insert p) e (ps ++ [p]) := by
  intro c
  rw [SortedList.mem_insert hp, h c, List.mem_append, List.mem_singleton]
  tauto

/-- The place of a part of a nonempty extent is free once the extent is erased. -/
theorem Disjoint.start_ne (hm : m.Disjoint) (he : e ∈ m.toList) {c : Extent}
    (hc : c ∈ (m.remove e.start).toList) {x : ℕ} (hx : e.start ≤ x) (hxe : x < e.stop) :
    c.start ≠ x := by
  obtain ⟨hcm, hce⟩ := (replaced_nil he c).mp hc |>.resolve_right List.not_mem_nil
  rintro rfl
  rcases hm.apart e he c hcm with rfl | h
  · exact hce rfl
  · rcases h with h | h
    · omega
    · have := c.start_le_stop
      exact hce (SortedList.eq_of_key_eq hcm he (le_antisymm (this.trans h) hx))

/-- Where the part up to the end starts. -/
theorem start_cut_end {stop : UInt64} (hs : e.stop < 2 ^ 32) (h : e.logicalEnd.toUInt64 > stop) :
    (e.cut stop e.logicalEnd.toUInt64).start = stop.toNat := by
  refine Extent.start_cut (UInt64.le_of_lt h) ?_ hs
  rw [UInt32.toNat_toUInt64, Extent.logicalEnd_toNat hs]

/-- The part from the start has the blob offset of the extent. -/
theorem cut_start (e : Extent) (z : UInt64) :
    e.cut e.logicalOffset.toUInt64 z =
      ⟨e.logicalOffset, e.blobOffset, (z - e.logicalOffset.toUInt64).toUInt32, e.blob⟩ := by
  unfold Extent.cut
  rw [UInt64.sub_self, UInt64.add_zero, UInt32.toUInt32_toUInt64, UInt32.toUInt32_toUInt64]

/-- When a round takes an extent that ends after `lo` out, the loop is nearer to its end wherever
it goes on. -/
theorem rounds_lt {a a' r r' n : ℕ} (ha : a' < a) (hr : r' ≤ n) :
    a' * (n + 1) + r' < a * (n + 1) + r := by
  have hmul : (a' + 1) * (n + 1) ≤ a * (n + 1) := Nat.mul_le_mul_right _ ha
  calc a' * (n + 1) + r' < a' * (n + 1) + (n + 1) := Nat.add_lt_add_left (Nat.lt_succ_of_le hr) _
    _ = (a' + 1) * (n + 1) := (Nat.succ_mul _ _).symm
    _ ≤ a * (n + 1) := hmul
    _ ≤ a * (n + 1) + r := Nat.le_add_right _ _

/-- A head of an extent that ends after `lo` is left, or nothing. -/
theorem ending_remove_lt (he : e ∈ m.toList) (hlo : lo < e.stop) :
    (ExtentMap.ending (m.remove e.start) lo) < m.ending lo :=
  SortedList.countP_remove_lt he (by simpa using hlo)

/-- An extent that ends before the hole adds no round to the loop. -/
theorem ending_insert_le {p : Extent} (hp : p.stop ≤ lo) :
    ExtentMap.ending (m.insert p) lo ≤ m.ending lo := by
  have h := SortedList.countP_insert_le (fun c : Extent => decide (lo < c.stop)) m p
  rw [if_neg (by simpa using hp)] at h
  exact h

/-- One part takes the place of an extent. -/
theorem Disjoint.replaced_one (hm : m.Disjoint) (he : e ∈ m.toList) {p : Extent}
    (hp : e.start ≤ p.start) (hpe : p.start < e.stop) :
    Replaced m ((m.remove e.start).insert p) e [p] :=
  (replaced_nil he).insert fun _ hc => hm.start_ne he hc hp hpe

/-- Two parts take the place of an extent. -/
theorem Disjoint.replaced_two (hm : m.Disjoint) (he : e ∈ m.toList) {p q : Extent}
    (hp : e.start ≤ p.start) (hpq : p.start < q.start) (hqe : q.start < e.stop) :
    Replaced m (((m.remove e.start).insert p).insert q) e [p, q] := by
  refine (hm.replaced_one he hp (hpq.trans hqe)).insert fun c hc => ?_
  rcases SortedList.mem_place hc with rfl | hc
  · exact hpq.ne
  · exact hm.start_ne he hc (hp.trans hpq.le) hqe

section

variable {offset stop : UInt64} {new : List OldExtent}
  (h : Punching offset.toNat stop.toNat m₀ m new) (hle : offset ≤ stop) (he : e ∈ m.toList)
  (hstop : e.logicalOffset.toUInt64 < stop) (hoffset : offset < e.logicalEnd.toUInt64)

/-- What `punch_hole` reports of an extent. -/
def inHole (offset stop : UInt64) (e : Extent) : OldExtent :=
  { e := e.cut (max e.logicalOffset.toUInt64 offset) (min e.logicalEnd.toUInt64 stop) }

/-- An offset before the end of an extent, in 32 bits. -/
theorem lt_stop {z : UInt64} (hs : e.stop < 2 ^ 32) (hz : z < e.logicalEnd.toUInt64) :
    z.toNat < e.stop := by
  rw [UInt64.lt_iff_toNat_lt, UInt32.toNat_toUInt64, Extent.logicalEnd_toNat hs] at hz
  exact hz

/-- An offset behind the start of an extent. -/
theorem start_lt {z : UInt64} (hz : e.logicalOffset.toUInt64 < z) : e.start < z.toNat := by
  rw [UInt64.lt_iff_toNat_lt, UInt32.toNat_toUInt64] at hz
  exact hz

include h hle he hstop hoffset

/-- The extent lies in the hole. -/
theorem Punching.cut_all (h1 : ¬ e.logicalOffset.toUInt64 < offset)
    (h2 : ¬ e.logicalEnd.toUInt64 > stop) :
    Punching offset.toNat stop.toNat m₀ (m.remove e.start) (new ++ [inHole offset stop e]) := by
  have hcuts := cuts_cut hle (h.disjoint.stop e he) hstop hoffset
  rw [if_neg h1, if_neg h2] at hcuts
  exact h.cut he hcuts (replaced_nil he)

/-- The hole takes the end of the extent. -/
theorem Punching.cut_to_head (h1 : e.logicalOffset.toUInt64 < offset)
    (h2 : ¬ e.logicalEnd.toUInt64 > stop) :
    Punching offset.toNat stop.toNat m₀
      ((m.remove e.start).insert (e.cut e.logicalOffset.toUInt64 offset))
      (new ++ [inHole offset stop e]) := by
  have hs := h.disjoint.stop e he
  have hcuts := cuts_cut hle hs hstop hoffset
  rw [if_pos h1, if_neg h2] at hcuts
  have hstart : (e.cut e.logicalOffset.toUInt64 offset).start = e.start := by
    rw [cut_start]
  have hlt : e.start < e.stop := (start_lt h1).trans (lt_stop hs hoffset)
  exact h.cut he hcuts (h.disjoint.replaced_one he hstart.ge (hstart.trans_lt hlt))

/-- The hole takes the start of the extent. -/
theorem Punching.cut_to_tail (h1 : ¬ e.logicalOffset.toUInt64 < offset)
    (h2 : e.logicalEnd.toUInt64 > stop) :
    Punching offset.toNat stop.toNat m₀
      ((m.remove e.start).insert (e.cut stop e.logicalEnd.toUInt64))
      (new ++ [inHole offset stop e]) := by
  have hs := h.disjoint.stop e he
  have hcuts := cuts_cut hle hs hstop hoffset
  rw [if_neg h1, if_pos h2] at hcuts
  have hstart := start_cut_end hs h2
  refine h.cut he hcuts (h.disjoint.replaced_one he ?_ ?_)
  · exact hstart.ge.trans' (start_lt hstop).le
  · exact hstart.trans_lt (lt_stop hs h2)

/-- The hole lies in the extent. -/
theorem Punching.cut_to_two (h1 : e.logicalOffset.toUInt64 < offset)
    (h2 : e.logicalEnd.toUInt64 > stop) :
    Punching offset.toNat stop.toNat m₀
      (((m.remove e.start).insert (e.cut e.logicalOffset.toUInt64 offset)).insert
        (e.cut stop e.logicalEnd.toUInt64)) (new ++ [inHole offset stop e]) := by
  have hs := h.disjoint.stop e he
  have hcuts := cuts_cut hle hs hstop hoffset
  rw [if_pos h1, if_pos h2] at hcuts
  have hstart : (e.cut e.logicalOffset.toUInt64 offset).start = e.start := by
    rw [cut_start]
  have htail := start_cut_end hs h2
  refine h.cut he hcuts (h.disjoint.replaced_two he hstart.ge ?_ ?_)
  · exact hstart.trans_lt (htail.ge.trans_lt' (start_lt hstop))
  · exact htail.trans_lt (lt_stop hs h2)

end

/-- Once an extent ends after the hole, the others are out of it. -/
theorem At.others (hm : m.Disjoint) (hit : m.At lo (some e)) (hhi : hi ≤ e.stop) {c : Extent}
    (hc : c ∈ (m.remove e.start).toList) : c.stop ≤ lo ∨ hi ≤ c.start := by
  obtain ⟨hcm, hne⟩ := SortedList.mem_remove.mp hc
  rcases lt_or_gt_of_ne hne with hlt | hgt
  · exact .inl (hit.2 c hcm hlt)
  · exact .inr (hhi.trans (hm.stop_le hit.1 hcm hgt))

/-- The loop ends, and the hole is out of the map then. -/
theorem punchLoop_spec {offset stop : UInt64} (hle : offset ≤ stop) {n : ℕ} (old : List OldExtent)
    (fuel : ℕ) {m : ExtentMap} {it : Option Extent} {new : List OldExtent}
    (h : Punching offset.toNat stop.toNat m₀ m new) (hit : m.At offset.toNat it)
    (hn : m.toList.length ≤ n) (hfuel : m.ending offset.toNat * (n + 1) + m.rest it ≤ fuel) :
    ∃ m' new', punchLoop offset stop fuel m it (old ++ new) = some (m', old ++ new') ∧
      Punched offset.toNat stop.toNat m₀ m' new' := by
  induction fuel generalizing m it new with
  | zero =>
    cases it with
    | none => exact ⟨m, new, rfl, h.done fun c hc => .inl (hit c hc)⟩
    | some e =>
      -- An extent is left, so there are rounds left.
      have hpos : 0 < m.rest (some e) := List.countP_pos_iff.mpr ⟨e, hit.1, by simp⟩
      omega
  | succ fuel ih =>
    cases it with
    | none => exact ⟨m, new, rfl, h.done fun c hc => .inl (hit c hc)⟩
    | some e =>
      have he := hit.1
      have hstop := h.disjoint.stop e he
      have hend : e.logicalEnd.toUInt64.toNat = e.stop := by
        rw [UInt32.toNat_toUInt64, Extent.logicalEnd_toNat hstop]
      have hlo : e.logicalOffset.toUInt64.toNat = e.start := UInt32.toNat_toUInt64 _
      by_cases hge : e.logicalOffset.toUInt64 ≥ stop
      · -- The extents before this one end before the hole, the others start after it.
        refine ⟨m, new, by simp [punchLoop, hge], h.done fun c hc => ?_⟩
        have hge' : stop.toNat ≤ e.start := hlo ▸ UInt64.le_iff_toNat_le.mp hge
        rcases lt_or_ge c.start e.start with hlt | hle'
        · exact .inl (hit.2 c hc hlt)
        · exact .inr (hge'.trans hle')
      by_cases hskip : e.logicalEnd.toUInt64 ≤ offset
      -- An extent that ends before the hole stays.
      · have hle' : e.stop ≤ offset.toNat := hend ▸ UInt64.le_iff_toNat_le.mp hskip
        have hrest : m.rest (m.next e.start) < m.rest (some e) := SortedList.rest_next_lt he
        obtain ⟨m', new', heq, hp⟩ := ih h (hit.next hle') hn (by omega)
        refine ⟨m', new', ?_, hp⟩
        simp only [punchLoop, if_neg hge, if_pos hskip]
        exact heq
      have hbegin := UInt64.not_le.mp hge
      have hafter := UInt64.not_le.mp hskip
      have herased := ending_remove_lt he (lt_stop hstop hafter)
      have hlen := SortedList.length_remove_lt he
      have hold : ∀ d : OldExtent, (old ++ new) ++ [d] = old ++ (new ++ [d]) := fun d =>
        List.append_assoc _ _ _
      by_cases h1 : e.logicalOffset.toUInt64 < offset
      -- The head of an extent that begins before the hole.
      · have hhead : (e.cut e.logicalOffset.toUInt64 offset).stop = offset.toNat :=
          Extent.stop_cut (UInt64.le_of_lt h1) (lt_stop hstop hafter).le hstop
        by_cases h2 : e.logicalEnd.toUInt64 > stop
        · have hp := h.cut_to_two hle he hbegin hafter h1 h2
          refine ⟨_, new ++ [inHole offset stop e], ?_, hp.done fun c hc => ?_⟩
          · simp only [punchLoop, if_neg hge, if_neg hskip, if_pos (And.intro h1 h2), hold]
            rw [cut_start]
            rfl
          · rcases SortedList.mem_place hc with rfl | hc
            · exact .inr (start_cut_end hstop h2).ge
            · rcases SortedList.mem_place hc with rfl | hc
              · exact .inl hhead.le
              · exact hit.others h.disjoint (lt_stop hstop h2).le hc
        · have hp := h.cut_to_head hle he hbegin hafter h1 h2
          have hless := (ending_insert_le (m := m.remove e.start) hhead.le).trans_lt herased
          have hcount := SortedList.length_insert_le (m.remove e.start)
            (e.cut e.logicalOffset.toUInt64 offset)
          rw [cut_start] at hp hless hcount
          have hn' := hcount.trans ((Nat.succ_le_of_lt hlen).trans hn)
          obtain ⟨m', new', heq, hdone⟩ := ih hp (at_seekOrBegin hp.disjoint offset) hn'
            (Nat.le_of_lt_succ ((rounds_lt hless ((SortedList.rest_le _ _).trans hn')).trans_le hfuel))
          refine ⟨m', new', ?_, hdone⟩
          rw [← heq]
          simp only [punchLoop, if_neg hge, if_neg hskip, if_neg (mt And.right h2), if_pos h1, hold]
          rfl
      · by_cases h2 : e.logicalEnd.toUInt64 > stop
        · have hp := h.cut_to_tail hle he hbegin hafter h1 h2
          refine ⟨_, new ++ [inHole offset stop e], ?_, hp.done fun c hc => ?_⟩
          · simp only [punchLoop, if_neg hge, if_neg hskip, if_neg (mt And.left h1), if_neg h1,
              if_pos h2, hold]
            rfl
          · rcases SortedList.mem_place hc with rfl | hc
            · exact .inr (start_cut_end hstop h2).ge
            · exact hit.others h.disjoint (lt_stop hstop h2).le hc
        · have hp := h.cut_all hle he hbegin hafter h1 h2
          have hn' := hlen.le.trans hn
          obtain ⟨m', new', heq, hdone⟩ := ih hp (at_seekOrBegin hp.disjoint offset) hn'
            (Nat.le_of_lt_succ ((rounds_lt herased ((SortedList.rest_le _ _).trans hn')).trans_le hfuel))
          refine ⟨m', new', ?_, hdone⟩
          rw [← heq]
          simp only [punchLoop, if_neg hge, if_neg hskip, if_neg (mt And.left h1), if_neg h1,
            if_neg h2, hold]
          rfl

/-! ## A hole that passes the last offset -/

/-- When the end of the hole is before its start, what is mapped at the start or after it stays. -/
theorem punchLoop_wrapped {offset stop : UInt64} (hlt : stop < offset) (hm : m.Disjoint)
    {f : Extent} (hf : f ∈ m.toList) {x : ℕ} (hx : offset.toNat ≤ x) (hfx : f.start ≤ x)
    (hxf : x < f.stop) {fuel : ℕ} {it : Option Extent} (hit : ∀ e ∈ it, e ∈ m.toList)
    {old old' : List OldExtent} (h : punchLoop offset stop fuel m it old = some (m', old')) :
    ∃ c ∈ m'.toList, c.start ≤ x ∧ x < c.stop := by
  induction fuel generalizing it with
  | zero =>
    cases it with
    | none =>
      cases h
      exact ⟨f, hf, hfx, hxf⟩
    | some e => cases h
  | succ fuel ih =>
    cases it with
    | none =>
      cases h
      exact ⟨f, hf, hfx, hxf⟩
    | some e =>
      have he := hit e rfl
      have hs := hm.stop e he
      by_cases hge : e.logicalOffset.toUInt64 ≥ stop
      · simp only [punchLoop, if_pos hge] at h
        cases h
        exact ⟨f, hf, hfx, hxf⟩
      by_cases hskip : e.logicalEnd.toUInt64 ≤ offset
      · simp only [punchLoop, if_neg hge, if_pos hskip] at h
        exact ih (fun g hg => (SortedList.next_eq_some hg).1) h
      -- The extent starts before the end and ends after the start, so it is split in two.
      have hbegin := UInt64.not_le.mp hge
      have hafter := UInt64.not_le.mp hskip
      have h1 : e.logicalOffset.toUInt64 < offset := UInt64.lt_trans hbegin hlt
      have h2 : e.logicalEnd.toUInt64 > stop := UInt64.lt_trans hlt hafter
      simp only [punchLoop, if_neg hge, if_neg hskip, if_pos (And.intro h1 h2)] at h
      cases h
      have hstart : (e.cut e.logicalOffset.toUInt64 offset).start = e.start := by
        rw [cut_start]
      have htail := start_cut_end hs h2
      have htailStop : (e.cut stop e.logicalEnd.toUInt64).stop = e.stop := by
        refine (Extent.stop_cut (UInt64.le_of_lt h2) ?_ hs).trans ?_ <;>
          rw [UInt32.toNat_toUInt64, Extent.logicalEnd_toNat hs]
      have hr := hm.replaced_two he hstart.ge (hstart.trans_lt (htail.ge.trans_lt' (start_lt hbegin)))
        (htail.trans_lt (lt_stop hs h2))
      rw [cut_start] at hr
      by_cases hfe : f = e
      · subst hfe
        refine ⟨_, (hr _).mpr (.inr (by simp)), htail.trans_le ?_, hxf.trans_eq htailStop.symm⟩
        exact (UInt64.le_iff_toNat_le.mp (UInt64.le_of_lt hlt)).trans hx
      · exact ⟨f, (hr f).mpr (.inl ⟨hf, hfe⟩), hfx, hxf⟩

/-- When nothing is mapped at the start of the hole or after it, and the end is before it, the loop
changes nothing. -/
theorem punchLoop_idle {offset stop : UInt64} (hlt : stop < offset) (hm : m.Disjoint)
    (hidle : ∀ e ∈ m.toList, e.stop ≤ offset.toNat ∨ e.length = 0) {fuel : ℕ}
    {it : Option Extent} (hit : ∀ e ∈ it, e ∈ m.toList) (hfuel : m.rest it ≤ fuel)
    (old : List OldExtent) : punchLoop offset stop fuel m it old = some (m, old) := by
  induction fuel generalizing it with
  | zero =>
    cases it with
    | none => rfl
    | some e =>
      have hpos : 0 < m.rest (some e) := List.countP_pos_iff.mpr ⟨e, hit e rfl, by simp⟩
      omega
  | succ fuel ih =>
    cases it with
    | none => rfl
    | some e =>
      have he := hit e rfl
      by_cases hge : e.logicalOffset.toUInt64 ≥ stop
      · simp only [punchLoop, if_pos hge]
      by_cases hskip : e.logicalEnd.toUInt64 ≤ offset
      · simp only [punchLoop, if_neg hge, if_pos hskip]
        have hrest : m.rest (m.next e.start) < m.rest (some e) := SortedList.rest_next_lt he
        exact ih (fun g hg => (SortedList.next_eq_some hg).1) (by omega)
      -- An empty extent would have to start before the end and end after the start.
      have hafter := lt_stop (hm.stop e he) (UInt64.not_le.mp hskip)
      have hbegin := start_lt (UInt64.not_le.mp hge)
      have hlt' := UInt64.lt_iff_toNat_lt.mp hlt
      rcases hidle e he with hle | hzero
      · omega
      · have hempty : e.stop = e.start := by rw [Extent.stop, hzero]; rfl
        omega

/-- What `seek_lextent` finds is in the map. -/
theorem mem_of_mem_seekOrBegin {offset : UInt64} :
    ∀ e ∈ m.seekOrBegin offset, e ∈ m.toList := by
  intro e he
  rcases Option.or_eq_some_iff.mp he with h | ⟨-, h⟩
  · unfold seekLextent at h
    cases hb : m.before (offset + 1).toUInt32.toNat with
    | none =>
      rw [hb] at h
      cases h
    | some it =>
      simp only [hb] at h
      split_ifs at h
      obtain rfl := Option.some.inj h
      exact (SortedList.before_eq_some hb).1
  · exact (SortedList.front_eq_some h).1

/-! ## The hole -/

/-- `punch_hole` takes the hole out of the map and reports what was in it, exactly when the end of
the hole is an offset, or there is nothing in the hole. -/
theorem punchHole_iff (hm : m.Disjoint) (offset length : UInt64) (old : List OldExtent) :
    (∃ m' new, m.punchHole offset length old = some (m', old ++ new) ∧
        Punched offset.toNat (offset.toNat + length.toNat) m m' new) ↔
      offset.toNat + length.toNat < 2 ^ 64 ∨
        ∀ e ∈ m.toList, e.stop ≤ offset.toNat ∨ e.length = 0 := by
  have hfuel : m.toList.length * (m.toList.length + 1) + m.toList.length ≤
      (m.toList.length + 1) ^ 2 := by nlinarith
  -- The end of the hole wraps, or it does not.
  by_cases hsum : offset.toNat + length.toNat < 2 ^ 64
  · refine iff_of_true ?_ (.inl hsum)
    have hstop : (offset + length).toNat = offset.toNat + length.toNat := by
      rw [UInt64.toNat_add]
      exact Nat.mod_eq_of_lt hsum
    have hle : offset ≤ offset + length := by
      rw [UInt64.le_iff_toNat_le, hstop]
      exact Nat.le_add_right _ _
    have hmeasure : m.ending offset.toNat * (m.toList.length + 1) + m.rest (m.seekOrBegin offset) ≤
        (m.toList.length + 1) ^ 2 := (Nat.add_le_add
      (Nat.mul_le_mul_right _ List.countP_le_length) (SortedList.rest_le _ _)).trans hfuel
    obtain ⟨m', new', heq, hp⟩ := punchLoop_spec hle old _ (Punching.start hm)
      (at_seekOrBegin hm offset) (le_refl _) hmeasure
    rw [List.append_nil] at heq
    exact ⟨m', new', heq, hstop ▸ hp⟩
  -- Where it wraps, the last byte of an extent behind the beginning stays mapped.
  · rw [or_iff_right hsum]
    have hstop : (offset + length).toNat = offset.toNat + length.toNat - 2 ^ 64 := by
      have := offset.toNat_lt
      have := length.toNat_lt
      rw [UInt64.toNat_add]
      omega
    have hlt : offset + length < offset := by
      have := length.toNat_lt
      rw [UInt64.lt_iff_toNat_lt]
      omega
    constructor
    · rintro ⟨m', new, heq, hp⟩ e he
      by_contra hcon
      push Not at hcon
      obtain ⟨hlate, hlength⟩ := hcon
      have hpos : 0 < e.length.toNat := Nat.pos_of_ne_zero fun h => hlength (UInt32.toNat_inj.mp h)
      have hes : e.stop = e.start + e.length.toNat := rfl
      obtain ⟨c, hc, hcx⟩ := punchLoop_wrapped (x := e.stop - 1) hlt hm he (by omega) (by omega)
        (by omega) mem_of_mem_seekOrBegin heq
      have hbyte := hm.stop e he
      exact ((hp.mapped _ _ _).mp ⟨c, hc, hcx.1, hcx.2, rfl, rfl⟩).2 ⟨by omega, by omega⟩
    · intro hidle
      have hout : ∀ x b o, m.Mapped x b o → ¬ offset.toNat ≤ x := by
        rintro x b o ⟨e, he, hlo, hhi, -⟩ hle
        rcases hidle e he with hstop | hzero
        · omega
        · have hempty : e.stop = e.start := by rw [Extent.stop, hzero]; rfl
          omega
      refine ⟨m, [], ?_, hm, fun x b o => ?_, fun x b o => ?_, List.Pairwise.nil⟩
      · rw [List.append_nil]
        exact punchLoop_idle hlt hm hidle mem_of_mem_seekOrBegin
          ((SortedList.rest_le _ _).trans (by nlinarith)) old
      · exact ⟨fun h => ⟨h, fun hx => hout x b o h hx.1⟩, And.left⟩
      · exact ⟨fun ⟨_, hd, _⟩ => absurd hd List.not_mem_nil, fun h => absurd h.2.1 (hout x b o h.1)⟩

/-- A map with one extent and a hole that passes the last offset: `punch_hole` splits the extent,
and the tail is in the hole. -/
theorem punchHole_wrapped :
    let m : ExtentMap := ⟨[⟨0, 0, 10, some 0⟩], List.pairwise_singleton _ _⟩
    m.Disjoint ∧ ¬ ∃ m' new, m.punchHole 5 0xffffffffffffffff [] = some (m', [] ++ new) ∧
      Punched 5 (5 + 0xffffffffffffffff) m m' new := by
  refine ⟨⟨by decide, by decide⟩, ?_⟩
  rintro ⟨m', new, heq, hp⟩
  obtain ⟨hm, -⟩ := Prod.mk.inj (Option.some.inj heq)
  have htail : m'.Mapped 5 (some 0) 5 := by
    rw [← hm]
    exact ⟨⟨4, 4, 6, some 0⟩, by decide, by decide, by decide, by decide, by decide⟩
  exact ((hp.mapped _ _ _).mp htail).2 ⟨by decide, by decide⟩

/-- `punch_hole` in the middle of an extent. -/
theorem punchHole_iff_middle :
    let m : ExtentMap := ⟨[⟨0, 0, 10, some 0⟩], List.pairwise_singleton _ _⟩
    (∃ m' new, m.punchHole 4 2 [] = some (m', [] ++ new) ∧
        Punched (4 : UInt64).toNat ((4 : UInt64).toNat + (2 : UInt64).toNat) m m' new) ↔
      (4 : UInt64).toNat + (2 : UInt64).toNat < 2 ^ 64 ∨
        ∀ e ∈ m.toList, e.stop ≤ (4 : UInt64).toNat ∨ e.length = 0 :=
  punchHole_iff (m := ⟨[⟨0, 0, 10, some 0⟩], List.pairwise_singleton _ _⟩)
    ⟨by decide, by decide⟩ 4 2 []

end ExtentMap

end CxxLab.Bluestore.Object
