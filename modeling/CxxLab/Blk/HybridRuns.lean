import CxxLab.Blk.HybridAllocator
import CxxLab.Blk.BitmapClaims

/-!
# Runs of the hybrid allocator

The bitmap holds a set of bytes (`Holds`): each call of the child adds a range to the set or takes
one away, so the trees with the bitmap are an AVL allocator whose subclass takes over what spills
over and yields what it is asked for. From this, in every run the ranges of the trees and the units
of the bitmap share no byte and are together what is free, whatever the cap on the ranges
(`free_bytes_split`), and what `allocate` returns was free and is returned once
(`allocate_gives_free`).

The bitmap allocator goes wrong where its scan does not come to whole blocks, and a claim to the
left of offset 0 does too. A call of `allocate` is one for which the bitmap, if it is asked, comes
to whole blocks, and no range that is given back begins at 0.
-/

namespace CxxLab.Blk.HybridAllocator

open AvlAllocator

variable {deviceSize blockSize rangeCountCap : ℕ}

/-! ## What the bitmap holds -/

/-- The free units of the bitmap are a set of bytes, and its counts are true. -/
structure Holds (deviceSize blockSize : ℕ) (c : Bitmap.State) (C : Set ℕ) : Prop where
  /-- `available` is what is free. -/
  books : c.Books
  /-- A unit is a block. -/
  granularity : c.granularity = blockSize
  /-- It is of the same device. -/
  device : c.deviceSize = deviceSize
  /-- A byte is held when its unit is free. -/
  mem : ∀ x, x ∈ C ↔ c.l0 (x / blockSize) = true

/-- A byte of a range of whole blocks, and its unit. -/
theorem unit_mem_iff {g s e x : ℕ} (hg : 0 < g) (hs : g ∣ s) (he : g ∣ e) :
    s ≤ g * (x / g) ∧ g * (x / g) < e ↔ x ∈ Set.Ico s e := by
  obtain ⟨a, rfl⟩ := hs
  obtain ⟨b, rfl⟩ := he
  rw [Nat.mul_le_mul_left_iff hg, Nat.mul_lt_mul_left hg, Nat.le_div_iff_mul_le hg,
    Nat.div_lt_iff_lt_mul hg, Nat.mul_comm a, Nat.mul_comm b, Set.mem_Ico]

/-- Rounding up changes nothing at the start of a unit. -/
theorem roundUp_of_dvd {g v : ℕ} (hg : 0 < g) (h : g ∣ v) : Bitmap.roundUp v g = v := by
  obtain ⟨m, rfl⟩ := h
  rw [Bitmap.roundUp, Nat.mul_add_div hg, Nat.div_eq_of_lt (by omega), Nat.add_zero, Nat.mul_comm]

/-- Nothing of a range of whole units is cut off. -/
theorem cut_eq_of_dvd {g s len : ℕ} (hg : 0 < g) (hs : g ∣ s) (hl : g ∣ len) :
    Bitmap.roundUp s g = s ∧ Bitmap.alignDown (s + len - s) g = len :=
  ⟨roundUp_of_dvd hg hs, by
    rw [Nat.add_sub_cancel_left, Bitmap.alignDown, Nat.div_mul_cancel hl]⟩

namespace Holds

variable {c : Bitmap.State} {C : Set ℕ} {s len : ℕ}

/-- A unit is not empty. -/
theorem pos (h : Holds deviceSize blockSize c C) : 0 < blockSize :=
  h.granularity ▸ h.books.valid.consistent.granularity

/-- A unit is free when its first byte is held. -/
theorem bit (h : Holds deviceSize blockSize c C) (u : ℕ) :
    c.l0 u = true ↔ blockSize * u ∈ C := by
  rw [h.mem, Nat.mul_div_cancel_left u h.pos]

/-- A range that is not held has no free unit. -/
theorem noneFree (h : Holds deviceSize blockSize c C) (hC : Disjoint C (Set.Ico s (s + len))) :
    c.NoneFree s len := by
  intro u h1 h2
  rw [h.granularity] at h1 h2
  rw [← Bool.not_eq_true, h.bit]
  exact fun hu => hC.notMem_of_mem_right ⟨h1, h2⟩ hu

/-- All units of a range that is held are free. -/
theorem allFree (h : Holds deviceSize blockSize c C) (hC : Set.Ico s (s + len) ⊆ C) :
    c.AllFree s len := by
  intro u h1 h2
  rw [h.granularity] at h1 h2
  exact (h.bit u).mpr (hC ⟨h1, h2⟩)

/-- `init_add_free` of whole blocks that are not held: they are. -/
theorem initAddFree (h : Holds deviceSize blockSize c C) (hs : blockSize ∣ s)
    (hl : blockSize ∣ len) (hlen : 0 < len) (hdev : s + len ≤ deviceSize)
    (hC : Disjoint C (Set.Ico s (s + len))) : ∃ c', c.initAddFree s len = some c' ∧
      Holds deviceSize blockSize c' (C ∪ Set.Ico s (s + len)) := by
  have hg := h.pos
  obtain ⟨hgran, hsize⟩ : c.granularity = blockSize ∧ c.deviceSize = deviceSize :=
    ⟨h.granularity, h.device⟩
  obtain ⟨hoff, hcut⟩ := cut_eq_of_dvd (g := c.granularity) (hgran ▸ hg) (hgran ▸ hs) (hgran ▸ hl)
  have hcall : c.initAddFree s len = some (c.markFree s len) := by
    unfold Bitmap.State.initAddFree
    simp only [hoff, hcut]
    rw [if_neg hlen.ne', if_neg (by omega), if_neg hlen.ne', if_pos (by omega)]
  have hbooks : (c.markFree s len).Books := by
    refine Bitmap.State.books_step h.books (.initAddFree s len) ?_ hcall
    change c.NoneFree (Bitmap.roundUp s c.granularity)
      (Bitmap.alignDown (s + len - Bitmap.roundUp s c.granularity) c.granularity)
    rw [hoff, hcut]
    exact h.noneFree hC
  obtain ⟨hsame, -⟩ := Bitmap.State.sameDevice_freed c s len
  refine ⟨_, hcall, hbooks, hsame.granularity.trans hgran, hsame.deviceSize.trans hsize,
    fun x => ?_⟩
  have hl0 : (c.markFree s len).l0 (x / blockSize) = (c.freed s len).l0 (x / blockSize) := rfl
  rw [hl0, Bitmap.State.freed_l0 len (hgran ▸ hg) (hgran ▸ hs), hgran]
  by_cases hx : x ∈ Set.Ico s (s + len)
  · rw [if_pos ((unit_mem_iff hg hs (dvd_add hs hl)).mpr hx)]
    exact iff_of_true (.inr hx) rfl
  · rw [if_neg (mt (unit_mem_iff hg hs (dvd_add hs hl)).mp hx), ← h.mem]
    exact or_iff_left hx

/-- `init_rm_free` of whole blocks that are held: they are not any more. -/
theorem initRmFree (h : Holds deviceSize blockSize c C) (hs : blockSize ∣ s)
    (hl : blockSize ∣ len) (hlen : 0 < len) (hdev : s + len ≤ deviceSize)
    (hC : Set.Ico s (s + len) ⊆ C) : ∃ c', c.initRmFree s len = some c' ∧
      Holds deviceSize blockSize c' (C \ Set.Ico s (s + len)) := by
  have hg := h.pos
  have hcons := h.books.valid.consistent
  obtain ⟨hgran, hsize⟩ : c.granularity = blockSize ∧ c.deviceSize = deviceSize :=
    ⟨h.granularity, h.device⟩
  obtain ⟨hoff, hcut⟩ := cut_eq_of_dvd (g := c.granularity) (hgran ▸ hg) (hgran ▸ hs) (hgran ▸ hl)
  have hfree := h.allFree hC
  -- The units of the range are counted in `available`.
  have hroom : len ≤ c.available := by
    have hle := Bitmap.State.run_le_freeBytes hcons (p := s / c.granularity)
      (n := len / c.granularity) fun u h1 h2 => by
        obtain ⟨a, rfl⟩ := hs
        obtain ⟨b, rfl⟩ := hl
        rw [hgran, Nat.mul_div_cancel_left _ hg] at h1
        rw [hgran, Nat.mul_div_cancel_left _ hg, Nat.mul_div_cancel_left _ hg] at h2
        refine hfree u ?_ ?_
        · rw [hgran]
          exact Nat.mul_le_mul_left _ h1
        · rw [hgran, ← Nat.mul_add]
          exact Nat.mul_lt_mul_of_pos_left h2 hg
    rw [hgran, Nat.mul_div_cancel' hl] at hle
    exact h.books.available ▸ hle
  obtain ⟨c', hmark⟩ : ∃ c', c.markAllocated s len = some c' := by
    have hsame := Bitmap.State.sameL0_markAllocL1L0 c (s / c.granularity)
      (Bitmap.roundUp (s + len) c.granularity / c.granularity)
    have hlast : c.l2Last (s + len) ≤ c.entries :=
      Bitmap.State.l2Last_le hcons.granularity ((hsize ▸ hdev).trans hcons.device)
    unfold Bitmap.State.markAllocated
    dsimp only
    rw [Bitmap.State.l2First_congr hsame.granularity, Bitmap.State.l2Last_congr hsame.granularity]
    unfold Bitmap.State.markL2OnL1
    have hent : c.l2Last (s + len) ≤ (c.markAllocL1L0 (s / c.granularity)
        (Bitmap.roundUp (s + len) c.granularity / c.granularity)).entries :=
      hsame.entries ▸ hlast
    have havail : len ≤ (c.markAllocL1L0 (s / c.granularity)
        (Bitmap.roundUp (s + len) c.granularity / c.granularity)).available :=
      hsame.available ▸ hroom
    rw [if_pos (.inr hent), Option.bind_eq_bind, Option.bind_some, if_pos havail]
    exact ⟨_, rfl⟩
  have hcall : c.initRmFree s len = some c' := by
    unfold Bitmap.State.initRmFree
    simp only [hoff, hcut]
    rw [if_neg hlen.ne', if_neg (by omega), if_neg hlen.ne', if_pos (by omega), hmark]
  -- The books balance, since exactly these units were taken.
  have hbooks : c'.Books := by
    refine Bitmap.State.books_step h.books (.initRmFree s len) ?_ hcall
    change c.AllFree (Bitmap.roundUp s c.granularity)
      (Bitmap.alignDown (s + len - Bitmap.roundUp s c.granularity) c.granularity)
    rw [hoff, hcut]
    exact hfree
  obtain ⟨hsame, -, -⟩ := Bitmap.State.freeBytes_markAllocated hcons (hgran ▸ hs) (hgran ▸ hl) hlen
    hfree hmark
  refine ⟨c', hcall, hbooks, hsame.granularity.trans hgran, hsame.deviceSize.trans hsize,
    fun x => ?_⟩
  rw [(hcons.markAllocated hlen hmark).2, hgran]
  simp only [Bitmap.State.div_le_iff_of_dvd hg hs]
  -- A byte of the range is not held any more, any other one is as before.
  by_cases hx : x ∈ Set.Ico s (s + len)
  · rw [if_pos ((unit_mem_iff hg hs (dvd_add hs hl)).mpr hx)]
    exact iff_of_false (fun hd => hd.2 hx) (by simp)
  · rw [if_neg (mt (unit_mem_iff hg hs (dvd_add hs hl)).mp hx), ← h.mem]
    exact and_iff_left hx

/-- What a claim has taken is not held any more. -/
theorem of_claimed {p q a : ℕ} {c' : Bitmap.State} (h : Holds deviceSize blockSize c C)
    (hbooks : c'.Books) (hsame : Bitmap.State.SameDevice c c')
    (hclaimed : Bitmap.State.Claimed c p q a c')
    (hfree : ∀ u, p ≤ u → u < q → c.l0 u = true) :
    Set.Ico (blockSize * p) (blockSize * q) ⊆ C ∧
      Holds deviceSize blockSize c' (C \ Set.Ico (blockSize * p) (blockSize * q)) := by
  have hg := h.pos
  have hin : ∀ x, x ∈ Set.Ico (blockSize * p) (blockSize * q) ↔
      p ≤ x / blockSize ∧ x / blockSize < q := fun x => by
    rw [Nat.le_div_iff_mul_le hg, Nat.div_lt_iff_lt_mul hg, Nat.mul_comm p, Nat.mul_comm q,
      Set.mem_Ico]
  refine ⟨fun x hx => ?_, hbooks, hsame.granularity.trans h.granularity,
    hsame.deviceSize.trans h.device, fun x => ?_⟩
  · obtain ⟨h1, h2⟩ := (hin x).mp hx
    exact (h.mem x).mpr (hfree _ h1 h2)
  · rw [hclaimed.marked]
    by_cases hx : x ∈ Set.Ico (blockSize * p) (blockSize * q)
    · rw [if_pos ((hin x).mp hx)]
      exact iff_of_false (fun hd => hd.2 hx) (by simp)
    · rw [if_neg (mt (hin x).mpr hx), ← h.mem]
      exact and_iff_left hx

/-- `claim_free_to_left` of the start of a block: bytes that end there are not held any more. -/
theorem claimFreeToLeft (h : Holds deviceSize blockSize c C) (hs : blockSize ∣ s) (hpos : 0 < s)
    (hdev : s ≤ deviceSize) : ∃ a c', c.claimFreeToLeft s = some (a, c') ∧ blockSize ∣ a ∧
      a ≤ s ∧ Set.Ico (s - a) s ⊆ C ∧ Holds deviceSize blockSize c' (C \ Set.Ico (s - a) s) := by
  have hcons := h.books.valid.consistent
  obtain ⟨r, a, c', hcall, hrun, hclaimed⟩ := (Bitmap.State.claimsLeft_iff hcons
    (h.granularity ▸ hs) (h.device ▸ hdev)).mpr ⟨hpos, h.books.available⟩
  obtain ⟨-, hsame, -⟩ := hcons.claimFreeToLeft hcall
  have hbooks : c'.Books := Bitmap.State.books_step h.books (.claimFreeToLeft s) trivial (by
    change (c.claimFreeToLeft s).map Prod.snd = some c'
    rw [hcall]
    rfl)
  -- The units from `r` to the claimed end are free, and `r` is where they begin.
  obtain ⟨m, rfl⟩ := hs
  have hlen := hclaimed.length
  rw [h.granularity, Nat.mul_div_cancel_left m h.pos] at hrun hclaimed hlen
  have hle := hrun.le
  have hstart : blockSize * m - a = blockSize * r := by
    rw [hlen, ← Nat.mul_sub, Nat.sub_sub_self hle]
  obtain ⟨hsub, hholds⟩ := h.of_claimed hbooks ⟨hsame.1, hsame.2, hsame.3, hsame.4⟩ hclaimed
    hrun.free
  refine ⟨a, c', hcall, ⟨_, hlen⟩, ?_, ?_, ?_⟩
  · rw [hlen]
    exact Nat.mul_le_mul_left _ (Nat.sub_le m r)
  · rw [hstart]
    exact hsub
  · rw [hstart]
    exact hholds

/-- `claim_free_to_right` of the end of a block: bytes that start there are not held any more. -/
theorem claimFreeToRight (h : Holds deviceSize blockSize c C) (hs : blockSize ∣ s)
    (hdev : s ≤ deviceSize) : ∃ a c', c.claimFreeToRight s = some (a, c') ∧ blockSize ∣ a ∧
      Set.Ico s (s + a) ⊆ C ∧ Holds deviceSize blockSize c' (C \ Set.Ico s (s + a)) := by
  have hcons := h.books.valid.consistent
  obtain ⟨r, a, c', hcall, hrun, hclaimed⟩ := (Bitmap.State.claimsRight_iff hcons
    (h.granularity ▸ hs) (h.device ▸ hdev)).mpr h.books.available
  obtain ⟨-, hsame, -⟩ := hcons.claimFreeToRight hcall
  have hbooks : c'.Books := Bitmap.State.books_step h.books (.claimFreeToRight s) trivial (by
    change (c.claimFreeToRight s).map Prod.snd = some c'
    rw [hcall]
    rfl)
  obtain ⟨m, rfl⟩ := hs
  have hlen := hclaimed.length
  rw [h.granularity, Nat.mul_div_cancel_left m h.pos] at hrun hclaimed hlen
  have hle := hrun.le
  have hstop : blockSize * m + a = blockSize * r := by
    rw [hlen, ← Nat.mul_add, Nat.add_sub_cancel' hle]
  obtain ⟨hsub, hholds⟩ := h.of_claimed hbooks ⟨hsame.1, hsame.2, hsame.3, hsame.4⟩ hclaimed
    hrun.free
  refine ⟨a, c', hcall, ⟨_, hlen⟩, ?_, ?_⟩
  · rw [hstop]
    exact hsub
  · rw [hstop]
    exact hholds

/-- `pextent_t`s as pairs. -/
def pairs (res : List Bitmap.PExtent) : List (ℕ × ℕ) := res.map fun e => (e.offset, e.length)

/-- The units of aligned extents are those of their bytes. -/
theorem mem_cover_iff {g x : ℕ} (hg : 0 < g) {res : List Bitmap.PExtent}
    (h : ∀ e ∈ res, g ∣ e.offset ∧ g ∣ e.length) :
    x / g ∈ Bitmap.cover g res ↔ x ∈ bytesOf (pairs res) := by
  have hone : ∀ e ∈ res, x / g ∈ List.range' (e.offset / g) (e.length / g) ↔
      e.offset ≤ x ∧ x < e.offset + e.length := by
    intro e he
    obtain ⟨⟨a, ha⟩, b, hb⟩ := h e he
    rw [List.mem_range'_1, ha, hb, Nat.mul_div_cancel_left _ hg, Nat.mul_div_cancel_left _ hg,
      ← Nat.mul_add, Nat.le_div_iff_mul_le hg, Nat.div_lt_iff_lt_mul hg, Nat.mul_comm a,
      Nat.mul_comm (a + b)]
  constructor
  · intro hx
    obtain ⟨e, he, hin⟩ := List.mem_flatMap.mp hx
    exact ⟨_, List.mem_map_of_mem he, (hone e he).mp hin⟩
  · rintro ⟨q, hq, hin⟩
    obtain ⟨e, he, rfl⟩ := List.mem_map.mp hq
    exact List.mem_flatMap.mpr ⟨e, he, (hone e he).mpr hin⟩

/-- `allocate`, where the scan comes to whole blocks: the extents were held, and are not any
more. -/
theorem allocate (h : Holds deviceSize blockSize c C) {want unit maxAllocSize : ℕ} {hint : ℤ}
    (hu : isp2 unit = true) (hblock : blockSize ∣ unit) (hwant : unit ∣ want)
    (hmax : unit ≤ maxAllocSize) (hcomes : c.ComesToBlocks want unit hint) :
    ∃ r c' res, c.allocate want unit maxAllocSize hint [] = some (r, c', res) ∧
      Extents C unit maxAllocSize (pairs res) ∧ total (pairs res) ≤ want ∧
      (res = [] ∧ r = -28 ∨ res ≠ [] ∧ r = (total (pairs res) : ℕ)) ∧
      Holds deviceSize blockSize c' (C \ bytesOf (pairs res)) := by
  have hg := h.pos
  have hu0 : 0 < unit := by
    obtain ⟨k, rfl⟩ := exists_two_pow_of_isp2 hu
    exact Nat.two_pow_pos k
  -- The call meets what the scan's own theorem asks for.
  have hadm : c.Admissible want unit :=
    ⟨h.books.valid.granularity, hu, h.granularity ▸ Nat.le_of_dvd hu0 hblock, hwant⟩
  have hcalled : c.Sound want unit maxAllocSize hint :=
    (Bitmap.State.sound_iff h.books.valid hadm).mpr hcomes
  obtain ⟨r, c', res, hcall, hsound⟩ := hcalled
  have hal : ∀ e ∈ res, blockSize ∣ e.offset ∧ blockSize ∣ e.length := fun e he =>
    ⟨hblock.trans (hsound.aligned e he).1, hblock.trans (hsound.aligned e he).2.1⟩
  have hcover := fun x => mem_cover_iff (x := x) hg hal
  have hsum : total (pairs res) = (res.map Bitmap.PExtent.length).sum := by
    simp [total, pairs, Function.comp_def]
  -- What is promised of the extents, then of the books.
  refine ⟨r, c', res, hcall, ⟨fun x hx => ?_, ?_, ?_, ?_⟩, hsum ▸ hsound.le, ?_, ?_, ?_, ?_,
    fun x => ?_⟩
  · refine (h.mem x).mpr (hsound.free _ ?_)
    rw [h.granularity]
    exact (hcover x).mpr hx
  · refine List.pairwise_map.mpr (hsound.disjoint.imp fun {a b} hab => ?_)
    rw [bytesOf_one, bytesOf_one]
    refine Set.disjoint_left.mpr fun x hx hx' => ?_
    have h1 : a.offset ≤ x ∧ x < a.offset + a.length := hx
    have h2 : b.offset ≤ x ∧ x < b.offset + b.length := hx'
    have hsides : a.offset + a.length ≤ b.offset ∨ b.offset + b.length ≤ a.offset := hab
    omega
  · intro e he
    obtain ⟨q, hq, rfl⟩ := List.mem_map.mp he
    exact ⟨(hsound.aligned q hq).1, (hsound.aligned q hq).2.1⟩
  · intro e he
    obtain ⟨q, hq, rfl⟩ := List.mem_map.mp he
    exact ⟨(hsound.aligned q hq).2.2, hsound.short hmax q hq⟩
  · rw [hsum]
    exact hsound.total
  · refine Bitmap.State.books_step h.books (.allocate want unit maxAllocSize hint) hcomes ?_
    change (c.allocate want unit maxAllocSize hint []).map (fun r => r.2.1) = some c'
    rw [hcall]
    rfl
  · have htook := Bitmap.State.allocate_took h.books.valid.consistent hadm hcall
    exact htook.2.1.granularity.trans h.granularity
  · have htook := Bitmap.State.allocate_took h.books.valid.consistent hadm hcall
    exact htook.2.1.deviceSize.trans h.device
  · rw [hsound.marked, h.granularity, Bool.and_eq_true, ← h.mem, decide_eq_true_eq, hcover]
    exact Iff.rfl

/-- `get_free` counts the bytes that are held. -/
theorem getFree_eq (h : Holds deviceSize blockSize c C) : C.Finite ∧ c.getFree = C.ncard := by
  have hg := h.pos
  have hcons := h.books.valid.consistent
  have hmem : ∀ u, u ∈ c.freeUnits ↔ c.l0 u = true := fun u =>
    SetBits.mem_setBits.trans ⟨And.right, fun hu => ⟨⟨Nat.zero_le u, hcons.l0 u hu⟩, hu⟩⟩
  -- A byte is a unit and a place in it.
  have himage : C = ((c.freeUnits.toFinset ×ˢ Finset.range blockSize).image
      fun p => blockSize * p.1 + p.2 : Finset ℕ) := by
    ext x
    simp only [Finset.coe_image, Set.mem_image, Finset.mem_coe, Finset.mem_product,
      List.mem_toFinset, Finset.mem_range, Prod.exists, hmem]
    constructor
    · intro hx
      exact ⟨x / blockSize, x % blockSize, ⟨(h.mem x).mp hx, Nat.mod_lt x hg⟩, Nat.div_add_mod _ _⟩
    · rintro ⟨u, i, ⟨hu, hi⟩, rfl⟩
      rw [h.mem, Nat.mul_add_div hg, Nat.div_eq_of_lt hi, Nat.add_zero]
      exact hu
  have hinj : Set.InjOn (fun p : ℕ × ℕ => blockSize * p.1 + p.2)
      (c.freeUnits.toFinset ×ˢ Finset.range blockSize : Finset (ℕ × ℕ)) := by
    rintro ⟨u, i⟩ hu ⟨v, j⟩ hv heq
    simp only [Finset.mem_coe, Finset.mem_product, Finset.mem_range] at hu hv heq
    have hdiv : u = v := by
      have hdiv := congrArg (· / blockSize) heq
      simpa only [Nat.mul_add_div hg, Nat.div_eq_of_lt hu.2, Nat.div_eq_of_lt hv.2,
        Nat.add_zero] using hdiv
    subst hdiv
    rw [Nat.add_left_cancel heq]
  refine ⟨himage ▸ Finset.finite_toSet _, ?_⟩
  have hnodup : c.freeUnits.Nodup := SetBits.setBits_nodup _ _ _
  have hcard : C.ncard = c.freeUnits.length * blockSize := by
    rw [himage, Set.ncard_coe_finset, Finset.card_image_of_injOn hinj, Finset.card_product,
      Finset.card_range, List.toFinset_card_of_nodup hnodup]
  rw [hcard, Nat.mul_comm, ← h.granularity]
  exact h.books.available

end Holds

/-! ## The bitmap as the subclass of the trees -/

/-- The bitmap takes over what spills over. -/
theorem takesOver (deviceSize blockSize rangeCountCap : ℕ) :
    TakesOver (hybridConfig deviceSize blockSize rangeCountCap) (Holds deviceSize blockSize) := by
  intro c C s e h hs he hse hdev hC
  have hlen : s + (e - s) = e := by omega
  obtain ⟨c', hc', hholds⟩ := h.initAddFree hs (Nat.dvd_sub he hs) (by omega) (hlen.symm ▸ hdev)
    (hlen.symm ▸ hC)
  rw [hlen] at hholds
  exact ⟨c', hc', hholds⟩

/-- It yields what is not found in the trees. -/
theorem yields (deviceSize blockSize rangeCountCap : ℕ) :
    Yields (hybridConfig deviceSize blockSize rangeCountCap) (Holds deviceSize blockSize)
      rmFromChild where
  found _ _ _ := rfl
  missing c C s e h hs he hse hdev hC := by
    have hlen : s + (e - s) = e := by omega
    obtain ⟨c', hc', hholds⟩ := h.initRmFree hs (Nat.dvd_sub he hs) (by omega) (hlen.symm ▸ hdev)
      (hlen.symm ▸ hC)
    rw [hlen] at hholds
    exact ⟨c', hc', hholds⟩

section

variable {cfg : AvlConfig Bitmap.State} {H : Bitmap.State → Set ℕ → Prop}

/-- The subclass gives bytes away. -/
theorem give {A C F R : Set ℕ} {l : List RangeSeg} {c c' : Bitmap.State}
    (h : Shared cfg H A C F l c) (hR : R ⊆ C) (hc' : H c' (C \ R)) :
    Shared cfg H A (C \ R) (F \ R) l c' where
  runs := h.runs
  blocks := h.blocks
  holds := hc'
  apart := h.apart.mono_right Set.sdiff_subset
  total := by
    rw [← h.total, Set.union_sdiff_distrib, (h.apart.mono_right hR).sdiff_eq_left]
  within := ⟨h.within.device, fun x hx => h.within.mem x hx.1⟩

/-- The trees with another child. -/
theorem spread_child {A C F : Set ℕ} {t : HybridAllocator} {c' : Bitmap.State}
    {extra : List RangeSeg} {F' : Set ℕ} (h : Spread cfg H extra F' t)
    (hshared : Shared cfg H A C F t.rangeTree c') :
    Spread cfg H extra F { t with child := c' } :=
  ⟨⟨A, C, hshared⟩, h.perm, h.sized.perm, h.sized.sorted, h.sized.numFree⟩

end

/-- `_add_to_tree` of whole blocks that are not free, and not at 0: no assertion fails, whatever the
cap, and they are free. -/
theorem addToTree_spread {F : Set ℕ} {t : HybridAllocator}
    (h : Spread (hybridConfig deviceSize blockSize rangeCountCap) (Holds deviceSize blockSize) []
      F t)
    (hcap : Capped (hybridConfig deviceSize blockSize rangeCountCap) t) {s size : ℕ}
    (hs : blockSize ∣ s) (hl : blockSize ∣ size) (hpos : 0 < s) (hsize : 0 < size)
    (hdev : s + size ≤ deviceSize) (hF : Disjoint F (Set.Ico s (s + size))) :
    ∃ t', addToTree (hybridConfig deviceSize blockSize rangeCountCap) t s size = some t' ∧
      Spread (hybridConfig deviceSize blockSize rangeCountCap) (Holds deviceSize blockSize) []
        (F ∪ Set.Ico s (s + size)) t' ∧
      Capped (hybridConfig deviceSize blockSize rangeCountCap) t' := by
  obtain ⟨A, C, hshared⟩ := h.shared
  have hCF : C ⊆ F := hshared.total ▸ Set.subset_union_right
  obtain ⟨a, c1, h1, hda, hle, hsub1, hholds1⟩ :=
    hshared.holds.claimFreeToLeft hs hpos (by omega)
  -- What is claimed on both sides leaves the bitmap, and is a part of the range that is added.
  have hshared1 := give hshared hsub1 hholds1
  obtain ⟨b, c2, h2, hdb, hsub2, hholds2⟩ := hholds1.claimFreeToRight (dvd_add hs hl) hdev
  have hshared2 := give hshared1 hsub2 hholds2
  have hF1 : ∀ x, s - a ≤ x → x < s → x ∈ F := fun x hx hx' => hCF (hsub1 ⟨hx, hx'⟩)
  have hF2 : ∀ x, s + size ≤ x → x < s + size + b → x ∈ F := fun x hx hx' =>
    hCF (hsub2 ⟨hx, hx'⟩).1
  have hdev' : s - a + (size + (a + b)) ≤ deviceSize := by
    rcases Nat.eq_zero_or_pos b with h0 | hb
    · omega
    · have hlast : s + size + b - 1 < deviceSize :=
        hshared.within.mem _ (hF2 _ (by omega) (by omega))
      omega
  have hend : s - a + (size + (a + b)) = s + size + b := by omega
  obtain ⟨t', ht', hspread, hcap'⟩ := (spread_child h hshared2).addToTree
    (takesOver deviceSize blockSize rangeCountCap) hcap (Nat.dvd_sub hs hda)
    (dvd_add hl (dvd_add hda hdb)) (by omega) hdev' (by
      refine Set.disjoint_left.mpr fun x hx hin => ?_
      rw [hend] at hin
      obtain ⟨⟨hx, hx1⟩, hx2⟩ := hx
      have hin' : s - a ≤ x ∧ x < s + size + b := hin
      rcases Nat.lt_or_ge x s with hlt | hge
      · exact hx1 ⟨hin'.1, hlt⟩
      · rcases Nat.lt_or_ge x (s + size) with hlt | hge'
        · exact hF.notMem_of_mem_left hx ⟨hge, hlt⟩
        · exact hx2 ⟨hge', hin'.2⟩)
  refine ⟨t', ?_, ?_, hcap'⟩
  · unfold addToTree
    simp only [h1, h2, Option.bind_eq_bind, Option.bind_some]
    exact ht'
  · have hset : (F \ Set.Ico (s - a) s) \ Set.Ico (s + size) (s + size + b) ∪
        Set.Ico (s - a) (s - a + (size + (a + b))) = F ∪ Set.Ico s (s + size) := by
      ext x
      rw [hend]
      have hx1 := hF1 x
      have hx2 := hF2 x
      simp only [Set.mem_union, Set.mem_sdiff, Set.mem_Ico]
      grind
    rw [← hset]
    exact hspread

/-! ## Allocation -/

/-- What a part of `allocate` has given: extents of free bytes, which are not free any more. -/
structure Gives (cfg : AvlConfig Bitmap.State) (H : Bitmap.State → Set ℕ → Prop) (F : Set ℕ)
    (unit limit want : ℕ) (out : Got) : Prop where
  /-- The extents. -/
  extents : Extents F unit limit out.2.1
  /-- Their total is counted. -/
  allocated : out.1 = total out.2.1
  /-- It is not more than was asked for. -/
  le : out.1 ≤ want
  /-- They are not free any more. -/
  spread : Spread cfg H [] (F \ bytesOf out.2.1) out.2.2
  /-- The ranges are no more than the cap. -/
  capped : Capped cfg out.2.2

/-- A result that counts its extents adds them. -/
theorem got_eq {r : ℤ} {es : List (ℕ × ℕ)} {t : HybridAllocator}
    (hr : es = [] ∧ r = -28 ∨ es ≠ [] ∧ r = (total es : ℕ)) (hpos : ∀ e ∈ es, 0 < e.2) :
    got r es t = (total es, es, t) := by
  rcases hr with ⟨rfl, rfl⟩ | ⟨hne, rfl⟩
  · rfl
  · have htotal : 0 < total es := by
      obtain ⟨e, l, rfl⟩ := List.exists_cons_of_ne_nil hne
      have he := hpos e List.mem_cons_self
      have hsum : total (e :: l) = e.2 + total l := List.sum_cons
      omega
    rw [got, if_pos (by exact_mod_cast htotal), Int.toNat_natCast]

section

variable {F : Set ℕ} {t : HybridAllocator} {k want m : ℕ}

/-- The trees give what they find. -/
theorem askTrees_gives
    (h : Spread (hybridConfig deviceSize blockSize rangeCountCap) (Holds deviceSize blockSize) []
      F t)
    (hcap : Capped (hybridConfig deviceSize blockSize rangeCountCap) t) (hk : k < 64)
    (hblock : blockSize ∣ 2 ^ k) (hm : 0 < m) (hdm : 2 ^ k ∣ m) (hdvd : 2 ^ k ∣ want)
    (hwant : want < 0x8000000000000000) (pastEnd : ℕ) :
    ∃ out, askTrees (hybridConfig deviceSize blockSize rangeCountCap) pastEnd (2 ^ k) m want t =
        some out ∧
      Gives (hybridConfig deviceSize blockSize rangeCountCap) (Holds deviceSize blockSize) F (2 ^ k)
        m want out := by
  obtain ⟨t', es, hloop, hes, htotal, hspread, hcap'⟩ := Spread.allocateLoop
    (takesOver deviceSize blockSize rangeCountCap) hk hblock pastEnd hm hdm want h hcap hdvd
  have hpos : ∀ e ∈ es, 0 < e.2 := fun e he => (hes.bounded e he).1
  have hret := allocateReturn_eq hpos (htotal.trans_lt hwant)
  have hgot : got (allocateReturn es) es t' = (total es, es, t') := by
    refine got_eq ?_ hpos
    by_cases hnil : es = []
    · exact .inl ⟨hnil, hret.trans (if_pos hnil)⟩
    · exact .inr ⟨hnil, hret.trans (if_neg hnil)⟩
  refine ⟨(total es, es, t'), ?_, hes, rfl, htotal, hspread, hcap'⟩
  rw [askTrees, hloop, Option.map_some, hgot]

/-- So does the bitmap, where its scan comes to whole blocks. -/
theorem askChild_gives
    (h : Spread (hybridConfig deviceSize blockSize rangeCountCap) (Holds deviceSize blockSize) []
      F t)
    (hcap : Capped (hybridConfig deviceSize blockSize rangeCountCap) t) {unit : ℕ} {hint : ℤ}
    (hu : isp2 unit = true) (hblock : blockSize ∣ unit) (hm : unit ≤ m) (hdvd : unit ∣ want)
    (hcomes : t.child.ComesToBlocks want unit hint) :
    ∃ out, askChild unit m hint want t = some out ∧
      Gives (hybridConfig deviceSize blockSize rangeCountCap) (Holds deviceSize blockSize) F unit m
        want out := by
  obtain ⟨A, C, hshared⟩ := h.shared
  have hCF : C ⊆ F := hshared.total ▸ Set.subset_union_right
  obtain ⟨r, c', res, hcall, hes, htotal, hr, hholds⟩ :=
    hshared.holds.allocate hu hblock hdvd hm hcomes
  have hpairs : Holds.pairs res = [] ↔ res = [] := List.map_eq_nil_iff
  have hgot : got r (Holds.pairs res) { t with child := c' } =
      (total (Holds.pairs res), Holds.pairs res, { t with child := c' }) := by
    refine got_eq ?_ fun e he => (hes.bounded e he).1
    exact hr.imp (And.imp_left hpairs.mpr) (And.imp_left (mt hpairs.mp))
  refine ⟨(total (Holds.pairs res), Holds.pairs res, { t with child := c' }), ?_,
    ⟨hes.free.trans hCF, hes.disjoint, hes.aligned, hes.bounded⟩, rfl, htotal,
    spread_child h (give hshared hes.free hholds), hcap⟩
  rw [askChild, hcall, Option.map_some]
  exact congrArg some hgot

/-- Both parts give what they find, when the second gives from what the first leaves. -/
theorem askBoth_gives {cfg : AvlConfig Bitmap.State} {H : Bitmap.State → Set ℕ → Prop} {unit : ℕ}
    {first second : ℕ → HybridAllocator → Option Got} {out : Got}
    (h1 : first want t = some out) (hgives : Gives cfg H F unit m want out)
    (h2 : out.1 < want → ∃ out', second (want - out.1) out.2.2 = some out' ∧
      Gives cfg H (F \ bytesOf out.2.1) unit m (want - out.1) out') :
    ∃ out, askBoth first second want t = some out ∧ Gives cfg H F unit m want out := by
  unfold askBoth
  rw [h1, Option.bind_eq_bind, Option.bind_some]
  dsimp only
  split_ifs with hlt
  · obtain ⟨out', h2, hgives'⟩ := h2 hlt
    rw [h2, Option.bind_some]
    refine ⟨_, rfl, hgives.extents.append hgives'.extents, ?_, ?_, ?_, hgives'.capped⟩
    · have hsum : total (out.2.1 ++ out'.2.1) = total out.2.1 + total out'.2.1 := by simp [total]
      exact (congrArg₂ _ hgives.allocated hgives'.allocated).trans hsum.symm
    · have hle := hgives'.le
      dsimp only
      omega
    · dsimp only
      rw [bytesOf_append, ← Set.sdiff_sdiff]
      exact hgives'.spread
  · exact ⟨_, rfl, hgives⟩

end

/-- What `allocate` asks the bitmap for, and the bitmap then, if it asks it. -/
def asked (cfg : AvlConfig Bitmap.State) (t : HybridAllocator)
    (pastEnd want unit maxAllocSize : ℕ) : Option (Bitmap.State × ℕ) :=
  if tryBitmapFirst t want then some (t.child, want)
  else
    (askTrees cfg pastEnd unit (maxExtent cfg want maxAllocSize) want t).bind fun out =>
      if out.1 < want then some (out.2.2.child, want - out.1) else none

/-! ## Runs -/

/-- The calls. `stale` is what `_try_remove_from_tree` reads from the node of a range that has spilt
over, and `pastEnd` what `_pick_block_after` reads behind the last range. -/
inductive Call where
  /-- `init_add_free`. -/
  | initAddFree (offset length : ℕ)
  /-- `init_rm_free`. -/
  | initRmFree (stale offset length : ℕ)
  /-- `allocate`. -/
  | allocate (pastEnd want unit maxAllocSize : ℕ) (hint : ℤ)
  /-- `release` of a set of intervals. -/
  | release (rs : List (ℕ × ℕ))

/-- The allocator, and the bytes that should be free. -/
structure Modelled where
  /-- The allocator. -/
  allocator : HybridAllocator
  /-- The free bytes. -/
  free : Set ℕ

/-- A new allocator, with no free byte. -/
def Modelled.init (deviceSize blockSize : ℕ) : Modelled := ⟨create deviceSize blockSize, ∅⟩

/-- A call, on the allocator and on the free bytes. -/
def call (cfg : AvlConfig Bitmap.State) (s : Modelled) : Call → Option Modelled
  | .initAddFree offset length =>
    (initAddFree cfg s.allocator offset length).map fun t =>
      ⟨t, s.free ∪ bytesOf [(offset, length)]⟩
  | .initRmFree stale offset length =>
    (initRmFree cfg s.allocator stale offset length).map fun t =>
      ⟨t, s.free \ bytesOf [(offset, length)]⟩
  | .allocate pastEnd want unit maxAllocSize hint =>
    (allocate cfg s.allocator pastEnd want unit maxAllocSize hint).map fun p =>
      ⟨p.2.2, s.free \ bytesOf p.2.1⟩
  | .release rs => (release cfg rs s.allocator).map fun t => ⟨t, s.free ∪ bytesOf rs⟩

/-- What callers promise: whole blocks of the device, added when they are not free, and not at 0,
and removed when they are; a set of intervals that are not empty and do not meet; and units of whole
blocks, of which the largest extent is a multiple, for which the bitmap, if it is asked, comes to
whole units. -/
def Call.Allowed (cfg : AvlConfig Bitmap.State) (s : Modelled) : Call → Prop
  | .initAddFree offset length =>
    cfg.blockSize ∣ offset ∧ cfg.blockSize ∣ length ∧ 0 < offset ∧
      offset + length ≤ cfg.deviceSize ∧ Disjoint s.free (bytesOf [(offset, length)])
  | .initRmFree _ offset length =>
    cfg.blockSize ∣ offset ∧ cfg.blockSize ∣ length ∧ offset + length ≤ cfg.deviceSize ∧
      bytesOf [(offset, length)] ⊆ s.free
  | .allocate pastEnd want unit maxAllocSize hint =>
    want < 0x8000000000000000 ∧ unit < wordEnd ∧ isp2 unit = true ∧ want % unit = 0 ∧
      cfg.blockSize ∣ unit ∧ 0 < maxExtent cfg want maxAllocSize ∧
      unit ∣ maxExtent cfg want maxAllocSize ∧
      ∀ q ∈ asked cfg s.allocator pastEnd want unit maxAllocSize,
        q.1.ComesToBlocks q.2 unit hint
  | .release rs =>
    (∀ r ∈ rs, cfg.blockSize ∣ r.1 ∧ cfg.blockSize ∣ r.2 ∧ 0 < r.1 ∧ 0 < r.2 ∧
      r.1 + r.2 ≤ cfg.deviceSize) ∧ Disjoint s.free (bytesOf rs) ∧
      rs.Pairwise fun r q => Disjoint (bytesOf [r]) (bytesOf [q])

/-- The free bytes are spread over the trees and the bitmap, and the ranges are no more than the
cap. -/
structure Stands (deviceSize blockSize rangeCountCap : ℕ) (F : Set ℕ) (t : HybridAllocator) :
    Prop where
  /-- The free bytes. -/
  spread : Spread (hybridConfig deviceSize blockSize rangeCountCap) (Holds deviceSize blockSize) []
    F t
  /-- The ranges. -/
  capped : Capped (hybridConfig deviceSize blockSize rangeCountCap) t

/-- A new allocator. -/
theorem stands_create (hd : deviceSize < 0x8000000000000000) (hb : isp2 blockSize = true)
    (hword : deviceSize + 131072 * blockSize ≤ wordEnd) :
    Stands deviceSize blockSize rangeCountCap ∅ (create deviceSize blockSize) where
  spread := by
    refine ⟨⟨∅, ∅, ⟨.nil rfl, fun x y _ hx => hx, ?_, Set.disjoint_empty _, Set.union_self _, hd,
      fun x hx => absurd hx (Set.notMem_empty x)⟩⟩, List.Perm.refl _, List.Perm.refl _,
      List.Pairwise.nil, rfl⟩
    exact ⟨Bitmap.State.books_create hb hword, rfl, rfl, fun x =>
      iff_of_false (Set.notMem_empty x) Bool.false_ne_true⟩
  capped := .inr (Nat.zero_le _)

/-- An allowed `allocate` returns, with extents of free bytes, which are not free any more. -/
theorem Stands.allocate {s : Modelled}
    (h : Stands deviceSize blockSize rangeCountCap s.free s.allocator)
    {pastEnd want unit maxAllocSize : ℕ} {hint : ℤ}
    (hc : (Call.allocate pastEnd want unit maxAllocSize hint).Allowed
      (hybridConfig deviceSize blockSize rangeCountCap) s) :
    ∃ r es t', HybridAllocator.allocate (hybridConfig deviceSize blockSize rangeCountCap)
        s.allocator pastEnd want unit maxAllocSize hint = some (r, es, t') ∧
      Extents s.free unit
        (maxExtent (hybridConfig deviceSize blockSize rangeCountCap) want maxAllocSize) es ∧
      total es ≤ want ∧ r = (if es = [] then -28 else (total es : ℤ)) ∧
      Stands deviceSize blockSize rangeCountCap (s.free \ bytesOf es) t' := by
  obtain ⟨hwant, huw, hu, hmul, hblock, hm, hdm, hcomes⟩ := hc
  obtain ⟨-, -, k, rfl⟩ := unit_le hu huw
  have hk : k < 64 := by
    rw [wordEnd_eq] at huw
    exact (Nat.pow_lt_pow_iff_right (by norm_num)).mp huw
  have hdvd : 2 ^ k ∣ want := Nat.dvd_of_mod_eq_zero hmul
  unfold asked at hcomes
  generalize hmax : maxExtent (hybridConfig deviceSize blockSize rangeCountCap) want
    maxAllocSize = m at hm hdm hcomes ⊢
  have hle : 2 ^ k ≤ m := Nat.le_of_dvd hm hdm
  -- What the first part leaves to ask for is a multiple of the unit again.
  have hrest : ∀ {out : Got} {F : Set ℕ} {cfg : AvlConfig Bitmap.State}
      {H : Bitmap.State → Set ℕ → Prop} {limit : ℕ}, Gives cfg H F (2 ^ k) limit want out →
      2 ^ k ∣ want - out.1 := by
    intro out F cfg H limit hgives
    refine Nat.dvd_sub hdvd ?_
    rw [hgives.allocated]
    exact List.dvd_sum fun n hn => by
      obtain ⟨e, he, rfl⟩ := List.mem_map.mp hn
      exact (hgives.extents.aligned e he).2
  -- Whichever part is asked first, the other gives of what is left.
  obtain ⟨out, hout, hgives⟩ : ∃ out, (if tryBitmapFirst s.allocator want then
      askBoth (askChild (2 ^ k) m hint)
        (askTrees (hybridConfig deviceSize blockSize rangeCountCap) pastEnd (2 ^ k) m) want
        s.allocator
      else askBoth (askTrees (hybridConfig deviceSize blockSize rangeCountCap) pastEnd (2 ^ k) m)
        (askChild (2 ^ k) m hint) want s.allocator) = some out ∧
      Gives (hybridConfig deviceSize blockSize rangeCountCap) (Holds deviceSize blockSize) s.free
        (2 ^ k) m want out := by
    split_ifs with hfirst
    · rw [if_pos hfirst] at hcomes
      obtain ⟨out, h1, hg1⟩ := askChild_gives h.spread h.capped hu hblock hle hdvd (hcomes _ rfl)
      exact askBoth_gives h1 hg1 fun _ => askTrees_gives hg1.spread hg1.capped hk hblock hm hdm
        (hrest hg1) (by omega) pastEnd
    · rw [if_neg hfirst] at hcomes
      obtain ⟨out, h1, hg1⟩ :=
        askTrees_gives h.spread h.capped hk hblock hm hdm hdvd hwant pastEnd
      refine askBoth_gives h1 hg1 fun hlt => ?_
      refine askChild_gives hg1.spread hg1.capped hu hblock hle (hrest hg1) ?_
      refine hcomes (out.2.2.child, want - out.1) ?_
      rw [h1, Option.bind_some, if_pos hlt]
      rfl
  refine ⟨if out.1 = 0 then -28 else (out.1 : ℤ), out.2.1, out.2.2, ?_, hgives.extents,
    hgives.allocated ▸ hgives.le, ?_, hgives.spread, hgives.capped⟩
  · unfold HybridAllocator.allocate
    rw [if_pos ⟨hu, hmul⟩]
    dsimp only
    rw [hmax, hout]
    rfl
  · rw [← hgives.allocated]
    -- Nothing was got exactly when no extent was returned.
    have hnil : out.2.1 = [] ↔ out.1 = 0 := by
      rw [hgives.allocated]
      cases hes : out.2.1 with
      | nil => simp [total]
      | cons e es =>
        have he := (hgives.extents.bounded e (by simp [hes])).1
        have hsum : total (e :: es) = e.2 + total es := List.sum_cons
        exact iff_of_false (List.cons_ne_nil e es) (by omega)
    exact if_congr hnil.symm rfl rfl

/-- `release` of intervals that are not free. -/
theorem Stands.release {F : Set ℕ} {t : HybridAllocator} {rs : List (ℕ × ℕ)}
    (h : Stands deviceSize blockSize rangeCountCap F t)
    (hin : ∀ r ∈ rs, blockSize ∣ r.1 ∧ blockSize ∣ r.2 ∧ 0 < r.1 ∧ 0 < r.2 ∧
      r.1 + r.2 ≤ deviceSize) (hF : Disjoint F (bytesOf rs))
    (hrs : rs.Pairwise fun r q => Disjoint (bytesOf [r]) (bytesOf [q])) :
    ∃ t', HybridAllocator.release (hybridConfig deviceSize blockSize rangeCountCap) rs t = some t' ∧
      Stands deviceSize blockSize rangeCountCap (F ∪ bytesOf rs) t' := by
  induction rs generalizing F t with
  | nil => exact ⟨t, rfl, by simpa [bytesOf] using h⟩
  | cons r rs ih =>
    obtain ⟨o, n⟩ := r
    obtain ⟨ho, hn, hpos, hlen, hdev⟩ := hin _ List.mem_cons_self
    obtain ⟨hr, hrs'⟩ := List.pairwise_cons.mp hrs
    have hcons : bytesOf ((o, n) :: rs) = Set.Ico o (o + n) ∪ bytesOf rs := by
      rw [← bytesOf_one, ← bytesOf_append]
      rfl
    rw [hcons, Set.disjoint_union_right] at hF
    -- The other intervals are not free once the first is, since no two of them meet.
    obtain ⟨t1, h1, hs1, hcap1⟩ := addToTree_spread h.spread h.capped ho hn hpos hlen hdev hF.1
    obtain ⟨t2, h2, hs2⟩ := ih ⟨hs1, hcap1⟩ (fun q hq => hin q (List.mem_cons_of_mem _ hq)) (by
      refine Set.disjoint_union_left.mpr ⟨hF.2, Set.disjoint_left.mpr fun x hx hx' => ?_⟩
      obtain ⟨q, hq, hxq⟩ := hx'
      exact Set.disjoint_left.mp (hr q hq) (bytesOf_one o n ▸ hx) ⟨q, by simp, hxq⟩) hrs'
    refine ⟨t2, ?_, ?_⟩
    · have hdev' : o + n ≤ (hybridConfig deviceSize blockSize rangeCountCap).deviceSize := hdev
      simp only [HybridAllocator.release, AvlAllocator.release, if_pos hdev', h1, Option.bind_some]
      exact h2
    · rw [hcons, ← Set.union_assoc]
      exact hs2

/-- Every allowed call goes through. -/
theorem stands_call {s : Modelled}
    (h : Stands deviceSize blockSize rangeCountCap s.free s.allocator) {c : Call}
    (hc : c.Allowed (hybridConfig deviceSize blockSize rangeCountCap) s) :
    ∃ s', call (hybridConfig deviceSize blockSize rangeCountCap) s c = some s' ∧
      Stands deviceSize blockSize rangeCountCap s'.free s'.allocator := by
  have hempty : ∀ offset, bytesOf [(offset, 0)] = ∅ := fun offset => by
    rw [bytesOf_one, Nat.add_zero, Set.Ico_self]
  cases c with
  | initAddFree offset length =>
    obtain ⟨ho, hl, hpos, hdev, hF⟩ := hc
    rw [bytesOf_one] at hF
    simp only [call, initAddFree, AvlAllocator.initAddFree]
    by_cases hlen : length = 0
    · refine ⟨_, by rw [if_pos hlen, Option.map_some], ?_⟩
      rw [hlen, hempty, Set.union_empty]
      exact h
    · obtain ⟨t', ht', hs, hcap⟩ :=
        addToTree_spread h.spread h.capped ho hl hpos (Nat.pos_of_ne_zero hlen) hdev hF
      refine ⟨_, by rw [if_neg hlen, if_pos hdev, ht', Option.map_some], ?_, hcap⟩
      rw [bytesOf_one]
      exact hs
  | initRmFree stale offset length =>
    obtain ⟨ho, hl, hdev, hF⟩ := hc
    rw [bytesOf_one] at hF
    simp only [call, initRmFree]
    by_cases hlen : length = 0
    · refine ⟨_, by rw [if_pos hlen, Option.map_some], ?_⟩
      rw [hlen, hempty, Set.sdiff_empty]
      exact h
    · obtain ⟨t', ht', hs, hcap⟩ := h.spread.tryRemoveFromTree
        (takesOver deviceSize blockSize rangeCountCap) (yields deviceSize blockSize rangeCountCap)
        stale h.capped ho hl (Nat.pos_of_ne_zero hlen) hF
      refine ⟨_, by rw [if_neg hlen, if_pos hdev, ht', Option.map_some], ?_, hcap⟩
      rw [bytesOf_one]
      exact hs
  | allocate pastEnd want unit maxAllocSize hint =>
    obtain ⟨r, es, t', ht', -, -, -, hs⟩ := h.allocate hc
    exact ⟨⟨t', s.free \ bytesOf es⟩, by simp only [call, ht', Option.map_some], hs⟩
  | release rs =>
    obtain ⟨hin, hF, hrs⟩ := hc
    obtain ⟨t', ht', hs⟩ := h.release hin hF hrs
    exact ⟨⟨t', s.free ∪ bytesOf rs⟩, by simp only [call, ht', Option.map_some], hs⟩

/-- The trees count the bytes of their ranges. -/
theorem sumLen_eq_ncard : ∀ {l : List RangeSeg} {A : Set ℕ}, MaximalRuns A l →
    A.Finite ∧ A.ncard = sumLen l
  | [], A, h => by
    have hA : A = ∅ := by
      ext x
      rw [h.mem]
      simp
    rw [hA]
    exact ⟨Set.finite_empty, Set.ncard_empty _⟩
  | r :: l, A, h => by
    have hne := h.nonempty r List.mem_cons_self
    have hrun : MaximalRuns A ([] ++ r :: l) := h
    have htail : MaximalRuns (A \ Set.Ico r.1 r.2) l := by
      simpa [MaximalRuns.pieces] using hrun.cut le_rfl hne le_rfl
    obtain ⟨hfin, hcard⟩ := sumLen_eq_ncard htail
    have hsub : Set.Ico r.1 r.2 ⊆ A := fun x hx =>
      (h.mem x).mpr ⟨r, List.mem_cons_self, hx.1, hx.2⟩
    have hfinA : A.Finite := by
      rw [← Set.sdiff_union_of_subset hsub]
      exact hfin.union (Set.finite_Ico _ _)
    have hico : (Set.Ico r.1 r.2).ncard = RangeSeg.len r := by
      rw [← Finset.coe_Ico, Set.ncard_coe_finset, Nat.card_Ico]
      rfl
    refine ⟨hfinA, ?_⟩
    rw [← Set.ncard_sdiff_add_ncard_of_subset hsub hfinA, hcard, hico, sumLen_cons, Nat.add_comm]

/-- The bytes of the ranges of the trees. -/
def treeBytes (t : HybridAllocator) : Set ℕ := {x | ∃ r ∈ t.rangeTree, r.1 ≤ x ∧ x < r.2}

/-- The bytes of the free units of the bitmap. -/
def bitmapBytes (blockSize : ℕ) (t : HybridAllocator) : Set ℕ :=
  {x | t.child.l0 (x / blockSize) = true}

/-- What `Stands` says of the trees and the bitmap. -/
theorem Stands.split {F : Set ℕ} {t : HybridAllocator}
    (h : Stands deviceSize blockSize rangeCountCap F t) :
    Disjoint (treeBytes t) (bitmapBytes blockSize t) ∧
      treeBytes t ∪ bitmapBytes blockSize t = F ∧ getFree t = F.ncard ∧
      (rangeCountCap = 0 ∨ t.rangeTree.length ≤ rangeCountCap) := by
  obtain ⟨A, C, hshared⟩ := h.spread.shared
  have hA : treeBytes t = A := Set.ext fun x => (hshared.runs.mem x).symm
  have hC : bitmapBytes blockSize t = C := Set.ext fun x => (hshared.holds.mem x).symm
  obtain ⟨hfinA, hcardA⟩ := sumLen_eq_ncard hshared.runs
  obtain ⟨hfinC, hcardC⟩ := hshared.holds.getFree_eq
  have hperm : t.rangeTree.Perm t.rangeSizeTree := h.spread.perm
  have hnum : t.numFree = sumLen t.rangeTree :=
    h.spread.sized.numFree.trans (sumLen_perm hperm.symm)
  rw [hA, hC]
  refine ⟨hshared.apart, hshared.total, ?_, h.capped.imp_right hperm.length_eq.le.trans⟩
  rw [← hshared.total, Set.ncard_union_eq hshared.apart hfinA hfinC, hcardA, ← hcardC, ← hnum]
  rfl

/-- In every run of calls that keep their promises, whatever the cap, no assertion fails, and in the
state reached the ranges of the trees and the free units of the bitmap share no byte, together they
are what is free, `get_free` counts it, and the ranges are no more than the cap. -/
theorem free_bytes_split (deviceSize blockSize rangeCountCap : ℕ)
    (hd : deviceSize < 0x8000000000000000) (hb : isp2 blockSize = true)
    (hword : deviceSize + 131072 * blockSize ≤ wordEnd) (calls : List Call)
    (hok : Runs.Meets (call (hybridConfig deviceSize blockSize rangeCountCap))
      (fun s c => c.Allowed (hybridConfig deviceSize blockSize rangeCountCap) s)
      (.init deviceSize blockSize) calls) :
    ∃ s, Runs.exec (call (hybridConfig deviceSize blockSize rangeCountCap))
        (.init deviceSize blockSize) calls = some s ∧
      Disjoint (treeBytes s.allocator) (bitmapBytes blockSize s.allocator) ∧
      treeBytes s.allocator ∪ bitmapBytes blockSize s.allocator = s.free ∧
      getFree s.allocator = s.free.ncard ∧
      (rangeCountCap = 0 ∨ s.allocator.rangeTree.length ≤ rangeCountCap) := by
  obtain ⟨s, hrun, hs⟩ := Runs.exec_total (fun _ _ h hc => stands_call h hc) calls
    (.init deviceSize blockSize) (stands_create hd hb hword) hok
  exact ⟨s, hrun, hs.split⟩

/-- In every state that such a run reaches, an allowed call of `allocate` returns extents that were
free, do not meet, are multiples of the unit and no longer than the largest extent; it returns their
total, or `-ENOSPC` when there are none, and they and nothing else are no longer free. -/
theorem allocate_gives_free (deviceSize blockSize rangeCountCap : ℕ)
    (hd : deviceSize < 0x8000000000000000) (hb : isp2 blockSize = true)
    (hword : deviceSize + 131072 * blockSize ≤ wordEnd) (calls : List Call)
    (hok : Runs.Meets (call (hybridConfig deviceSize blockSize rangeCountCap))
      (fun s c => c.Allowed (hybridConfig deviceSize blockSize rangeCountCap) s)
      (.init deviceSize blockSize) calls) (s : Modelled)
    (hs : Runs.exec (call (hybridConfig deviceSize blockSize rangeCountCap))
      (.init deviceSize blockSize) calls = some s)
    (pastEnd want unit maxAllocSize : ℕ) (hint : ℤ)
    (hc : (Call.allocate pastEnd want unit maxAllocSize hint).Allowed
      (hybridConfig deviceSize blockSize rangeCountCap) s) :
    ∃ r es t, allocate (hybridConfig deviceSize blockSize rangeCountCap) s.allocator pastEnd want
        unit maxAllocSize hint = some (r, es, t) ∧
      Extents s.free unit
        (maxExtent (hybridConfig deviceSize blockSize rangeCountCap) want maxAllocSize) es ∧
      total es ≤ want ∧ r = (if es = [] then -28 else (total es : ℤ)) ∧
      treeBytes t ∪ bitmapBytes blockSize t = s.free \ bytesOf es := by
  obtain ⟨s', hs', hstands⟩ := Runs.exec_total (fun _ _ h hc => stands_call h hc) calls
    (.init deviceSize blockSize) (stands_create hd hb hword) hok
  rw [hs, Option.some.injEq] at hs'
  subst hs'
  obtain ⟨r, es, t, hcall, hext, hle, hr, hleft⟩ := hstands.allocate hc
  exact ⟨r, es, t, hcall, hext, hle, hr, hleft.split.2.1⟩

/-- A cap of one range: the first spills over when the second, which is longer, is added; the third
takes it back from the bitmap and then finds no room, and a block of it is removed again. -/
def spillAndClaim : List Call :=
  [.initAddFree 0x1000 0x1000, .initAddFree 0x4000 0x3000, .initAddFree 0x2000 0x1000,
    .initRmFree 0 0x1000 0x1000]

/-- What an addition makes free. -/
theorem free_of_initAddFree {cfg : AvlConfig Bitmap.State} {s s' : Modelled} {offset length : ℕ}
    (h : call cfg s (.initAddFree offset length) = some s') :
    s'.free = s.free ∪ Set.Ico offset (offset + length) := by
  obtain ⟨t, -, rfl⟩ := Option.map_eq_some_iff.mp (by simpa only [call] using h)
  change s.free ∪ bytesOf [(offset, length)] = _
  rw [bytesOf_one]

/-- The calls of `spillAndClaim` keep their promises, and its ranges spill over. -/
theorem free_bytes_split_spillAndClaim :
    ∃ s, Runs.exec (call (hybridConfig 0x10000 0x1000 1)) (.init 0x10000 0x1000) spillAndClaim =
        some s ∧
      Disjoint (treeBytes s.allocator) (bitmapBytes 0x1000 s.allocator) ∧
      treeBytes s.allocator ∪ bitmapBytes 0x1000 s.allocator = s.free ∧
      getFree s.allocator = s.free.ncard ∧ (1 = 0 ∨ s.allocator.rangeTree.length ≤ 1) := by
  refine free_bytes_split 0x10000 0x1000 1 (by decide) (by decide) (by decide) spillAndClaim ?_
  refine ⟨⟨by decide, by decide, by decide, by decide, Set.empty_disjoint _⟩, fun s1 h1 => ?_⟩
  have f1 := free_of_initAddFree h1
  refine ⟨⟨by decide, by decide, by decide, by decide, ?_⟩, fun s2 h2 => ?_⟩
  · rw [f1, bytesOf_one]
    refine Set.disjoint_left.mpr fun x hx hx' => ?_
    simp [Modelled.init] at hx hx'
    omega
  have f2 := free_of_initAddFree h2
  refine ⟨⟨by decide, by decide, by decide, by decide, ?_⟩, fun s3 h3 => ?_⟩
  · rw [f2, f1, bytesOf_one]
    refine Set.disjoint_left.mpr fun x hx hx' => ?_
    simp [Modelled.init] at hx hx'
    omega
  have f3 := free_of_initAddFree h3
  refine ⟨⟨by decide, by decide, by decide, ?_⟩, fun _ _ => trivial⟩
  rw [f3, f2, f1, bytesOf_one]
  intro x hx
  simp [Modelled.init] at hx ⊢
  omega

/-- A cap of one range: the first spills over when the second, which is longer, is added. -/
def spillOnly : List Call := [.initAddFree 0x1000 0x1000, .initAddFree 0x4000 0x3000]

/-- Four blocks, of which the trees have three and the bitmap the last. -/
theorem allocate_gives_free_oneRange :
    ∃ s, Runs.exec (call (hybridConfig 0x10000 0x1000 1)) (.init 0x10000 0x1000) spillOnly = some s ∧
      ∃ r es t, allocate (hybridConfig 0x10000 0x1000 1) s.allocator 0 0x4000 0x1000 0 0 =
          some (r, es, t) ∧
        Extents s.free 0x1000 (maxExtent (hybridConfig 0x10000 0x1000 1) 0x4000 0) es ∧
        total es ≤ 0x4000 ∧ r = (if es = [] then -28 else (total es : ℤ)) ∧
        treeBytes t ∪ bitmapBytes 0x1000 t = s.free \ bytesOf es := by
  have hrun : (Runs.exec (call (hybridConfig 0x10000 0x1000 1)) (.init 0x10000 0x1000)
      spillOnly).bind (fun s => (asked (hybridConfig 0x10000 0x1000 1) s.allocator 0 0x4000 0x1000
        0).map fun q => (q.2, q.1.granularity, q.1.l0 1,
          decide (0 ∈ Bitmap.firsts (q.1.plan (q.1.startPos 0))))) =
      some (0x1000, 0x1000, true, true) := by
    decide +kernel
  obtain ⟨s, hs, hrun⟩ := Option.bind_eq_some_iff.mp hrun
  obtain ⟨q, hq, hrun⟩ := Option.map_eq_some_iff.mp hrun
  simp only [Prod.mk.injEq, decide_eq_true_eq] at hrun
  obtain ⟨hwant, hgran, hbit, hfirst⟩ := hrun
  refine ⟨s, hs, ?_⟩
  refine allocate_gives_free 0x10000 0x1000 1 (by decide) (by decide) (by decide) spillOnly ?_ s hs 0
    0x4000 0x1000 0 0 ?_
  · refine ⟨⟨by decide, by decide, by decide, by decide, Set.empty_disjoint _⟩, fun s1 h1 => ?_⟩
    refine ⟨⟨by decide, by decide, by decide, by decide, ?_⟩, fun _ _ => trivial⟩
    rw [free_of_initAddFree h1, bytesOf_one]
    refine Set.disjoint_left.mpr fun x hx hx' => ?_
    simp [Modelled.init] at hx hx'
    omega
  · refine ⟨by decide, by decide, by decide, by decide, by decide, by decide, by decide, ?_⟩
    rintro q' hq'
    obtain rfl := Option.some.inj (hq.symm.trans hq')
    rw [hwant]
    -- The block of the bitmap is the one that is left to find.
    have hmem : 1 ∈ (Bitmap.firsts (q.1.plan (q.1.startPos 0))).flatMap
        (Bitmap.State.freeUnder q.1.l0) :=
      List.mem_flatMap.mpr ⟨0, hfirst, Bitmap.State.mem_freeUnder.mpr ⟨Bitmap.State.under_iff.mpr (by norm_num), hbit⟩⟩
    have hone : 0x1000 / q.1.granularity = 1 := by rw [hgran]
    refine ⟨.inl ?_, .inr ⟨by decide, ?_, ?_⟩⟩
    · rw [hone]
      exact List.length_pos_of_mem hmem
    · rw [hgran]
      decide
    · rw [hone]
      exact SetBits.blockClosed_one _

end CxxLab.Blk.HybridAllocator
