import CxxLab.Blk.Intarith
import Mathlib.Tactic

/-!
# The bitmap allocator

`blk/bitmap_allocator.cc`: one bit for each allocation unit (L0), two bits for 512 of these (L1),
and one bit for 256 L1 entries (L2). A set bit is free space. A slot is a word of 64 bits; a vector
of slots is the function from the index of a bit to the bit, with its number of slots beside it, and
an L1 entry is one of its three values. A failed assertion, an index outside of a vector, a shift by
64 or more and a length below zero are `none`.

Sizes are numbers: for units below 4 GiB and a device below 2^63 bytes nothing here reaches 2^64.
The alignments that `p2align` and `p2roundup` are called with are powers of two.
-/

namespace CxxLab.Blk.Bitmap

/-- `bits_per_slot`. -/
@[simp] def bitsPerSlot : ℕ := 64

/-- `slots_per_slotset`. -/
@[simp] def slotsPerSlotset : ℕ := 8

/-- `bits_per_slotset`. -/
@[simp] def bitsPerSlotset : ℕ := 512

/-- The L1 entries under one L2 bit. -/
@[simp] def l1PerL2 : ℕ := 256

/-- `align_down`. -/
def alignDown (v a : ℕ) : ℕ := v / a * a

/-- `round_up`. -/
def roundUp (v a : ℕ) : ℕ := (v + (a - 1)) / a * a

/-- The values of an L1 entry. -/
inductive L1Entry where
  /-- `L1_ENTRY_FULL`. -/
  | full
  /-- `L1_ENTRY_PARTIAL`. -/
  | mixed
  /-- `L1_ENTRY_FREE`. -/
  | free
  deriving DecidableEq, Repr

/-- `pextent_t`. -/
structure PExtent where
  offset : ℕ
  length : ℕ
  deriving DecidableEq, Repr

/-- `AllocatorLevel02`, with the `AllocatorLevel01Loose` in it. -/
structure State where
  /-- `device_size`. -/
  deviceSize : ℕ
  /-- `l0_granularity`. -/
  granularity : ℕ
  /-- The L2 entries that have L1 entries. `l1` has eight slots for each, and `l0` has 2048. -/
  entries : ℕ
  /-- The slots of `l2`. -/
  l2Slots : ℕ
  /-- `l0`. -/
  l0 : ℕ → Bool
  /-- `l1`. -/
  l1 : ℕ → L1Entry
  /-- `l2`. -/
  l2 : ℕ → Bool
  /-- `partial_l1_count`. -/
  partialL1Count : ℕ
  /-- `unalloc_l1_count`. -/
  unallocL1Count : ℕ
  /-- `available`. -/
  available : ℕ
  /-- `last_pos`. -/
  lastPos : ℕ

/-- An interval of an `interval_set`. -/
structure Interval where
  start : ℕ
  len : ℕ
  pos : 0 < len

/-- What an allocation has so far: `*allocated` and `*res`. -/
structure Out where
  allocated : ℕ
  res : List PExtent

/-- The difference of two words. -/
def wordSub (a b : ℕ) : ℕ := (a + (wordEnd - b % wordEnd)) % wordEnd

namespace State

/-! ## Slots -/

/-- `slot == all_slot_clear`. -/
def slotClear (bits : ℕ → Bool) (slot : ℕ) : Bool :=
  (List.range bitsPerSlot).all fun i => !bits (bitsPerSlot * slot + i)

/-- `slot == all_slot_set`. -/
def slotSet (bits : ℕ → Bool) (slot : ℕ) : Bool :=
  (List.range bitsPerSlot).all fun i => bits (bitsPerSlot * slot + i)

/-- `find_next_set_bit`, where `none` is -1. -/
def findNextSetBit (bits : ℕ → Bool) (slot start : ℕ) : Option ℕ :=
  (List.range' start (bitsPerSlot - start)).find? fun i => bits (bitsPerSlot * slot + i)

/-- A bit of a slot is written. -/
def setBit (bits : ℕ → Bool) (p : ℕ) (v : Bool) : ℕ → Bool := Function.update bits p v

/-- A slot is written. -/
def setSlot (bits : ℕ → Bool) (slot : ℕ) (v : Bool) : ℕ → Bool :=
  fun p => if p / bitsPerSlot = slot then v else bits p

/-! ## L0 -/

/-- `_mark_alloc_l0` and `_mark_free_l0`, which write the other value: single bits up to the next
slot, then slots, then single bits. -/
def markL0 (v : Bool) : ℕ → ℕ → ℕ → (ℕ → Bool) → ℕ → Bool
  | 0, _, _, bits => bits
  | fuel + 1, p, l0End, bits =>
    if p < l0End then
      if p % bitsPerSlot = 0 ∧ p + bitsPerSlot ≤ l0End then
        markL0 v fuel (p + bitsPerSlot) l0End (setSlot bits (p / bitsPerSlot) v)
      else markL0 v fuel (p + 1) l0End (setBit bits p v)
    else bits

/-- `_mark_alloc_l0`. -/
def markAllocL0 (bits : ℕ → Bool) (l0Start l0End : ℕ) : ℕ → Bool :=
  markL0 false (l0End - l0Start) l0Start l0End bits

/-- `_mark_free_l0`. -/
def markFreeL0 (bits : ℕ → Bool) (l0Start l0End : ℕ) : ℕ → Bool :=
  markL0 true (l0End - l0Start) l0Start l0End bits

/-! ## L1 -/

/-- The value of an L1 entry from its 512 bits. -/
def entryOf (bits : ℕ → Bool) (e : ℕ) : L1Entry :=
  if (List.range slotsPerSlotset).all fun i => slotClear bits (slotsPerSlotset * e + i) then .full
  else if (List.range slotsPerSlotset).all fun i => slotSet bits (slotsPerSlotset * e + i) then
    .free
  else .mixed

/-- One entry of `_mark_l1_on_l0`, with the counters. -/
def markEntry (s : State) (e : ℕ) : State :=
  let old := s.l1 e
  let nxt := entryOf s.l0 e
  if old = nxt then s
  else
    { s with
      partialL1Count := s.partialL1Count - (if old = .mixed then 1 else 0) +
        (if nxt = .mixed then 1 else 0)
      unallocL1Count := s.unallocL1Count - (if old = .free then 1 else 0) +
        (if nxt = .free then 1 else 0)
      l1 := Function.update s.l1 e nxt }

/-- `_mark_l1_on_l0`. -/
def markL1OnL0 (s : State) (l0Start l0End : ℕ) : State :=
  let first := l0Start / bitsPerSlotset
  let last := roundUp l0End bitsPerSlotset / bitsPerSlotset
  (List.range' first (last - first)).foldl markEntry s

/-- `_mark_alloc_l1_l0`. -/
def markAllocL1L0 (s : State) (l0Start l0End : ℕ) : State :=
  markL1OnL0 { s with l0 := markAllocL0 s.l0 l0Start l0End } (alignDown l0Start bitsPerSlotset)
    (roundUp l0End bitsPerSlotset)

/-- `_mark_free_l1_l0`. -/
def markFreeL1L0 (s : State) (l0Start l0End : ℕ) : State :=
  markL1OnL0 { s with l0 := markFreeL0 s.l0 l0Start l0End } (alignDown l0Start bitsPerSlotset)
    (roundUp l0End bitsPerSlotset)

/-- `_free_l1`. -/
def freeL1 (s : State) (offset length : ℕ) : State :=
  markFreeL1L0 s (offset / s.granularity)
    (roundUp (offset + length) s.granularity / s.granularity)

/-- `_is_empty_l1`, of the L1 entries under an L2 bit; `none` is a read outside of `l0`. -/
def isEmptyL1 (s : State) (b : ℕ) : Option Bool :=
  if b < s.entries then
    some ((List.range' (l1PerL2 * b) l1PerL2).all fun e =>
      (List.range slotsPerSlotset).all fun i => slotClear s.l0 (slotsPerSlotset * e + i))
  else none

/-! ## L2 -/

/-- `l2_granularity`. -/
def l2Granularity (s : State) : ℕ := s.granularity * bitsPerSlotset * l1PerL2

/-- `_mark_l2_free`. -/
def markL2Free (s : State) (l2Pos l2PosEnd : ℕ) : State :=
  { s with l2 := (List.range' l2Pos (l2PosEnd - l2Pos)).foldl (fun l2 p => setBit l2 p true) s.l2 }

/-- `_mark_l2_on_l1`; `none` is a read outside of `l1`. -/
def markL2OnL1 (s : State) (l2Pos l2PosEnd : ℕ) : Option State :=
  if l2PosEnd ≤ l2Pos ∨ l2PosEnd ≤ s.entries then
    some { s with
      l2 := (List.range' l2Pos (l2PosEnd - l2Pos)).foldl (fun l2 p =>
        setBit l2 p ((List.range' (l1PerL2 * p) l1PerL2).any fun e => s.l1 e ≠ .full)) s.l2 }
  else none

/-- The first L2 entry of a range. -/
def l2First (s : State) (offset : ℕ) : ℕ := offset / s.l2Granularity

/-- The L2 entry behind a range. -/
def l2Last (s : State) (stop : ℕ) : ℕ := roundUp stop s.l2Granularity / s.l2Granularity

/-- `_mark_free`. -/
def markFree (s : State) (offset length : ℕ) : State :=
  let s := s.freeL1 offset length
  let s := s.markL2Free (s.l2First offset) (s.l2Last (offset + length))
  { s with available := s.available + length }

/-- `_mark_allocated`. -/
def markAllocated (s : State) (offset length : ℕ) : Option State := do
  let s := s.markAllocL1L0 (offset / s.granularity)
    (roundUp (offset + length) s.granularity / s.granularity)
  let s ← s.markL2OnL1 (s.l2First offset) (s.l2Last (offset + length))
  if length ≤ s.available then some { s with available := s.available - length } else none

/-- `_free_l2`. -/
def freeL2 (s : State) (rr : List Interval) : State :=
  let s' := rr.foldl (fun s r =>
    let s := s.freeL1 r.start r.len
    s.markL2Free (s.l2First r.start) (s.l2Last (r.start + r.len))) s
  { s' with available := s'.available + (rr.map Interval.len).sum }

/-! ## Allocation -/

/-- The chunks that `_fragment_and_emplace` makes of a range. -/
def emplaceChunks (maxLength minLength : ℕ) : ℕ → ℕ → ℕ → Out → Option Out
  | 0, _, _, o => some o
  | fuel + 1, offset, len, o =>
    if 0 < len then
      let chunk := if 0 < maxLength ∧ maxLength < len then maxLength else len
      -- A chunk that is too short is dropped with what comes after it.
      if 0 < minLength ∧ chunk < minLength then some o
      else if chunk ≤ 0xFFFFFFFF then
        emplaceChunks maxLength minLength fuel (offset + chunk) (len - chunk)
          ⟨o.allocated + chunk, o.res ++ [⟨offset, chunk⟩]⟩
      else none
    else some o

/-- The last extent grows. -/
def growLast (o : Out) (last : PExtent) (take : ℕ) : Out :=
  ⟨o.allocated + take,
    o.res.dropLast ++ [{ last with length := (last.length + take) % 0x100000000 }]⟩

/-- `_fragment_and_emplace`. -/
def fragmentAndEmplace (maxLength minLength offset len : ℕ) (o : Out) : Option Out :=
  match o.res.getLast? with
  | none => emplaceChunks maxLength minLength len offset len o
  | some last =>
    if last.offset + last.length = offset then
      if maxLength = 0 ∨ last.length + len ≤ maxLength then some (growLast o last len)
      else if last.length < maxLength then
        let take := maxLength - last.length
        emplaceChunks maxLength minLength (len - take) (offset + take) (len - take)
          (growLast o last take)
      else emplaceChunks maxLength minLength len offset len o
    else emplaceChunks maxLength minLength len offset len o

/-- The loop of `_allocate_l0` that looks for the end of a run, at most so many bits on. -/
def runLength (bits : ℕ → Bool) : ℕ → ℕ → ℕ
  | 0, _ => 0
  | n + 1, p => if bits p then runLength bits n (p + 1) + 1 else 0

/-- `_allocate_l0`, from the bit `p` on; `need` counts units. -/
def allocateL0 (g minLength maxLength l0End : ℕ) :
    ℕ → ℕ → ℕ → (ℕ → Bool) → Out → Option ((ℕ → Bool) × Out)
  | 0, _, _, bits, o => some (bits, o)
  | fuel + 1, need, p, bits, o =>
    if p < l0End ∧ 0 < need then
      let nextSlot := p + (bitsPerSlot - p % bitsPerSlot)
      if slotClear bits (p / bitsPerSlot) then
        allocateL0 g minLength maxLength l0End fuel need nextSlot bits o
      else
        match findNextSetBit bits (p / bitsPerSlot) (p % bitsPerSlot) with
        | none => allocateL0 g minLength maxLength l0End fuel need nextSlot bits o
        | some bit =>
          let runStart := p / bitsPerSlot * bitsPerSlot + bit
          let units := min (runLength bits (min need (l0End - runStart)) runStart) need
          match fragmentAndEmplace maxLength minLength (runStart * g) (units * g) o with
          | none => none
          | some o =>
            allocateL0 g minLength maxLength l0End fuel (need - units) (runStart + units)
              (markAllocL0 bits runStart (runStart + units)) o
    else some (bits, o)

/-- `_allocate_l1`, over the L1 entries that are left. -/
def allocateL1 (length minLength maxLength : ℕ) : List ℕ → State → Out → Option (State × Out)
  | [], s, o => some (s, o)
  | p :: ps, s, o =>
    if l1PerL2 * s.entries ≤ p then some (s, o)
    else if s.l1 p = .full then allocateL1 length minLength maxLength ps s o
    else
      let rem := length - o.allocated
      let l0s := bitsPerSlotset * p
      let l0e := bitsPerSlotset * p + bitsPerSlotset
      if rem = 0 then some (s, o)
      else if s.l1 p = .free ∧ bitsPerSlotset * s.granularity ≤ rem then
        match fragmentAndEmplace maxLength minLength (l0s * s.granularity)
            (bitsPerSlotset * s.granularity) o with
        | none => none
        | some o => allocateL1 length minLength maxLength ps (s.markAllocL1L0 l0s l0e) o
      else
        match allocateL0 s.granularity minLength maxLength l0e bitsPerSlotset
            (rem / s.granularity) l0s s.l0 o with
        | none => none
        | some (l0, o) =>
          allocateL1 length minLength maxLength ps (markL1OnL0 { s with l0 := l0 } l0s l0e) o

/-- The loop of `_allocate_l2` over the bits of an L2 slot. It says whether the call is done. -/
def allocateBits (want minLength maxLength slotStart scanEnd : ℕ) (allSet : Bool) :
    ℕ → Option ℕ → State → Out → Option (Bool × State × Out)
  | _, none, s, o => some (false, s, o)
  | 0, some _, s, o => some (false, s, o)
  | fuel + 1, some bit, s, o =>
    -- The bit counts from the slot, the end from the first slot.
    if bit < scanEnd then
      let b := slotStart + bit
      match allocateL1 want minLength maxLength (List.range' (l1PerL2 * b) l1PerL2) s o with
      | none => none
      | some (s, o) =>
        match s.isEmptyL1 b with
        | none => none
        | some empty =>
          if empty ∧ bitsPerSlot ≤ bit then none
          else
            let s := if empty then { s with l2 := setBit s.l2 b false } else s
            if want ≤ o.allocated then
              some (true, { s with lastPos := b, available := wordSub s.available o.allocated }, o)
            else
              allocateBits want minLength maxLength slotStart scanEnd allSet fuel
                (if allSet then if bit + 1 < scanEnd then some (bit + 1) else none
                  else findNextSetBit s.l2 (slotStart / bitsPerSlot) (bit + 1)) s o
    else some (false, s, o)

/-- One round of `_allocate_l2`, from the bit `idx` on. -/
def allocateRound (want minLength maxLength roundEnd : ℕ) :
    ℕ → ℕ → State → Out → Option (Bool × State × Out)
  | 0, _, s, o => some (false, s, o)
  | fuel + 1, idx, s, o =>
    if idx < roundEnd then
      if slotClear s.l2 (idx / bitsPerSlot) then
        allocateRound want minLength maxLength roundEnd fuel (idx + bitsPerSlot) s o
      else
        let slotStart := idx / bitsPerSlot * bitsPerSlot
        let scanEnd := min (slotStart + bitsPerSlot) roundEnd
        let allSet := slotSet s.l2 (idx / bitsPerSlot)
        match allocateBits want minLength maxLength slotStart scanEnd allSet scanEnd
            (if allSet then some 0
              else findNextSetBit s.l2 (idx / bitsPerSlot) (idx % bitsPerSlot)) s o with
        | none => none
        | some (true, r) => some (true, r)
        | some (false, s, o) => allocateRound want minLength maxLength roundEnd fuel scanEnd s o
    else some (false, s, o)

/-- The longest extent that `_allocate_l2` makes. -/
def maxLengthOf (minLength maxAllocSize : ℕ) : ℕ :=
  let maxLength :=
    if maxAllocSize = 0 ∨ 0x80000000 ≤ maxAllocSize then 0x80000000 else maxAllocSize
  let maxLength := alignDown maxLength minLength
  if maxLength < minLength then minLength else maxLength

/-- Where `_allocate_l2` begins. -/
def startPos (s : State) (hint : ℤ) : ℕ :=
  let pos := if 0 < hint then alignDown (hint.toNat / s.l2Granularity) bitsPerSlot else s.lastPos
  if s.l2Slots * bitsPerSlot ≤ pos then 0 else pos

/-- `_allocate_l2`; the error is `-ENOSPC`. -/
def allocateL2 (s : State) (want minLength maxAllocSize : ℕ) (hint : ℤ) (o : Out) :
    Option (ℤ × State × Out) :=
  let maxLength := maxLengthOf minLength maxAllocSize
  let pos := s.startPos hint
  let fuel := s.l2Slots + 1
  match allocateRound want minLength maxLength (s.l2Slots * bitsPerSlot) fuel pos s o with
  | none => none
  | some (true, s, o) => some (0, s, o)
  | some (false, s, o) =>
    match allocateRound want minLength maxLength pos fuel 0 s o with
    | none => none
    | some (true, s, o) => some (0, s, o)
    | some (false, s, o) =>
      if 0 < o.allocated then some (0, { s with available := wordSub s.available o.allocated }, o)
      else some (-28, s, o)

/-- `BitmapAllocator::allocate`: what it returns, the allocator after it, and the vector. -/
def allocate (s : State) (want unit maxAllocSize : ℕ) (hint : ℤ) (extents : List PExtent) :
    Option (ℤ × State × List PExtent) :=
  if isp2 unit ∧ want % unit = 0 ∧ s.granularity ≤ unit then
    match s.allocateL2 want unit maxAllocSize hint ⟨0, extents⟩ with
    | none => none
    | some (r, s, o) =>
      some (if r = 0 ∧ 0 < o.allocated then (o.allocated : ℤ) else -28, s, o.res)
  else none

/-! ## Claims -/

/-- The bits before `p`, at most so many, are claimed while they are set. It says whether it came to
a clear one, and where it is. -/
def claimBitsLeft : ℕ → ℕ → (ℕ → Bool) → Bool × ℕ × (ℕ → Bool)
  | 0, p, bits => (false, p, bits)
  | n + 1, p, bits =>
    if bits (p - 1) then claimBitsLeft n (p - 1) (setBit bits (p - 1) false) else (true, p, bits)

/-- The slots before `p` are claimed while they are set. -/
def claimSlotsLeft : ℕ → ℕ → (ℕ → Bool) → ℕ × (ℕ → Bool)
  | 0, p, bits => (p, bits)
  | n + 1, p, bits =>
    if slotSet bits n then claimSlotsLeft n (p - bitsPerSlot) (setSlot bits n false) else (p, bits)

/-- `_claim_free_to_left_l0`; `none` is a shift by -1 or a read outside of `l0`. -/
def claimFreeToLeftL0 (s : State) (l0PosStart : ℕ) : Option (ℕ × (ℕ → Bool)) :=
  if l0PosStart = 0 ∨ s.entries * (l1PerL2 * bitsPerSlotset) < l0PosStart then none
  else
    match claimBitsLeft ((l0PosStart - 1) % bitsPerSlot + 1) l0PosStart s.l0 with
    | (true, p, bits) => some (p, bits)
    | (false, p, bits) =>
      match claimSlotsLeft (p / bitsPerSlot) p bits with
      | (p, bits) =>
        let idx := p / bitsPerSlot - 1
        if 0 < p ∧ ¬ slotSet bits idx ∧ ¬ slotClear bits idx then
          let r := claimBitsLeft bitsPerSlot p bits
          some (r.2.1, r.2.2)
        else some (p, bits)

/-- The bits from `p` on, at most so many, are claimed while they are set. -/
def claimBitsRight : ℕ → ℕ → (ℕ → Bool) → Bool × ℕ × (ℕ → Bool)
  | 0, p, bits => (false, p, bits)
  | n + 1, p, bits =>
    if bits p then claimBitsRight n (p + 1) (setBit bits p false) else (true, p, bits)

/-- The slots from `p` on, of those that are left, are claimed while they are set. -/
def claimSlotsRight : ℕ → ℕ → (ℕ → Bool) → ℕ × (ℕ → Bool)
  | 0, p, bits => (p, bits)
  | n + 1, p, bits =>
    if slotSet bits (p / bitsPerSlot) then
      claimSlotsRight n (p + bitsPerSlot) (setSlot bits (p / bitsPerSlot) false)
    else (p, bits)

/-- The slots of `l0`. -/
def l0Slots (s : State) : ℕ := s.entries * (l1PerL2 * slotsPerSlotset)

/-- `_claim_free_to_right_l0`. -/
def claimFreeToRightL0 (s : State) (l0PosStart : ℕ) : ℕ × (ℕ → Bool) :=
  if s.l0Slots ≤ l0PosStart / bitsPerSlot then (l0PosStart, s.l0)
  else
    match claimBitsRight (bitsPerSlot - l0PosStart % bitsPerSlot) l0PosStart s.l0 with
    | (true, p, bits) => (p, bits)
    | (false, p, bits) =>
      match claimSlotsRight (s.l0Slots - p / bitsPerSlot) p bits with
      | (p, bits) =>
        if p / bitsPerSlot < s.l0Slots ∧ ¬ slotSet bits (p / bitsPerSlot) ∧
            ¬ slotClear bits (p / bitsPerSlot) then
          let r := claimBitsRight bitsPerSlot p bits
          (r.2.1, r.2.2)
        else (p, bits)

/-- What both claims do with the bits they have cleared: the bytes, and the L1 entries. -/
def claimedL1 (s : State) (bits : ℕ → Bool) (l0Start l0End : ℕ) : ℕ × State :=
  let s := { s with l0 := bits }
  if l0Start < l0End then
    (s.granularity * (l0End - l0Start),
      s.markL1OnL0 (alignDown l0Start bitsPerSlotset) (roundUp l0End bitsPerSlotset))
  else (0, s)

/-- `claim_free_to_left`. -/
def claimFreeToLeft (s : State) (offset : ℕ) : Option (ℕ × State) := do
  let r ← s.claimFreeToLeftL0 (offset / s.granularity)
  let (allocated, s) := s.claimedL1 r.2 r.1 (offset / s.granularity)
  if allocated ≤ s.available then
    let s ← markL2OnL1 { s with available := s.available - allocated }
      (s.l2First (offset - allocated)) (s.l2Last offset)
    some (allocated, s)
  else none

/-- `claim_free_to_right`. -/
def claimFreeToRight (s : State) (offset : ℕ) : Option (ℕ × State) := do
  let r := s.claimFreeToRightL0 (offset / s.granularity)
  let (allocated, s) := s.claimedL1 r.2 (offset / s.granularity) r.1
  if allocated ≤ s.available then
    let s ← markL2OnL1 { s with available := s.available - allocated }
      (s.l2First offset) (s.l2Last (offset + allocated))
    some (allocated, s)
  else none

/-! ## The calls -/

/-- `BitmapAllocator`, as it is constructed: nothing is free. -/
def create (capacity allocUnit : ℕ) : State where
  deviceSize := capacity
  granularity := allocUnit
  entries := roundUp capacity (allocUnit * bitsPerSlotset * l1PerL2) /
    (allocUnit * bitsPerSlotset * l1PerL2)
  l2Slots := roundUp capacity (allocUnit * bitsPerSlotset * l1PerL2 * bitsPerSlot) /
    (allocUnit * bitsPerSlotset * l1PerL2) / bitsPerSlot
  l0 := fun _ => false
  l1 := fun _ => .full
  l2 := fun _ => false
  partialL1Count := 0
  unallocL1Count := 0
  available := 0
  lastPos := 0

/-- `init_add_free`. A range that ends before the first unit boundary in it is outside: the length
that the code computes there wraps around, and `none` stands for what follows. -/
def initAddFree (s : State) (offset length : ℕ) : Option State :=
  if length = 0 then some s
  else
    let off := roundUp offset s.granularity
    if offset + length < off then none
    else
      let len := alignDown (offset + length - off) s.granularity
      if len = 0 then some s
      else if off + len ≤ s.deviceSize then some (s.markFree off len)
      else none

/-- `init_rm_free`. -/
def initRmFree (s : State) (offset length : ℕ) : Option State :=
  if length = 0 then some s
  else
    let off := roundUp offset s.granularity
    if offset + length < off then none
    else
      let len := alignDown (offset + length - off) s.granularity
      if len = 0 then some s
      else if off + len ≤ s.deviceSize then s.markAllocated off len
      else none

/-- `release`. -/
def release (s : State) (releaseSet : List Interval) : Option State :=
  if releaseSet.all fun r => r.start + r.len ≤ s.deviceSize then some (s.freeL2 releaseSet)
  else none

/-- `get_free`. -/
def getFree (s : State) : ℕ := s.available

end State

end CxxLab.Blk.Bitmap
