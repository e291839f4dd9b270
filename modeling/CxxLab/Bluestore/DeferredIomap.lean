import CxxLab.Lib.Runs
import CxxLab.Lib.Segments
import CxxLab.Lib.SortedParts

/-!
# Deferred batches

`DeferredBatch::prepare_write` and `_discard`, and the loop of `DeferredWriter::try_submit` that
builds the writes to the device. `iomap` holds what is to be written, by its offset on the device;
`seq_bytes` counts the bytes of each transaction in it. The result, `batch_overlays`, is for every
sequence of `prepare_write` calls whose ranges end below `2^64`.

A failed assertion, an exception and an overflow of an `int` are `none`.
-/

namespace CxxLab.Bluestore.DeferredIomap

open Runs

/-! ## The code -/

/-- `+` of `uint64_t`. -/
def add64 (a b : ℕ) : ℕ := (a + b) % 2 ^ 64

/-- `-` of `uint64_t`. -/
def sub64 (a b : ℕ) : ℕ := (a + 2 ^ 64 - b) % 2 ^ 64

/-- `+` of `int`. -/
def addInt (a b : ℤ) : Option ℤ := if -2 ^ 31 ≤ a + b ∧ a + b < 2 ^ 31 then some (a + b) else none

/-- `static_cast<int>`. -/
def toInt (n : ℕ) : ℤ := Int.bmod n (2 ^ 32)

/-- `substr_of`, whose arguments are of 32 bits. -/
def substrOf (bl : List UInt8) (off len : ℕ) : Option (List UInt8) :=
  if off % 2 ^ 32 + len % 2 ^ 32 ≤ bl.length then
    some ((bl.drop (off % 2 ^ 32)).take (len % 2 ^ 32))
  else none

/-- `deferred_io`. -/
structure DeferredIo where
  bl : List UInt8
  seq : ℕ
deriving DecidableEq

/-- `DeferredBatch`. -/
structure Batch where
  iomap : SortedMap (id : ℕ → ℕ) DeferredIo
  seqBytes : SortedMap (id : ℕ → ℕ) ℤ

namespace Batch

/-- A batch that nothing has been put into. -/
def empty : Batch := ⟨SortedList.empty, SortedList.empty⟩

/-- The part of `_discard` for the entry that begins before the range, and the iterator behind
it. -/
def discardHead (b : Batch) (offset length : ℕ) :
    Option (Batch × Option (ℕ × DeferredIo)) :=
  match b.iomap.before offset with
  | none => some (b, b.iomap.lowerBound offset)
  | some (first, io) =>
    let stop := add64 first io.bl.length
    if offset < stop then do
      let head ← substrOf io.bl 0 (sub64 offset first)
      let count ← b.seqBytes.lookup io.seq
      let (iomap, count) ←
        if add64 offset length < stop then do
          let tail ← substrOf io.bl (sub64 (add64 offset length) first)
            (sub64 stop (add64 offset length))
          let count ← addInt count (-toInt length)
          pure (b.iomap.set (add64 offset length, ⟨tail, io.seq⟩), count)
        else do
          let count ← addInt count (-toInt (sub64 stop offset))
          pure (b.iomap, count)
      guard (0 ≤ count)
      let iomap := iomap.set (first, ⟨head, io.seq⟩)
      pure (⟨iomap, b.seqBytes.set (io.seq, count)⟩, iomap.next first)
    else some (b, b.iomap.next first)

/-- The loop of `_discard` over the entries that begin in the range. Each round erases an entry. -/
def discardLoop (offset length : ℕ) :
    ℕ → Batch → Option (ℕ × DeferredIo) → Option Batch
  | _, b, none => some b
  | 0, _, some _ => none
  | fuel + 1, b, some (first, io) =>
    if add64 offset length ≤ first then some b
    else do
      let count ← b.seqBytes.lookup io.seq
      let stop := add64 first io.bl.length
      let (iomap, count) ←
        if add64 offset length < stop then do
          let dropFront := sub64 (add64 offset length) first
          let keepTail := sub64 stop (add64 offset length)
          let tail ← substrOf io.bl dropFront keepTail
          let count ← addInt count (-toInt dropFront)
          pure (b.iomap.set (add64 offset length, ⟨tail, io.seq⟩), count)
        else do
          let count ← addInt count (-toInt io.bl.length)
          pure (b.iomap, count)
      guard (0 ≤ count)
      discardLoop offset length fuel
        ⟨iomap.remove first, b.seqBytes.set (io.seq, count)⟩ ((iomap.remove first).next first)

/-- `_discard`. -/
def discard (b : Batch) (offset length : ℕ) : Option Batch := do
  let (b', p) ← b.discardHead offset length
  discardLoop offset length (b'.iomap.toList.length + 1) b' p

/-- The arguments of `prepare_write`: a range that is not empty, and as many bytes of a
buffer. -/
structure Write where
  seq : ℕ
  offset : ℕ
  length : ℕ
  data : List UInt8
  dataPos : ℕ
  nonempty : 0 < length
  inside : dataPos + length ≤ data.length
  /-- The length of a buffer is an `unsigned`. -/
  short : data.length < 2 ^ 32

/-- `prepare_write`. -/
def prepareWrite (b : Batch) (w : Write) : Option Batch := do
  let b ← b.discard w.offset w.length
  guard (b.iomap.lookup w.offset).isNone
  let bl ← substrOf w.data w.dataPos w.length
  let count ← addInt ((b.seqBytes.lookup w.seq).getD 0) (toInt w.length)
  pure ⟨b.iomap.insert (w.offset, ⟨bl, w.seq⟩), b.seqBytes.set (w.seq, count)⟩

/-- The loop of `try_submit`: the writes to the device, each with its offset. -/
def submitLoop : ℕ → ℕ → List UInt8 → List (ℕ × DeferredIo) → List (ℕ × List UInt8)
  | start, _, bl, [] => if bl.length ≠ 0 then [(start, bl)] else []
  | start, pos, bl, (first, io) :: rest =>
    if first ≠ pos then
      (if bl.length ≠ 0 then [(start, bl)] else []) ++
        submitLoop first (add64 first io.bl.length) io.bl rest
    else
      submitLoop (if bl.length = 0 then pos else start) (add64 pos io.bl.length) (bl ++ io.bl) rest

/-- The writes that `try_submit` builds. -/
def deviceWrites (b : Batch) : List (ℕ × List UInt8) := submitLoop 0 0 [] b.iomap.toList

/-! ## What is in a batch -/

/-- An entry with its transaction at every byte. -/
def seg (e : ℕ × DeferredIo) : ℕ × List (UInt8 × ℕ) := (e.1, e.2.bl.map (·, e.2.seq))

/-- The bytes in `iomap` with their transactions, by their addresses. -/
def cells (b : Batch) : List ((UInt8 × ℕ) × ℕ) := Segments.cells (b.iomap.toList.map seg)

/-- The bytes of a transaction in a list of entries. -/
def bytesOf (s : ℕ) (l : List (ℕ × DeferredIo)) : ℕ :=
  (l.map fun e => if e.2.seq = s then e.2.bl.length else 0).sum

/-- What is to be written at each address after one more write. -/
def writeOver (f : ℕ → Option (UInt8 × ℕ)) (w : Write) (x : ℕ) : Option (UInt8 × ℕ) :=
  if w.offset ≤ x ∧ x < w.offset + w.length then
    w.data[w.dataPos + (x - w.offset)]?.map (·, w.seq)
  else f x

/-- The overlay of a sequence of writes: the last one wins. -/
def overlay (ws : List Write) : ℕ → Option (UInt8 × ℕ) := ws.foldl writeOver fun _ => none

/-- The bytes of all writes together. -/
def totalBytes (ws : List Write) : ℕ := (ws.map fun w => w.length).sum

/-! ## Arithmetic without a wrap-around -/

/-- A sum that fits is exact. -/
theorem add64_of_lt {a b : ℕ} (h : a + b < 2 ^ 64) : add64 a b = a + b := Nat.mod_eq_of_lt h

/-- A difference that is not negative is exact. -/
theorem sub64_of_le {a b : ℕ} (h : b ≤ a) (ha : a < 2 ^ 64) : sub64 a b = a - b := by
  have hsum : a + 2 ^ 64 - b = a - b + 2 ^ 64 := by omega
  unfold sub64
  rw [hsum, Nat.add_mod_right, Nat.mod_eq_of_lt (by omega)]

/-- A length below 2 GiB is itself as an `int`. -/
theorem toInt_of_lt {n : ℕ} (h : n < 2 ^ 31) : toInt n = n := by
  unfold toInt
  rw [Int.bmod_eq_of_le] <;> omega

/-- A sum that fits is exact. -/
theorem addInt_of_lt {a b : ℤ} (h : -2 ^ 31 ≤ a + b) (h' : a + b < 2 ^ 31) :
    addInt a b = some (a + b) := if_pos ⟨h, h'⟩

/-- A part that lies in the bytes is taken from them. -/
theorem substrOf_of_le {bl : List UInt8} {off len : ℕ} (h : off + len ≤ bl.length)
    (hlen : bl.length < 2 ^ 32) : substrOf bl off len = some ((bl.drop off).take len) := by
  unfold substrOf
  rw [Nat.mod_eq_of_lt (by omega : off < 2 ^ 32), Nat.mod_eq_of_lt (by omega : len < 2 ^ 32),
    if_pos h]

/-! ## The counts -/

variable {l l' pre post pieces : List (ℕ × DeferredIo)} {e : ℕ × DeferredIo} {b b' : Batch}

/-- How many bytes the entries have. -/
def size (l : List (ℕ × DeferredIo)) : ℕ := (l.map fun e => e.2.bl.length).sum

/-- An empty map has no bytes. -/
@[simp] theorem size_nil : size [] = 0 := rfl

/-- The first entry counts with its length. -/
@[simp] theorem size_cons : size (e :: l) = e.2.bl.length + size l := List.sum_cons

/-- The lengths of two lists of entries add up. -/
@[simp] theorem size_append : size (l ++ l') = size l + size l' := by
  rw [size, List.map_append, List.sum_append, size, size]

/-- An empty map has no bytes of a transaction. -/
@[simp] theorem bytesOf_nil (s : ℕ) : bytesOf s [] = 0 := rfl

/-- The first entry counts if it is of the transaction. -/
@[simp] theorem bytesOf_cons (s : ℕ) :
    bytesOf s (e :: l) = (if e.2.seq = s then e.2.bl.length else 0) + bytesOf s l := List.sum_cons

/-- The bytes of a transaction in two lists of entries add up. -/
@[simp] theorem bytesOf_append (s : ℕ) : bytesOf s (l ++ l') = bytesOf s l + bytesOf s l' := by
  rw [bytesOf, List.map_append, List.sum_append, bytesOf, bytesOf]

/-- A transaction has no more bytes than there are. -/
theorem bytesOf_le_size (s : ℕ) (l : List (ℕ × DeferredIo)) : bytesOf s l ≤ size l := by
  induction l with
  | nil => exact le_refl _
  | cons e l ih =>
    rw [bytesOf_cons, size_cons]
    split_ifs <;> omega

/-- The pieces of an entry are of its transaction. -/
theorem bytesOf_pieces {s t : ℕ} (h : ∀ p ∈ pieces, p.2.seq = t) :
    bytesOf s pieces = if t = s then size pieces else 0 := by
  induction pieces with
  | nil => simp
  | cons p pieces ih =>
    rw [bytesOf_cons, size_cons, ih fun q hq => h q (List.mem_cons_of_mem _ hq),
      h p List.mem_cons_self]
    split_ifs <;> rfl

/-- `seq_bytes` counts the bytes in `iomap`, which are few enough for an `int`. -/
structure Counted (b : Batch) : Prop where
  /-- Each transaction has as many bytes as `seq_bytes` says. -/
  counts : ∀ s, (b.seqBytes.lookup s).getD 0 = bytesOf s b.iomap.toList
  /-- The transaction of an entry is in `seq_bytes`. -/
  known : ∀ e ∈ b.iomap.toList, (b.seqBytes.lookup e.2.seq).isSome
  few : size b.iomap.toList < 2 ^ 31

/-- Where `k` bytes of an entry go, the count of its transaction can be lowered by `k`. -/
theorem Counted.replace (hc : Counted b) (h : b.iomap.toList = pre ++ e :: post)
    (pieces : List (ℕ × DeferredIo)) {m : SortedMap (id : ℕ → ℕ) DeferredIo} (hm : m.toList = pre ++ pieces ++ post) {k : ℕ}
    (hseq : ∀ p ∈ pieces, p.2.seq = e.2.seq) (hsize : size pieces + k = e.2.bl.length) :
    ∃ c n, b.seqBytes.lookup e.2.seq = some c ∧ addInt c (-toInt k) = some n ∧ 0 ≤ n ∧
      Counted ⟨m, b.seqBytes.set (e.2.seq, n)⟩ := by
  have hmem : e ∈ b.iomap.toList := by simp [h]
  obtain ⟨c, hlookup⟩ := Option.isSome_iff_exists.mp (hc.known e hmem)
  have hcount : c = bytesOf e.2.seq b.iomap.toList := by
    rw [← hc.counts, hlookup]
    rfl
  have hfew := hc.few
  have hle := bytesOf_le_size e.2.seq b.iomap.toList
  -- The bytes of the entry, and those of the others of its transaction.
  have hparts : bytesOf e.2.seq b.iomap.toList =
      bytesOf e.2.seq pre + (e.2.bl.length + bytesOf e.2.seq post) := by
    rw [h, bytesOf_append, bytesOf_cons, if_pos rfl]
  -- So the counter stays an `int`.
  have hlt : k < 2 ^ 31 := by omega
  refine ⟨c, c - k, hlookup, ?_, by omega, ?_, ?_, ?_⟩
  · rw [toInt_of_lt hlt, addInt_of_lt (by omega) (by omega), sub_eq_add_neg]
  · intro s
    have hs := hc.counts s
    rw [h] at hs
    dsimp only
    rw [SortedMap.lookup_set Function.injective_id, hm]
    simp only [bytesOf_append, bytesOf_cons, bytesOf_pieces hseq] at hs ⊢
    by_cases heq : s = e.2.seq
    · subst heq
      rw [if_pos rfl, if_pos rfl]
      dsimp only [Option.getD_some]
      push_cast
      omega
    · rw [if_neg heq, if_neg (Ne.symm heq)]
      rw [if_neg (Ne.symm heq)] at hs
      simpa using hs
  · intro p hp
    dsimp only at hp ⊢
    rw [SortedMap.lookup_set Function.injective_id]
    split_ifs with heq
    · rfl
    · refine hc.known p ?_
      rw [hm] at hp
      rw [h]
      simp only [List.mem_append, List.mem_cons] at hp ⊢
      rcases hp with (hp | hp) | hp
      · exact .inl hp
      · exact absurd (hseq p hp) heq
      · exact .inr (.inr hp)
  · dsimp only
    rw [h] at hfew
    rw [hm]
    simp only [size_append, size_cons] at hfew ⊢
    omega

/-! ## `_discard` -/

/-- The front of the bytes. -/
theorem substrOf_take {bl : List UInt8} {len : ℕ} (h : len ≤ bl.length) (hlen : bl.length < 2 ^ 32) :
    substrOf bl 0 len = some (bl.take len) := by
  rw [substrOf_of_le (by omega) hlen, List.drop_zero]

/-- The rest of the bytes. -/
theorem substrOf_drop {bl : List UInt8} {off : ℕ} (h : off ≤ bl.length) (hlen : bl.length < 2 ^ 32) :
    substrOf bl off (bl.length - off) = some (bl.drop off) := by
  rw [substrOf_of_le (by omega) hlen, List.take_of_length_le (by rw [List.length_drop])]

/-- An entry ends behind its bytes. -/
theorem stop_seg (e : ℕ × DeferredIo) : Segments.stop (seg e) = e.1 + e.2.bl.length := by
  simp [Segments.stop, seg]

/-- An entry is not empty when it has bytes. -/
theorem seg_ne_nil : (seg e).2 ≠ [] ↔ 0 < e.2.bl.length := by
  rw [seg, ne_eq, List.map_eq_nil_iff, ← ne_eq, ← List.length_pos_iff]

/-- What is left behind the range of an entry. -/
def tail (hi : ℕ) (e : ℕ × DeferredIo) : ℕ × DeferredIo := (hi, ⟨e.2.bl.drop (hi - e.1), e.2.seq⟩)

/-- What is left before the range of an entry. -/
def head (lo : ℕ) (e : ℕ × DeferredIo) : ℕ × DeferredIo := (e.1, ⟨e.2.bl.take (lo - e.1), e.2.seq⟩)

/-- The tail of an entry is the part of the segment from a position on. -/
theorem seg_tail {hi : ℕ} (h : e.1 ≤ hi) :
    seg (tail hi e) = (max e.1 hi, (seg e).2.drop (hi - e.1)) := by
  rw [max_eq_right h]
  simp [seg, tail]

/-- The head of an entry is the part of the segment before a position. -/
theorem seg_head (lo : ℕ) : seg (head lo e) = (e.1, (seg e).2.take (lo - e.1)) := by
  simp [seg, head]

/-- What is left of an entry behind a range goes behind the entry. -/
theorem toList_set_tail {hi : ℕ} (h : b.iomap.toList = pre ++ e :: post) (hlt : e.1 < hi)
    (hafter : ∀ p ∈ post, hi < p.1) :
    (b.iomap.set (tail hi e)).toList = pre ++ e :: tail hi e :: post := by
  have hset : (b.iomap.set (tail hi e)).toList = (pre ++ [e]) ++ tail hi e :: post := by
    refine SortedList.set_of_parts (by simp [h]) (fun p hp => ?_) hafter
    rcases List.mem_append.mp hp with hp | hp
    · exact (SortedList.lt_of_parts h hp List.mem_cons_self).trans hlt
    · rw [List.mem_singleton.mp hp]
      exact hlt
  simpa using hset

/-- What a cut leaves, in parts. -/
theorem flatMap_parts (f : ℕ × List (UInt8 × ℕ) → List (ℕ × List (UInt8 × ℕ))) :
    ((pre ++ e :: post).map seg).flatMap f =
      (pre.map seg).flatMap f ++ (f (seg e) ++ (post.map seg).flatMap f) := by
  simp [List.flatMap_append]

section
variable {offset length fuel : ℕ}

/-- An entry of a counted batch is shorter than 2 GiB. -/
theorem mem_length_lt (hc : Counted b) (he : e ∈ b.iomap.toList) : e.2.bl.length < 2 ^ 31 :=
  (List.le_sum_of_mem (List.mem_map_of_mem he)).trans_lt hc.few

/-- The loop ends at an entry that begins behind the range. -/
theorem discardLoop_of_le (post : List (ℕ × DeferredIo)) (hend : offset + length < 2 ^ 64)
    (h : ∀ e ∈ post.head?, offset + length ≤ e.1) :
    discardLoop offset length (fuel + 1) b post.head? = some b := by
  cases post with
  | nil => rfl
  | cons e post =>
    have hle : add64 offset length ≤ e.1 := by
      rw [add64_of_lt hend]
      exact h e rfl
    exact if_pos hle

/-- A round for an entry that goes on behind the range. -/
theorem discardLoop_tail (fuel : ℕ) {bl : List UInt8} {count n : ℤ} (hfirst : ¬ add64 offset length ≤ e.1)
    (hover : add64 offset length < add64 e.1 e.2.bl.length)
    (hlookup : b.seqBytes.lookup e.2.seq = some count)
    (hsub : substrOf e.2.bl (sub64 (add64 offset length) e.1)
      (sub64 (add64 e.1 e.2.bl.length) (add64 offset length)) = some bl)
    (hadd : addInt count (-toInt (sub64 (add64 offset length) e.1)) = some n) (hn : 0 ≤ n)
    {m : SortedMap (id : ℕ → ℕ) DeferredIo}
    (hm : b.iomap.set (add64 offset length, ⟨bl, e.2.seq⟩) = m) :
    discardLoop offset length (fuel + 1) b (some e) = discardLoop offset length fuel
      ⟨m.remove e.1, b.seqBytes.set (e.2.seq, n)⟩ ((m.remove e.1).next e.1) := by
  conv_lhs => unfold discardLoop
  simp only [hfirst, if_false, hlookup, Option.bind_eq_bind, Option.bind_some, hover, if_true, hsub,
    hadd, Option.pure_def, guard, hn, hm]

/-- A round for an entry that ends in the range. -/
theorem discardLoop_erase (fuel : ℕ) {count n : ℤ} (hfirst : ¬ add64 offset length ≤ e.1)
    (hinside : ¬ add64 offset length < add64 e.1 e.2.bl.length)
    (hlookup : b.seqBytes.lookup e.2.seq = some count)
    (hadd : addInt count (-toInt e.2.bl.length) = some n) (hn : 0 ≤ n) :
    discardLoop offset length (fuel + 1) b (some e) = discardLoop offset length fuel
      ⟨b.iomap.remove e.1, b.seqBytes.set (e.2.seq, n)⟩ ((b.iomap.remove e.1).next e.1) := by
  conv_lhs => unfold discardLoop
  simp only [hfirst, if_false, hlookup, Option.bind_eq_bind, Option.bind_some, hinside, hadd,
    Option.pure_def, guard, hn, if_true]

/-- There is no entry before the range. -/
theorem discardHead_none (h : b.iomap.before offset = none) :
    b.discardHead offset length = some (b, b.iomap.lowerBound offset) := by
  unfold discardHead
  rw [h]

/-- The entry before the range ends before it. -/
theorem discardHead_skip (length : ℕ) (h : b.iomap.before offset = some e)
    (hstop : ¬ offset < add64 e.1 e.2.bl.length) :
    b.discardHead offset length = some (b, b.iomap.next e.1) := by
  unfold discardHead
  rw [h]
  simp only [hstop, if_false]

/-- The entry before the range ends in it. -/
theorem discardHead_cut {bl : List UInt8} {count n : ℤ} (h : b.iomap.before offset = some e)
    (hstop : offset < add64 e.1 e.2.bl.length)
    (hinside : ¬ add64 offset length < add64 e.1 e.2.bl.length)
    (hhead : substrOf e.2.bl 0 (sub64 offset e.1) = some bl)
    (hlookup : b.seqBytes.lookup e.2.seq = some count)
    (hadd : addInt count (-toInt (sub64 (add64 e.1 e.2.bl.length) offset)) = some n) (hn : 0 ≤ n)
    {m : SortedMap (id : ℕ → ℕ) DeferredIo} (hm : b.iomap.set (e.1, ⟨bl, e.2.seq⟩) = m) :
    b.discardHead offset length =
      some (⟨m, b.seqBytes.set (e.2.seq, n)⟩, m.next e.1) := by
  unfold discardHead
  rw [h]
  simp only [hstop, if_true, hhead, hlookup, Option.bind_eq_bind, Option.bind_some, hinside,
    if_false, hadd, Option.pure_def, guard, hn, hm]

/-- The entry before the range goes on behind it. -/
theorem discardHead_split {bl bl' : List UInt8} {count n : ℤ}
    (h : b.iomap.before offset = some e) (hstop : offset < add64 e.1 e.2.bl.length)
    (hover : add64 offset length < add64 e.1 e.2.bl.length)
    (hhead : substrOf e.2.bl 0 (sub64 offset e.1) = some bl)
    (htail : substrOf e.2.bl (sub64 (add64 offset length) e.1)
      (sub64 (add64 e.1 e.2.bl.length) (add64 offset length)) = some bl')
    (hlookup : b.seqBytes.lookup e.2.seq = some count)
    (hadd : addInt count (-toInt length) = some n) (hn : 0 ≤ n)
    {m : SortedMap (id : ℕ → ℕ) DeferredIo}
    (hm : SortedList.set (b.iomap.set (add64 offset length, ⟨bl', e.2.seq⟩))
      (e.1, ⟨bl, e.2.seq⟩) = m) :
    b.discardHead offset length =
      some (⟨m, b.seqBytes.set (e.2.seq, n)⟩, m.next e.1) := by
  unfold discardHead
  rw [h]
  simp only [hstop, if_true, hhead, hlookup, Option.bind_eq_bind, Option.bind_some, hover, htail,
    hadd, Option.pure_def, guard, hn, hm]

/-- What is left of an entry behind a range in it. -/
theorem substrOf_tail (hend : offset + length < 2 ^ 64) (hstop : e.1 + e.2.bl.length < 2 ^ 64)
    (hlen : e.2.bl.length < 2 ^ 32) (hlt : e.1 ≤ offset + length)
    (hover : offset + length < e.1 + e.2.bl.length) :
    substrOf e.2.bl (sub64 (add64 offset length) e.1)
      (sub64 (add64 e.1 e.2.bl.length) (add64 offset length)) =
        some (tail (offset + length) e).2.bl := by
  have hrest : e.1 + e.2.bl.length - (offset + length) =
      e.2.bl.length - (offset + length - e.1) := by omega
  rw [add64_of_lt hend, add64_of_lt hstop, sub64_of_le hlt hend, sub64_of_le hover.le hstop, hrest,
    substrOf_drop (by omega) hlen]
  rfl

/-- The loop leaves what is outside of the range of the entries from the iterator on. -/
theorem discardLoop_spec (pre : List (ℕ × DeferredIo)) (hend : offset + length < 2 ^ 64) :
    ∀ {post : List (ℕ × DeferredIo)} (fuel : ℕ) {b : Batch}, post.length < fuel →
      b.iomap.toList = pre ++ post → (∀ e ∈ post, offset ≤ e.1) →
      Segments.Ordered (post.map seg) → (∀ e ∈ post, e.1 + e.2.bl.length < 2 ^ 64) → Counted b →
      ∃ b', discardLoop offset length fuel b post.head? = some b' ∧ Counted b' ∧
        b'.iomap.toList.map seg =
          pre.map seg ++ (post.map seg).flatMap (Segments.cut offset (offset + length)) := by
  intro post
  induction post with
  | nil =>
    intro fuel b hfuel hsplit _ _ _ hc
    refine ⟨b, ?_, hc, by simp [hsplit]⟩
    cases fuel <;> rfl
  | cons e post ih =>
    intro fuel b hfuel hsplit hstart hord hin hc
    -- The entries behind begin where this one ends, or later.
    obtain ⟨fuel, rfl⟩ := Nat.exists_eq_succ_of_ne_zero (Nat.ne_zero_of_lt hfuel)
    rw [List.length_cons] at hfuel
    have hlo := hstart e List.mem_cons_self
    have hpos : 0 < e.2.bl.length :=
      seg_ne_nil.mp (hord.2 _ (List.mem_map_of_mem List.mem_cons_self))
    have hstop := hin e List.mem_cons_self
    have hmem : e ∈ b.iomap.toList := by simp [hsplit]
    have hlen := mem_length_lt hc hmem
    rw [List.map_cons, Segments.Ordered, List.pairwise_cons] at hord
    obtain ⟨⟨hbehind, hpair⟩, hne⟩ := hord
    have hafter : ∀ p ∈ post, e.1 + e.2.bl.length ≤ p.1 := by
      intro p hp
      rw [← stop_seg]
      exact hbehind _ (List.mem_map_of_mem hp)
    have hpost : ∀ a ∈ post.map seg, a.2 ≠ [] := fun a ha => hne a (List.mem_cons_of_mem _ ha)
    rcases le_or_gt (offset + length) e.1 with hle | hlt
    · -- The entry begins behind the range, and so do those after it.
      refine ⟨b, discardLoop_of_le (e :: post) hend fun c hc => ?_, hc, ?_⟩
      · obtain rfl : e = c := Option.some.inj hc
        exact hle
      · rw [hsplit, List.map_append, Segments.flatMap_cut_of_outside _ (Nat.le_add_right _ _)]
        rintro a ha
        refine ⟨hne a ha, .inr ?_⟩
        obtain ⟨p, hp, rfl⟩ := List.mem_map.mp ha
        rcases List.mem_cons.mp hp with rfl | hp
        · exact hle
        · exact (hle.trans (Nat.le_add_right _ _)).trans (hafter p hp)
    -- The entry has bytes in the range, and goes on behind it or ends in it.
    · have hstop64 : add64 e.1 e.2.bl.length = e.1 + e.2.bl.length := add64_of_lt hstop
      have hend64 : add64 offset length = offset + length := add64_of_lt hend
      have hcond : ¬ add64 offset length ≤ e.1 := by omega
      rcases Nat.lt_or_ge (offset + length) (e.1 + e.2.bl.length) with hover | hinside
      · -- The entry goes on behind the range.
        have hset' := toList_set_tail hsplit hlt fun p hp => hover.trans_le (hafter p hp)
        have hremove : ((b.iomap.set (tail (offset + length) e)).remove e.1).toList =
            pre ++ tail (offset + length) e :: post := SortedList.remove_of_parts hset'
        have hlentail : (tail (offset + length) e).2.bl.length =
            e.2.bl.length - (offset + length - e.1) := List.length_drop
        obtain ⟨c, n, hlookup, hadd, hn, hcounted⟩ := hc.replace hsplit
          [tail (offset + length) e] (m := (b.iomap.set (tail (offset + length) e)).remove e.1)
          (k := offset + length - e.1)
          (by simpa using hremove) (by simp [tail])
          (by simp only [size_cons, size_nil, hlentail]; omega)
        have hsub := substrOf_tail hend hstop (by omega) hlt.le hover
        have hfront : sub64 (add64 offset length) e.1 = offset + length - e.1 := by
          rw [hend64, sub64_of_le hlt.le hend]
        have hround := discardLoop_tail fuel hcond (by rw [hend64, hstop64]; exact hover)
          hlookup hsub (by rw [hfront]; exact hadd) hn
          (m := b.iomap.set (tail (offset + length) e)) (by rw [hend64]; rfl)
        obtain ⟨fuel, rfl⟩ := Nat.exists_eq_succ_of_ne_zero (by omega : fuel ≠ 0)
        refine ⟨_, hround.trans ?_, hcounted, ?_⟩
        · have hnext : ((b.iomap.set (tail (offset + length) e)).remove e.1).next e.1 =
              some (tail (offset + length) e) := SortedList.next_remove_of_parts hset'
          rw [hnext]
          exact discardLoop_of_le (tail (offset + length) e :: post) hend fun c hc => by
            obtain rfl := Option.some.inj hc
            exact le_refl _
        · have hcut : Segments.cut offset (offset + length) (seg e) =
              [seg (tail (offset + length) e)] := by
            rw [Segments.cut_of_le_of_lt_stop hlo (by rw [stop_seg]; exact hover),
              seg_tail hlt.le]
            rfl
          have houtside : ∀ a ∈ post.map seg,
              a.2 ≠ [] ∧ (Segments.stop a ≤ offset ∨ offset + length ≤ a.1) := by
            intro a ha
            obtain ⟨p, hp, rfl⟩ := List.mem_map.mp ha
            exact ⟨hpost _ ha, .inr (hover.le.trans (hafter p hp))⟩
          have hkept := Segments.flatMap_cut_of_outside houtside (Nat.le_add_right _ _)
          rw [List.map_cons, List.flatMap_cons, hcut, hkept]
          dsimp only
          rw [hremove]
          simp
      · -- The entry ends in the range.
        have hremove := SortedList.remove_of_parts hsplit
        obtain ⟨c, n, hlookup, hadd, hn, hcounted⟩ := hc.replace hsplit []
          (m := b.iomap.remove e.1) (k := e.2.bl.length) (by simpa using hremove) (by simp) (by simp)
        obtain ⟨b', hrun, hc', hsegs⟩ := ih fuel (by omega) hremove
          (fun p hp => hstart p (List.mem_cons_of_mem _ hp)) ⟨hpair, hpost⟩
          (fun p hp => hin p (List.mem_cons_of_mem _ hp)) hcounted
        refine ⟨b', ?_, hc', ?_⟩
        · have hround := discardLoop_erase fuel hcond
            (by rw [hend64, hstop64]; exact not_lt.mpr hinside) hlookup hadd hn
          have hnext : (b.iomap.remove e.1).next e.1 = post.head? :=
            SortedList.next_remove_of_parts hsplit
          rw [List.head?_cons, hround, hnext]
          exact hrun
        · have hcut : Segments.cut offset (offset + length) (seg e) = [] :=
            Segments.cut_of_inside hlo (by rw [stop_seg]; exact hinside)
          rw [hsegs, List.map_cons, List.flatMap_cons, hcut, List.nil_append]

/-- The entries lie one behind the other and end below `2^64`; `seq_bytes` counts them. -/
structure Good (b : Batch) : Prop where
  ordered : Segments.Ordered (b.iomap.toList.map seg)
  inside : ∀ e ∈ b.iomap.toList, e.1 + e.2.bl.length < 2 ^ 64
  counted : Counted b

/-- An entry ends before those behind it. -/
theorem stop_le_of_parts (hord : Segments.Ordered (b.iomap.toList.map seg))
    (h : b.iomap.toList = pre ++ e :: post) : ∀ p ∈ post, e.1 + e.2.bl.length ≤ p.1 := by
  intro p hp
  have hpair := hord.1
  rw [h, List.map_append, List.map_cons, List.pairwise_append, List.pairwise_cons] at hpair
  rw [← stop_seg]
  exact hpair.2.1.1 _ (List.mem_map_of_mem hp)

/-- No entry of a good batch is empty. -/
theorem Good.length_pos (hg : Good b) (he : e ∈ b.iomap.toList) : 0 < e.2.bl.length :=
  seg_ne_nil.mp (hg.ordered.2 _ (List.mem_map_of_mem he))

/-- The entries that end before a range are left by a cut of it. -/
theorem flatMap_cut_before (length : ℕ) (hord : Segments.Ordered (b.iomap.toList.map seg))
    (h : b.iomap.toList = pre ++ post) (hstop : ∀ e ∈ pre, e.1 + e.2.bl.length ≤ offset) :
    (pre.map seg).flatMap (Segments.cut offset (offset + length)) = pre.map seg := by
  refine Segments.flatMap_cut_of_outside (fun a ha => ?_) (Nat.le_add_right _ _)
  obtain ⟨e, he, rfl⟩ := List.mem_map.mp ha
  refine ⟨hord.2 _ (List.mem_map_of_mem (by rw [h]; exact List.mem_append_left _ he)), .inl ?_⟩
  rw [stop_seg]
  exact hstop e he

/-- The entries that begin behind a range are left by a cut of it. -/
theorem flatMap_cut_behind (length : ℕ) (hord : Segments.Ordered (b.iomap.toList.map seg))
    (h : b.iomap.toList = pre ++ post) (hstart : ∀ e ∈ post, offset + length ≤ e.1) :
    (post.map seg).flatMap (Segments.cut offset (offset + length)) = post.map seg := by
  refine Segments.flatMap_cut_of_outside (fun a ha => ?_) (Nat.le_add_right _ _)
  obtain ⟨e, he, rfl⟩ := List.mem_map.mp ha
  exact ⟨hord.2 _ (List.mem_map_of_mem (by rw [h]; exact List.mem_append_right _ he)),
    .inr (hstart e he)⟩

/-- The entries behind the iterator meet what the loop asks for. -/
theorem ordered_behind (hord : Segments.Ordered (b.iomap.toList.map seg))
    (h : b.iomap.toList = pre ++ post) : Segments.Ordered (post.map seg) := by
  rw [h, List.map_append] at hord
  exact ⟨(List.pairwise_append.mp hord.1).2.1, fun a ha => hord.2 a (List.mem_append_right _ ha)⟩

/-- `_discard` cuts the range out of the entries. -/
theorem discard_spec (hg : Good b) (hend : offset + length < 2 ^ 64) :
    ∃ b', b.discard offset length = some b' ∧ Counted b' ∧
      b'.iomap.toList.map seg =
        (b.iomap.toList.map seg).flatMap (Segments.cut offset (offset + length)) := by
  have hend64 : add64 offset length = offset + length := add64_of_lt hend
  -- The entries that begin before the range and those that do not.
  obtain ⟨pre, post, hsplit, hpre, hpost⟩ := SortedList.exists_parts b.iomap offset
  have hbefore := SortedList.before_of_parts hsplit hpre hpost
  have hinpost : ∀ p ∈ post, p.1 + p.2.bl.length < 2 ^ 64 := fun p hp =>
    hg.inside p (by simp [hsplit, hp])
  have hordpost := ordered_behind hg.ordered hsplit
  rcases List.eq_nil_or_concat pre with rfl | ⟨pre, e, rfl⟩
  · -- No entry begins before the range.
    have hlower := SortedList.lowerBound_of_parts hsplit hpre hpost
    obtain ⟨b', hrun, hc', hsegs⟩ := discardLoop_spec [] hend (b.iomap.toList.length + 1)
      (by simp [hsplit]) hsplit hpost hordpost hinpost hg.counted
    refine ⟨b', ?_, hc', ?_⟩
    · unfold discard
      rw [discardHead_none (by simpa using hbefore), hlower]
      exact hrun
    · rw [hsegs, hsplit]
      rfl
  · rw [List.concat_eq_append, List.append_assoc, List.singleton_append] at hsplit
    have hmem : e ∈ b.iomap.toList := by simp [hsplit]
    have hfirst : e.1 < offset := hpre e (by simp)
    have hstop := hg.inside e hmem
    have hstop64 : add64 e.1 e.2.bl.length = e.1 + e.2.bl.length := add64_of_lt hstop
    have hlen := mem_length_lt hg.counted hmem
    -- The last entry that begins before the range may reach into it.
    have hbefore : b.iomap.before offset = some e := by
      rw [hbefore]
      simp
    have hafter := stop_le_of_parts hg.ordered hsplit
    have hearlier : ∀ p ∈ pre, p.1 + p.2.bl.length ≤ e.1 := by
      intro p hp
      have hpair := hg.ordered.1
      rw [hsplit, List.map_append, List.map_cons, List.pairwise_append] at hpair
      rw [← stop_seg]
      exact hpair.2.2 _ (List.mem_map_of_mem hp) _ List.mem_cons_self
    have hnext : ∀ {m : SortedMap (id : ℕ → ℕ) DeferredIo} {l : List (ℕ × DeferredIo)}
        {d : ℕ × DeferredIo}, d.1 = e.1 → m.toList = pre ++ d :: l → m.next e.1 = l.head? := by
      intro m l d hd hm
      rw [← hd]
      exact SortedList.next_of_parts hm
    have hkept := flatMap_cut_before length hg.ordered hsplit
      (fun p hp => (hearlier p hp).trans hfirst.le)
    -- What it keeps in front of the range.
    have hheadlen : (head offset e).2.bl.length = min (offset - e.1) e.2.bl.length :=
      List.length_take
    -- It reaches into the range.
    rcases Nat.lt_or_ge offset (e.1 + e.2.bl.length) with hover | hskip
    · have hhead : substrOf e.2.bl 0 (sub64 offset e.1) = some (head offset e).2.bl := by
        rw [sub64_of_le hfirst.le (by omega), substrOf_take (by omega) (by omega)]
        rfl
      rcases Nat.lt_or_ge (offset + length) (e.1 + e.2.bl.length) with haround | hin
      · -- The entry is cut in two.
        have hset := toList_set_tail hsplit (hfirst.trans_le (Nat.le_add_right _ length))
          fun p hp => haround.trans_le (hafter p hp)
        have hset' := SortedList.set_of_parts_same (a := head offset e) hset rfl
        have htaillen : (tail (offset + length) e).2.bl.length =
            e.2.bl.length - (offset + length - e.1) := List.length_drop
        obtain ⟨c, n, hlookup, hadd, hn, hcounted⟩ := hg.counted.replace hsplit
          [head offset e, tail (offset + length) e] (k := length)
          (by simpa using hset') (by simp [head, tail])
          (by simp only [size_cons, size_nil, hheadlen, htaillen]; omega)
        have htail := substrOf_tail hend hstop (by omega)
          (hfirst.le.trans (Nat.le_add_right _ _)) haround
        have hround := discardHead_split hbefore (by rw [hstop64]; exact hover)
          (by rw [hend64, hstop64]; exact haround) hhead htail hlookup hadd hn
          (m := SortedList.set (b.iomap.set (tail (offset + length) e)) (head offset e))
          (by rw [hend64]; rfl)
        refine ⟨_, ?_, hcounted, ?_⟩
        · unfold discard
          rw [hround, hnext (d := head offset e) rfl hset']
          exact discardLoop_of_le (tail (offset + length) e :: post) hend fun c hc => by
            obtain rfl := Option.some.inj hc
            exact le_refl _
        · have hcut : Segments.cut offset (offset + length) (seg e) =
              [seg (head offset e), seg (tail (offset + length) e)] := by
            rw [Segments.cut_of_around hfirst (by rw [stop_seg]; exact haround), seg_head,
              seg_tail (hfirst.le.trans (Nat.le_add_right _ _))]
            rfl
          have hkept' := flatMap_cut_behind length hg.ordered
            (by simpa using hsplit : b.iomap.toList = (pre ++ [e]) ++ post) fun p hp => haround.le.trans (hafter p hp)
          dsimp only
          rw [hset', hsplit, flatMap_parts, hkept, hcut, hkept']
          simp
      · -- The entry ends in the range.
        have hset' := SortedList.set_of_parts_same (a := head offset e) hsplit rfl
        obtain ⟨c, n, hlookup, hadd, hn, hcounted⟩ := hg.counted.replace hsplit
          [head offset e] (k := e.1 + e.2.bl.length - offset)
          (by simpa using hset') (by simp [head])
          (by simp only [size_cons, size_nil, hheadlen]; omega)
        have hround := discardHead_cut hbefore (by rw [hstop64]; exact hover)
          (by rw [hend64, hstop64]; exact not_lt.mpr hin) hhead hlookup
          (by rw [hstop64, sub64_of_le hover.le hstop]; exact hadd) hn
          (m := b.iomap.set (head offset e)) rfl
        obtain ⟨b', hrun, hc', hsegs⟩ := discardLoop_spec (pre ++ [head offset e]) hend
          ((b.iomap.set (head offset e)).toList.length + 1) (by simp [hset']; omega)
          (by simpa using hset') hpost hordpost hinpost hcounted
        refine ⟨b', ?_, hc', ?_⟩
        · unfold discard
          rw [hround, hnext (d := head offset e) rfl hset']
          exact hrun
        · have hcut : Segments.cut offset (offset + length) (seg e) = [seg (head offset e)] := by
            rw [Segments.cut_of_lt_of_stop_le hfirst (by rw [stop_seg]; exact hin), seg_head]
            rfl
          rw [hsegs, hsplit, flatMap_parts, hkept, hcut]
          simp
    · -- The entry ends before the range.
      have hround := discardHead_skip length hbefore (by rw [hstop64]; exact not_lt.mpr hskip)
      obtain ⟨b', hrun, hc', hsegs⟩ := discardLoop_spec (pre ++ [e]) hend
        (b.iomap.toList.length + 1) (by simp [hsplit]; omega)
        (by simp [hsplit]) hpost hordpost hinpost hg.counted
      refine ⟨b', ?_, hc', ?_⟩
      · unfold discard
        rw [hround, hnext rfl hsplit]
        exact hrun
      · have hcut : Segments.cut offset (offset + length) (seg e) = [seg e] :=
          Segments.cut_of_stop_le (by rw [stop_seg]; exact hskip)
            (hg.ordered.2 _ (List.mem_map_of_mem hmem)) (Nat.le_add_right _ _)
        rw [hsegs, hsplit, flatMap_parts, hkept, hcut]
        simp

end

/-! ## `prepare_write` -/

/-- The bytes of the entries are those of their segments. -/
theorem size_eq_total (l : List (ℕ × DeferredIo)) : size l = Segments.total (l.map seg) := by
  induction l with
  | nil => rfl
  | cons e l ih => simp [ih, seg]

/-- After `_discard` there is nothing in the range. -/
theorem outside_of_discard (hg : Good b) {lo hi : ℕ}
    (hsegs : b'.iomap.toList.map seg = (b.iomap.toList.map seg).flatMap (Segments.cut lo hi)) :
    ∀ e ∈ b'.iomap.toList, 0 < e.2.bl.length ∧ e.1 + e.2.bl.length < 2 ^ 64 ∧
      (e.1 + e.2.bl.length ≤ lo ∨ hi ≤ e.1) := by
  intro e he
  have hmem : seg e ∈ b'.iomap.toList.map seg := List.mem_map_of_mem he
  rw [hsegs] at hmem
  obtain ⟨a, ha, hcut⟩ := List.mem_flatMap.mp hmem
  obtain ⟨d, hd, rfl⟩ := List.mem_map.mp ha
  obtain ⟨-, hle, hne, hside⟩ := Segments.mem_cut hcut (hg.ordered.2 _ ha)
  rw [stop_seg, stop_seg] at hle
  rw [stop_seg] at hside
  exact ⟨seg_ne_nil.mp hne, hle.trans_lt (hg.inside d hd), hside⟩

/-- The entry of a write. -/
def entry (w : Write) : ℕ × DeferredIo :=
  (w.offset, ⟨(w.data.drop w.dataPos).take w.length, w.seq⟩)

/-- The entry of a write has its length. -/
theorem length_entry (w : Write) : (entry w).2.bl.length = w.length := by
  have := w.inside
  simp only [entry, List.length_take, List.length_drop]
  omega

/-- A write puts its entry between the others. -/
theorem Good.insert (hc : Counted b) (w : Write) (hend : w.offset + w.length < 2 ^ 64)
    (hord : Segments.Ordered (b.iomap.toList.map seg))
    (hside : ∀ e ∈ b.iomap.toList, 0 < e.2.bl.length ∧ e.1 + e.2.bl.length < 2 ^ 64 ∧
      (e.1 + e.2.bl.length ≤ w.offset ∨ w.offset + w.length ≤ e.1))
    (hfew : size b.iomap.toList + w.length < 2 ^ 31) :
    ∃ n pre post, b.iomap.lookup w.offset = none ∧
      addInt ((b.seqBytes.lookup w.seq).getD 0) (toInt w.length) = some n ∧
      b.iomap.toList = pre ++ post ∧
      (b.iomap.insert (entry w)).toList = pre ++ entry w :: post ∧
      Good ⟨b.iomap.insert (entry w), b.seqBytes.set (w.seq, n)⟩ := by
  -- The entries before the new one and those behind it.
  obtain ⟨pre, post, hsplit, hpre, hpost⟩ := SortedList.exists_parts b.iomap w.offset
  have hlen := length_entry w
  have hpos := w.nonempty
  have hpre' : ∀ e ∈ pre, e.1 + e.2.bl.length ≤ w.offset := by
    intro e he
    have hlt : e.1 < w.offset := hpre e he
    have := hside e (by simp [hsplit, he])
    omega
  have hpost' : ∀ e ∈ post, w.offset + w.length ≤ e.1 := by
    intro e he
    have hle : w.offset ≤ e.1 := hpost e he
    have := hside e (by simp [hsplit, he])
    omega
  -- The new entry stands between them.
  have htoList : (b.iomap.insert (entry w)).toList = pre ++ entry w :: post := by
    refine SortedList.insert_of_parts hsplit hpre fun e he => ?_
    exact (Nat.lt_add_of_pos_right hpos).trans_le (hpost' e he)
  have hcount := hc.counts w.seq
  have hle := bytesOf_le_size w.seq b.iomap.toList
  refine ⟨(b.seqBytes.lookup w.seq).getD 0 + w.length, pre, post, ?_, ?_, hsplit, htoList, ?_, ?_,
    ?_, ?_, ?_⟩
  -- There was none at its offset.
  · refine Option.eq_none_iff_forall_ne_some.mpr fun io hio => ?_
    have hmem := (SortedMap.lookup_eq_some_iff Function.injective_id).mp hio
    have := hside _ hmem
    dsimp only at this
    omega
  -- The counter of its sequence number grows by its bytes.
  · rw [toInt_of_lt (by omega), addInt_of_lt (by omega) (by omega)]
  · dsimp only
    rw [hsplit, List.map_append] at hord
    rw [htoList, List.map_append, List.map_cons]
    obtain ⟨hpair, hne⟩ := hord
    obtain ⟨hleft, hright, hcross⟩ := List.pairwise_append.mp hpair
    constructor
    · refine List.pairwise_append.mpr ⟨hleft, List.pairwise_cons.mpr ⟨fun a ha => ?_, hright⟩,
        fun a ha c hc => ?_⟩
      · obtain ⟨e, he, rfl⟩ := List.mem_map.mp ha
        rw [stop_seg, hlen]
        exact hpost' e he
      · rcases List.mem_cons.mp hc with rfl | hc
        · obtain ⟨e, he, rfl⟩ := List.mem_map.mp ha
          rw [stop_seg]
          exact hpre' e he
        · exact hcross a ha c hc
    · intro a ha
      rcases List.mem_append.mp ha with ha | ha
      · exact hne a (List.mem_append_left _ ha)
      · rcases List.mem_cons.mp ha with rfl | ha
        · exact seg_ne_nil.mpr (by rw [hlen]; exact hpos)
        · exact hne a (List.mem_append_right _ ha)
  · intro e he
    dsimp only at he
    rw [htoList] at he
    rcases List.mem_append.mp he with he | he
    · exact (hside e (by simp [hsplit, he])).2.1
    · rcases List.mem_cons.mp he with rfl | he
      · rw [hlen]
        exact hend
      · exact (hside e (by simp [hsplit, he])).2.1
  · intro s
    have hs := hc.counts s
    dsimp only
    rw [SortedMap.lookup_set Function.injective_id, htoList]
    rw [hsplit] at hs
    simp only [bytesOf_append, bytesOf_cons, hlen] at hs ⊢
    have hseq : (entry w).2.seq = w.seq := rfl
    rw [hseq]
    split_ifs with h h' h'
    · subst h
      rw [Option.getD_some, hs]
      push_cast
      omega
    · exact absurd h.symm h'
    · exact absurd h'.symm h
    · rw [hs]
      push_cast
      omega
  · intro e he
    dsimp only at he ⊢
    rw [htoList] at he
    rw [SortedMap.lookup_set Function.injective_id]
    split_ifs with h
    · rfl
    · rcases List.mem_append.mp he with he | he
      · exact hc.known e (by simp [hsplit, he])
      · rcases List.mem_cons.mp he with rfl | he
        · exact absurd rfl h
        · exact hc.known e (by simp [hsplit, he])
  · dsimp only
    rw [hsplit] at hfew
    rw [htoList]
    simp only [size_append, size_cons, hlen] at hfew ⊢
    omega

/-- What `prepare_write` puts at an address. -/
theorem mem_cells_entry (w : Write) (v : UInt8 × ℕ) (x : ℕ) :
    (v, x) ∈ (seg (entry w)).2.zipIdx (seg (entry w)).1 ↔
      (w.offset ≤ x ∧ x < w.offset + w.length) ∧
        w.data[w.dataPos + (x - w.offset)]?.map (·, w.seq) = some v := by
  rw [Segments.mem_segment]
  simp only [seg, entry, List.getElem?_map, List.getElem?_take, List.getElem?_drop]
  constructor
  · rintro ⟨hle, hget⟩
    split_ifs at hget with hlt
    · exact ⟨⟨hle, by omega⟩, hget⟩
    · cases hget
  · rintro ⟨⟨hle, hlt⟩, hget⟩
    exact ⟨hle, by rw [if_pos (by omega)]; exact hget⟩

/-- `prepare_write` succeeds and overlays the bytes that are there with those of the write. -/
theorem prepareWrite_spec (hg : Good b) (w : Write) (hend : w.offset + w.length < 2 ^ 64)
    (hfew : size b.iomap.toList + w.length < 2 ^ 31) :
    ∃ b', prepareWrite b w = some b' ∧ Good b' ∧
      size b'.iomap.toList ≤ size b.iomap.toList + w.length ∧
      ∀ v x, (v, x) ∈ cells b' ↔
        if w.offset ≤ x ∧ x < w.offset + w.length then
          w.data[w.dataPos + (x - w.offset)]?.map (·, w.seq) = some v
        else (v, x) ∈ cells b := by
  obtain ⟨d, hdiscard, hcounted, hsegs⟩ := discard_spec hg hend
  have hord : Segments.Ordered (d.iomap.toList.map seg) := by
    rw [hsegs]
    exact Segments.ordered_flatMap_cut hg.ordered (Nat.le_add_right _ _)
  -- What is discarded makes no more bytes.
  have hsize : size d.iomap.toList ≤ size b.iomap.toList := by
    rw [size_eq_total, size_eq_total, hsegs]
    exact Segments.total_flatMap_cut_le (Nat.le_add_right _ _)
  obtain ⟨n, pre, post, hfree, hadd, hsplit, htoList, hgood⟩ :=
    Good.insert hcounted w hend hord (outside_of_discard hg hsegs) (by omega)
  have hin := w.inside
  have hshort := w.short
  refine ⟨_, ?_, hgood, ?_, fun v x => ?_⟩
  -- The call goes through.
  · unfold prepareWrite
    simp only [hdiscard, Option.bind_eq_bind, Option.bind_some, hfree, Option.isNone_none, guard,
      if_true, Option.pure_def, substrOf_of_le hin hshort, hadd]
    rfl
  · dsimp only
    rw [htoList]
    rw [hsplit] at hsize
    simp only [size_append, size_cons, length_entry] at hsize ⊢
    omega
  -- A byte comes from the write, or from an entry that was there.
  · have hnew : (v, x) ∈ Segments.cells ((pre ++ entry w :: post).map seg) ↔
        (v, x) ∈ (seg (entry w)).2.zipIdx (seg (entry w)).1 ∨
          (v, x) ∈ Segments.cells (d.iomap.toList.map seg) := by
      rw [hsplit]
      simp only [List.map_append, List.map_cons, Segments.cells_append, Segments.cells_cons,
        List.mem_append]
      tauto
    unfold cells
    dsimp only
    rw [htoList, hnew, hsegs, Segments.mem_cells_flatMap_cut, mem_cells_entry]
    split_ifs with hx
    · constructor
      · rintro (⟨-, h⟩ | ⟨-, h⟩)
        · exact h
        · omega
      · exact fun h => .inl ⟨hx, h⟩
    · constructor
      · rintro (⟨h, -⟩ | ⟨h, -⟩)
        · exact absurd h hx
        · exact h
      · exact fun h => .inr ⟨h, by omega⟩

/-! ## The writes to the device -/

/-- The loop of `try_submit` puts together the bytes that it has collected and those of the entries
that are left. -/
theorem submitLoop_cells {l : List (ℕ × DeferredIo)} (hin : ∀ e ∈ l, e.1 + e.2.bl.length < 2 ^ 64)
    {start pos : ℕ} {bl : List UInt8} (hpos : bl ≠ [] → pos = start + bl.length) :
    Segments.cells (submitLoop start pos bl l) =
      bl.zipIdx start ++ (Segments.cells (l.map seg)).map fun c => (c.1.1, c.2) := by
  -- What is submitted of the collected bytes, none if there are none.
  have hflush : ∀ (start : ℕ) (bl : List UInt8),
      Segments.cells (if bl.length ≠ 0 then [(start, bl)] else []) = bl.zipIdx start := by
    intro start bl
    cases bl with
    | nil => rfl
    | cons c bl => simp
  have hentry : ∀ e : ℕ × DeferredIo,
      ((seg e).2.zipIdx (seg e).1).map (fun c => (c.1.1, c.2)) = e.2.bl.zipIdx e.1 := by
    intro e
    simp [seg, List.zipIdx_map, List.map_map, Function.comp_def]
  induction l generalizing start pos bl with
  | nil =>
    unfold submitLoop
    rw [hflush]
    simp
  | cons e l ih =>
    have hin' : ∀ d ∈ l, d.1 + d.2.bl.length < 2 ^ 64 := fun d hd =>
      hin d (List.mem_cons_of_mem _ hd)
    have hstop := add64_of_lt (hin e List.mem_cons_self)
    rw [List.map_cons, Segments.cells_cons, List.map_append, hentry]
    unfold submitLoop
    rcases ne_or_eq e.1 pos with hfirst | hfirst
    · -- The entry does not follow: what was collected is submitted.
      rw [if_pos hfirst, Segments.cells_append, hflush, ih hin' fun _ => hstop]
    · rw [if_neg (not_not.mpr hfirst)]
      rcases eq_or_ne bl [] with rfl | hne
      · rw [if_pos List.length_nil, ← hfirst, List.nil_append, ih hin' fun _ => hstop]
        rfl
      · have hnext : start + bl.length = e.1 := (hpos hne).symm.trans hfirst.symm
        rw [if_neg fun h => hne (List.length_eq_zero_iff.mp h), ih hin' fun _ => ?_,
          List.zipIdx_append, hnext, List.append_assoc]
        rw [← hfirst, hstop, List.length_append]
        omega

/-! ## Runs -/

/-- The overlay of a sequence of writes, and what is made of it. -/
structure Overlays (b : Batch) (ws : List Write) : Prop where
  /-- The entries of `iomap` are disjoint. -/
  disjoint : b.iomap.toList.Pairwise fun e e' => e.1 + e.2.bl.length ≤ e'.1
  /-- They are the overlay of the writes. -/
  overlay : ∀ v x, (v, x) ∈ b.cells ↔ overlay ws x = some v
  /-- `seq_bytes` counts the bytes of each transaction in them. -/
  seqBytes : ∀ s, (b.seqBytes.lookup s).getD 0 = bytesOf s b.iomap.toList
  /-- The writes to the device are the bytes of `iomap`. -/
  written : Segments.cells b.deviceWrites = b.cells.map fun c => (c.1.1, c.2)
  /-- They write each address at most once. -/
  once : ((Segments.cells b.deviceWrites).map Prod.snd).Pairwise (· < ·)

/-- The device is written what the batch holds. -/
theorem Good.written (hg : Good b) :
    Segments.cells b.deviceWrites = b.cells.map fun c => (c.1.1, c.2) :=
  submitLoop_cells hg.inside fun h => absurd rfl h

/-- The empty batch is good. -/
theorem good_empty : Good empty where
  ordered := ⟨List.Pairwise.nil, fun _ h => absurd h List.not_mem_nil⟩
  inside _ h := absurd h List.not_mem_nil
  counted := ⟨fun _ => rfl, fun _ h => absurd h List.not_mem_nil, by decide⟩

/-- A run of `prepare_write` calls keeps the overlay. -/
theorem exec_overlay : ∀ (ws : List Write) {b : Batch} {f : ℕ → Option (UInt8 × ℕ)}, Good b →
    (∀ v x, (v, x) ∈ b.cells ↔ f x = some v) → (∀ w ∈ ws, w.offset + w.length < 2 ^ 64) →
    size b.iomap.toList + totalBytes ws < 2 ^ 31 →
    ∃ b', exec prepareWrite b ws = some b' ∧ Good b' ∧
      ∀ v x, (v, x) ∈ b'.cells ↔ ws.foldl writeOver f x = some v
  | [], b, _, hg, hf, _, _ => ⟨b, rfl, hg, hf⟩
  | w :: ws, b, f, hg, hf, hend, hfew => by
    have hsum : totalBytes (w :: ws) = w.length + totalBytes ws := List.sum_cons
    obtain ⟨c, hstep, hgc, hsize, hcells⟩ :=
      prepareWrite_spec hg w (hend w List.mem_cons_self) (by omega)
    have hover : ∀ v x, (v, x) ∈ c.cells ↔ writeOver f w x = some v := by
      intro v x
      rw [hcells, writeOver]
      split_ifs
      · exact Iff.rfl
      · exact hf v x
    obtain ⟨b', hrun, hg', hf'⟩ := exec_overlay ws hgc hover
      (fun w' hw' => hend w' (List.mem_cons_of_mem _ hw')) (by omega)
    exact ⟨b', exec_cons.mpr ⟨c, hstep, hrun⟩, hg', hf'⟩

/-- Writes whose ranges end below `2^64` go through: `iomap` is their overlay, `seq_bytes` counts
it, and the writes to the device are its bytes. -/
theorem batch_overlays (ws : List Write) (hend : ∀ w ∈ ws, w.offset + w.length < 2 ^ 64)
    (htotal : totalBytes ws < 2 ^ 31) :
    ∃ b, exec prepareWrite empty ws = some b ∧ Overlays b ws := by
  obtain ⟨b, hrun, hg, hcells⟩ := exec_overlay ws (f := fun _ => none) good_empty
    (fun v x => by simp [cells, empty, SortedList.empty]) hend (by simpa [empty, SortedList.empty] using htotal)
  refine ⟨b, hrun, ?_, hcells, hg.counted.counts, hg.written, ?_⟩
  · have hpair := List.pairwise_map.mp hg.ordered.1
    exact hpair.imp fun h => by rwa [stop_seg] at h
  · rw [hg.written, List.map_map]
    exact hg.ordered.addresses

/-- Two bytes in the middle of four. -/
def around : List Write :=
  [⟨1, 0x1000, 4, [1, 2, 3, 4], 0, by decide, by decide, by decide⟩,
    ⟨2, 0x1001, 2, [5, 6], 0, by decide, by decide, by decide⟩]

/-- A write over the middle of another one. -/
theorem batch_overlays_around : ∃ b, exec prepareWrite empty around = some b ∧ Overlays b around :=
  batch_overlays around (by decide) (by decide)

/-- A range that ends at `2^64` is not found by `_discard`: the second write of it fails the
assertion that its offset is free. -/
def topTwice : List Write :=
  [⟨1, 0xfffffffffffffffe, 2, [1, 2], 0, by decide, by decide, by decide⟩,
    ⟨2, 0xfffffffffffffffe, 2, [3, 4], 0, by decide, by decide, by decide⟩]

/-- Two writes at the end of the address space, of which the second fails. -/
theorem topTwice_fails : totalBytes topTwice < 2 ^ 31 ∧ exec prepareWrite empty topTwice = none := by
  constructor <;> decide +kernel

end Batch

end CxxLab.Bluestore.DeferredIomap
