import CxxLab.Blk.Intarith
import CxxLab.Lib.MaximalRuns
import CxxLab.Lib.Runs

/-!
# The AVL allocator

`blk/avl_allocator.cc`: the free space of a device as two trees over the same ranges, one in the
order of the device and one in the order of length. A tree is the list of its nodes in order, and
an iterator into it is the lists before and from it on. A failed assertion is `none`.

The class has two virtual functions that `HybridAllocator` overrides. `_spillover_range` is a
field of the configuration, on whatever the subclass keeps, and `release` and `init_add_free` take
`_add_to_tree` as an argument; in the class itself a spillover fails its assertion.
-/

namespace CxxLab.Blk

/-- `range_seg_t`: a range of the device, half open. -/
abbrev RangeSeg := ℕ × ℕ

/-- `range_seg_t::length`. -/
def RangeSeg.len (r : RangeSeg) : ℕ := r.2 - r.1

/-- `range_seg_t::shorter_t`. -/
def RangeSeg.shorter (r q : RangeSeg) : Bool :=
  r.len < q.len ∨ r.len = q.len ∧ r.1 < q.1

/-- The parameters of an allocator. -/
structure AvlConfig (σ : Type) where
  /-- `device_size`. -/
  deviceSize : ℕ
  /-- `block_size_`, as an unsigned word. -/
  blockSize : ℕ
  /-- `range_count_cap_`, where zero is no cap. -/
  rangeCountCap : ℕ
  /-- `_spillover_range`. -/
  spilloverRange : σ → ℕ → ℕ → Option σ

/-- `AvlAllocator`. -/
structure AvlAllocator (σ : Type) where
  /-- `range_tree_`. -/
  rangeTree : List RangeSeg
  /-- `range_size_tree_`. -/
  rangeSizeTree : List RangeSeg
  /-- `num_free_`. -/
  numFree : ℕ
  /-- `lbas_`: where the last allocation of an alignment ended. -/
  lbas : ℕ → ℕ
  /-- What a subclass keeps. -/
  child : σ

/-- The base class: no cap, and a spillover that fails its assertion. -/
def AvlConfig.plain (deviceSize blockSize : ℕ) : AvlConfig Unit :=
  ⟨deviceSize, blockSize, 0, fun _ _ _ => none⟩

/-- A new allocator. -/
def AvlAllocator.init {σ : Type} (child : σ) : AvlAllocator σ := ⟨[], [], 0, fun _ => 0, child⟩

namespace AvlAllocator

variable {σ : Type} (cfg : AvlConfig σ)

/-! ## The trees -/

/-- `range_size_tree_.insert`: after the ranges that are not longer. -/
def sizeInsert (r : RangeSeg) : List RangeSeg → List RangeSeg
  | [] => [r]
  | q :: l => if r.shorter q then r :: q :: l else q :: sizeInsert r l

/-- The insertion of a range into `range_size_tree_`, and its count. -/
def countIn (t : AvlAllocator σ) (r : RangeSeg) : AvlAllocator σ :=
  { t with rangeSizeTree := sizeInsert r t.rangeSizeTree, numFree := t.numFree + r.len }

/-- `_range_size_tree_rm`. -/
def rangeSizeTreeRm (t : AvlAllocator σ) (r : RangeSeg) : Option (AvlAllocator σ) :=
  if r.len ≤ t.numFree then
    some { t with rangeSizeTree := t.rangeSizeTree.erase r, numFree := t.numFree - r.len }
  else none

/-- `_lowest_size_available`. -/
def lowestSizeAvailable (t : AvlAllocator σ) : ℕ := (t.rangeSizeTree.head?.map RangeSeg.len).getD 0

/-- `_try_insert_range`, with the place of insertion in `range_tree_` when there is one. -/
def tryInsertRange (t : AvlAllocator σ) (s e : ℕ) (pos : Option (List RangeSeg × List RangeSeg)) :
    Option (AvlAllocator σ × Bool) :=
  let room := cfg.rangeCountCap = 0 ∨ t.rangeSizeTree.length < cfg.rangeCountCap
  if room ∨ t.lowestSizeAvailable < e - s then
    let t := match pos with
      | some (before, after) => ({ t with rangeTree := before ++ (s, e) :: after }).countIn (s, e)
      | none => t
    if room then some (t, true)
    else
      match t.rangeSizeTree with
      | [] => none
      | r :: _ => do
        let t ← t.rangeSizeTreeRm r
        let child ← cfg.spilloverRange t.child r.1 r.2
        some ({ t with child := child, rangeTree := t.rangeTree.erase r }, true)
  else do
    let child ← cfg.spilloverRange t.child s e
    some ({ t with child := child }, false)

/-- `_range_size_tree_try_insert`. -/
def rangeSizeTreeTryInsert (t : AvlAllocator σ) (r : RangeSeg) : Option (AvlAllocator σ) := do
  let (t, inserted) ← tryInsertRange cfg t r.1 r.2 none
  if inserted then some (t.countIn r) else some { t with rangeTree := t.rangeTree.erase r }

/-- `AvlAllocator::_add_to_tree`. -/
def addToTree (t : AvlAllocator σ) (start size : ℕ) : Option (AvlAllocator σ) :=
  if size = 0 then none
  else
    let e := start + size
    let before := t.rangeTree.takeWhile fun r => r.1 < e
    let after := t.rangeTree.dropWhile fun r => r.1 < e
    match before.getLast?.filter (fun r => r.2 = start), after.head?.filter (fun r => r.1 = e) with
    | some rb, some ra => do
      let t ← t.rangeSizeTreeRm rb
      let t ← t.rangeSizeTreeRm ra
      let t := { t with rangeTree := before.dropLast ++ (rb.1, ra.2) :: after.tail }
      rangeSizeTreeTryInsert cfg t (rb.1, ra.2)
    | some rb, none => do
      let t ← t.rangeSizeTreeRm rb
      let t := { t with rangeTree := before.dropLast ++ (rb.1, e) :: after }
      rangeSizeTreeTryInsert cfg t (rb.1, e)
    | none, some ra => do
      let t ← t.rangeSizeTreeRm ra
      let t := { t with rangeTree := before ++ (start, ra.2) :: after.tail }
      rangeSizeTreeTryInsert cfg t (start, ra.2)
    | none, none => (tryInsertRange cfg t start e (some (before, after))).map Prod.fst

/-- `_process_range_removal` of `[s, e)` from the range `rs`, which stands between `before` and
`after`. -/
def processRangeRemoval (t : AvlAllocator σ) (s e : ℕ) (before : List RangeSeg) (rs : RangeSeg)
    (after : List RangeSeg) : Option (AvlAllocator σ) := do
  let t ← t.rangeSizeTreeRm rs
  if rs.1 ≠ s ∧ rs.2 ≠ e then
    let (t, _) ← tryInsertRange cfg { t with rangeTree := before ++ (rs.1, s) :: after } e rs.2
      (some (before ++ [(rs.1, s)], after))
    rangeSizeTreeTryInsert cfg t (rs.1, s)
  else if rs.1 ≠ s then
    rangeSizeTreeTryInsert cfg { t with rangeTree := before ++ (rs.1, s) :: after } (rs.1, s)
  else if rs.2 ≠ e then
    rangeSizeTreeTryInsert cfg { t with rangeTree := before ++ (e, rs.2) :: after } (e, rs.2)
  else some { t with rangeTree := before ++ after }

/-- `_remove_from_tree`. `find` gives the first range that ends behind the start, when it begins
before the end. -/
def removeFromTree (t : AvlAllocator σ) (start size : ℕ) : Option (AvlAllocator σ) :=
  if size = 0 then none
  else
    let e := start + size
    match t.rangeTree.dropWhile fun r => r.2 ≤ start with
    | [] => none
    | rs :: after =>
      if rs.1 < e ∧ rs.1 ≤ start ∧ e ≤ rs.2 ∧ size ≤ t.numFree then
        processRangeRemoval cfg t start e (t.rangeTree.takeWhile fun r => r.2 ≤ start) rs after
      else none

/-! ## The search for a range -/

/-- `max_search_count_`. -/
def maxSearchCount : ℕ := 100

/-- `max_search_bytes_`. -/
def maxSearchBytes : ℕ := 0x1000000

/-- `range_size_alloc_threshold_`. -/
def rangeSizeAllocThreshold : ℕ := 0x20000

/-- `range_size_alloc_free_pct_`. -/
def rangeSizeAllocFreePct : ℕ := 4

/-- What a loop over the ranges found. -/
inductive Search where
  /-- A place for the allocation. -/
  | found (offset : ℕ)
  /-- The limits of the search were reached. -/
  | gaveUp
  /-- Nothing, with the count of ranges and the bytes of the last one. -/
  | missed (count bytes : ℕ)

/-- A loop of `_pick_block_after` over ranges; `bytes` is the distance that it compares with its
limit, which the loop keeps or not. -/
def searchRanges (size align : ℕ) (bytes : RangeSeg → ℕ) :
    ℕ → ℕ → List RangeSeg → Search
  | count, last, [] => .missed count last
  | count, _, r :: rs =>
    if p2roundup r.1 align + size ≤ r.2 then .found (p2roundup r.1 align)
    else if maxSearchCount < count + 1 then .gaveUp
    else if maxSearchBytes < bytes r then .gaveUp
    else searchRanges size align bytes (count + 1) (bytes r) rs

/-- `_pick_block_after` from a cursor: the ranges that end behind the cursor, then those before.
When the cursor is behind all ranges, the second loop reads the start of the node past the end,
which is `pastEnd`. -/
def pickBlockAfter (t : AvlAllocator σ) (pastEnd cursor size align : ℕ) : Option ℕ :=
  let fore := t.rangeTree.takeWhile fun r => r.2 ≤ cursor
  let aft := t.rangeTree.dropWhile fun r => r.2 ≤ cursor
  let first := (aft.head?.map Prod.fst).getD pastEnd
  match searchRanges size align (fun r => r.1 - first) 0 0 aft with
  | .found offset => some offset
  | .gaveUp => none
  | .missed count last =>
    if cursor = 0 then none
    else
      match searchRanges size align
          (fun r => (last + (first + negWord r.1)) % wordEnd) count last fore with
      | .found offset => some offset
      | _ => none

/-- The loop of `_pick_block_fits`. -/
def searchFits (size align : ℕ) : ℕ → List RangeSeg → Option ℕ
  | _, [] => none
  | count, r :: rs =>
    if maxSearchCount < count + 1 then none
    else if p2roundup r.1 align + size ≤ r.2 then some (p2roundup r.1 align)
    else searchFits size align (count + 1) rs

/-- `_pick_block_fits`. -/
def pickBlockFits (t : AvlAllocator σ) (size align : ℕ) : Option ℕ :=
  searchFits size align 0 (t.rangeSizeTree.dropWhile fun r => r.shorter (0, size))

/-- The loop of `_allocate_single` that halves the size until a range fits. A word is halved at
most 64 times. -/
def halveUntilFits (t : AvlAllocator σ) (unit : ℕ) : ℕ → ℕ → Option (ℕ × ℕ)
  | 0, _ => none
  | n + 1, size =>
    match t.pickBlockFits size unit with
    | some offset => some (offset, size)
    | none =>
      let size := p2align (size / 2) unit
      if unit ≤ size then halveUntilFits t unit n size else none

/-- The outcome of `_allocate_single`. -/
inductive Single (σ : Type) where
  /-- An extent, and the allocator after it. -/
  | extent (offset length : ℕ) (t : AvlAllocator σ)
  /-- `-ENOSPC`. -/
  | noSpace
  /-- A failed assertion. -/
  | abort

/-- The place that `_allocate_single` picks for a size, and the size: first behind the cursor of
its alignment, then the shortest range that fits. The cursor moves with the first. -/
def pickBlock (t : AvlAllocator σ) (pastEnd maxSize size unit : ℕ) (force : Bool) :
    AvlAllocator σ × Option (ℕ × ℕ) :=
  if force ∨ maxSize < rangeSizeAllocThreshold ∨
      (t.numFree * 100) % wordEnd / cfg.deviceSize < rangeSizeAllocFreePct then
    (t, t.halveUntilFits unit 64 size)
  else
    let i := cbits (size &&& negWord size) - 1
    match t.pickBlockAfter pastEnd (t.lbas i) size unit with
    | some offset => ({ t with lbas := Function.update t.lbas i (offset + size) },
        some (offset, size))
    | none => (t, t.halveUntilFits unit 64 size)

/-- `_allocate_single`. -/
def allocateSingle (t : AvlAllocator σ) (pastEnd size unit : ℕ) : Single σ :=
  let maxSize := (t.rangeSizeTree.getLast?.map RangeSeg.len).getD 0
  if maxSize < size ∧ maxSize < unit then .noSpace
  else
    let force := decide (maxSize < size)
    let size := if maxSize < size then p2align maxSize unit else size
    let forced := force ∨ maxSize < rangeSizeAllocThreshold ∨
      (t.numFree * 100) % wordEnd / cfg.deviceSize < rangeSizeAllocFreePct
    -- The assertions on the rounded size, and on the alignment when the cursor is used.
    if force ∧ size = 0 ∨ ¬ forced ∧ size &&& negWord size = 0 then .abort
    else
      match pickBlock cfg t pastEnd maxSize size unit force with
      | (_, none) => .noSpace
      | (t, some (offset, size)) =>
        match removeFromTree cfg t offset size with
        | none => .abort
        | some t => .extent offset size t

/-- `_allocate`: the loop over single extents, for what is still wanted. Each extent is at least a
byte, so `n` steps are enough for `n` bytes. -/
def allocateLoop (pastEnd unit maxAllocSize : ℕ) : ℕ → ℕ → AvlAllocator σ →
    Option (AvlAllocator σ × List (ℕ × ℕ))
  | 0, _, t => some (t, [])
  | n + 1, rest, t =>
    if rest = 0 then some (t, [])
    else
      match allocateSingle cfg t pastEnd (min maxAllocSize rest) unit with
      | .abort => none
      | .noSpace => some (t, [])
      | .extent offset length t =>
        (allocateLoop pastEnd unit maxAllocSize n (rest - length) t).map fun p =>
          (p.1, (offset, length) :: p.2)

/-! ## The calls -/

/-- The largest value of `pextent_t::length`. -/
def extentCap : ℕ := 0xFFFFFFFF

/-- The largest extent that `allocate` makes. -/
def maxExtent (want maxAllocSize : ℕ) : ℕ :=
  let m := if maxAllocSize = 0 then want else maxAllocSize
  if extentCap ≤ m then p2align extentCap cfg.blockSize else m

/-- `allocate`, with the extents that it returns. -/
def allocate (t : AvlAllocator σ) (pastEnd want unit maxAllocSize : ℕ) :
    Option (AvlAllocator σ × List (ℕ × ℕ)) :=
  if isp2 unit ∧ want % unit = 0 then
    allocateLoop cfg pastEnd unit (maxExtent cfg want maxAllocSize) want want t
  else none

/-- `_release`, of the intervals of a set. -/
def release (add : AvlAllocator σ → ℕ → ℕ → Option (AvlAllocator σ)) :
    List (ℕ × ℕ) → AvlAllocator σ → Option (AvlAllocator σ)
  | [], t => some t
  | (offset, length) :: rs, t =>
    if offset + length ≤ cfg.deviceSize then (add t offset length).bind (release add rs) else none

/-- `init_add_free`. -/
def initAddFree (add : AvlAllocator σ → ℕ → ℕ → Option (AvlAllocator σ)) (t : AvlAllocator σ)
    (offset length : ℕ) : Option (AvlAllocator σ) :=
  if length = 0 then some t
  else if offset + length ≤ cfg.deviceSize then add t offset length
  else none

/-- `init_rm_free`. -/
def initRmFree (t : AvlAllocator σ) (offset length : ℕ) : Option (AvlAllocator σ) :=
  if length = 0 then some t
  else if offset + length ≤ cfg.deviceSize then removeFromTree cfg t offset length
  else none

end AvlAllocator

end CxxLab.Blk
