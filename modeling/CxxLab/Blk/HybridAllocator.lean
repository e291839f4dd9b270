import CxxLab.Blk.AvlSpills
import CxxLab.Blk.BitmapAllocator

/-!
# The hybrid allocator

`blk/hybrid_allocator.cc`: an AVL allocator with a cap on its ranges, and a bitmap allocator of the
same device as its child. A range that finds no room in the trees is given to the child, and a range
that is added takes the free units on both its sides back from it.

A failed assertion is `none`, in the trees as in the child. The lock and the statistics are left
out.
-/

namespace CxxLab.Blk

open AvlAllocator

/-- `HybridAllocator`: an AVL allocator, with `child_`. -/
abbrev HybridAllocator := AvlAllocator Bitmap.State

/-- The parameters of an allocator. `_spillover_range` gives the range to the child. -/
def hybridConfig (deviceSize blockSize rangeCountCap : ℕ) : AvlConfig Bitmap.State :=
  ⟨deviceSize, blockSize, rangeCountCap, fun child s e => child.initAddFree s (e - s)⟩

namespace HybridAllocator

/-- `HybridAllocator`, as it is constructed: nothing is free. -/
def create (deviceSize blockSize : ℕ) : HybridAllocator := .init (.create deviceSize blockSize)

variable (cfg : AvlConfig Bitmap.State)

/-- `HybridAllocator::_add_to_tree`. -/
def addToTree (t : HybridAllocator) (start size : ℕ) : Option HybridAllocator := do
  let (head, child) ← t.child.claimFreeToLeft start
  let (tail, child) ← child.claimFreeToRight (start + size)
  AvlAllocator.addToTree cfg { t with child := child } (start - head) (size + (head + tail))

/-- What an allocation has so far: `allocated` and `extents`, and the allocator. -/
abbrev Got := ℕ × List (ℕ × ℕ) × HybridAllocator

/-- What a call that returned `r` adds to an allocation: a result that is not positive adds
nothing. -/
def got (r : ℤ) (es : List (ℕ × ℕ)) (t : HybridAllocator) : Got :=
  if 0 < r then (r.toNat, es, t) else (0, [], t)

/-- A part of `allocate` that asks the trees. -/
def askTrees (pastEnd unit maxAllocSize want : ℕ) (t : HybridAllocator) : Option Got :=
  (allocateLoop cfg pastEnd unit maxAllocSize want want t).map fun p =>
    got (allocateReturn p.2) p.2 p.1

/-- A part of `allocate` that asks the child. -/
def askChild (unit maxAllocSize : ℕ) (hint : ℤ) (want : ℕ) (t : HybridAllocator) : Option Got :=
  (t.child.allocate want unit maxAllocSize hint []).map fun p =>
    got p.1 (p.2.2.map fun e => (e.offset, e.length)) { t with child := p.2.1 }

/-- Both parts of `allocate`: the second is asked for what the first did not give. -/
def askBoth (first second : ℕ → HybridAllocator → Option Got) (want : ℕ) (t : HybridAllocator) :
    Option Got := do
  let (allocated, es, t) ← first want t
  if allocated < want then
    let (more, es', t) ← second (want - allocated) t
    some (allocated + more, es ++ es', t)
  else some (allocated, es, t)

/-- `try_bitmap_first`. -/
def tryBitmapFirst (t : HybridAllocator) (want : ℕ) : Prop :=
  0 < t.child.getFree ∧ want < t.lowestSizeAvailable

instance (t : HybridAllocator) (want : ℕ) : Decidable (tryBitmapFirst t want) :=
  inferInstanceAs (Decidable (_ ∧ _))

/-- `HybridAllocator::allocate`, with the extents that it appends. -/
def allocate (t : HybridAllocator) (pastEnd want unit maxAllocSize : ℕ) (hint : ℤ) :
    Option (ℤ × List (ℕ × ℕ) × HybridAllocator) :=
  if isp2 unit ∧ want % unit = 0 then
    let m := maxExtent cfg want maxAllocSize
    let trees := askTrees cfg pastEnd unit m
    let child := askChild unit m hint
    (if tryBitmapFirst t want then askBoth child trees want t else askBoth trees child want t).map
      fun p => (if p.1 = 0 then -28 else (p.1 : ℤ), p.2)
  else none

/-- `HybridAllocator::release`, of the intervals of a set. -/
def release (rs : List (ℕ × ℕ)) (t : HybridAllocator) : Option HybridAllocator :=
  AvlAllocator.release cfg (addToTree cfg) rs t

/-- `HybridAllocator::get_free`. -/
def getFree (t : HybridAllocator) : ℕ := t.numFree + t.child.getFree

/-- `HybridAllocator::init_add_free`. -/
def initAddFree (t : HybridAllocator) (offset length : ℕ) : Option HybridAllocator :=
  AvlAllocator.initAddFree cfg (addToTree cfg) t offset length

/-- The callback of `init_rm_free`. -/
def rmFromChild (child : Bitmap.State) (offset length : ℕ) (found : Bool) : Option Bitmap.State :=
  if found then some child else child.initRmFree offset length

/-- `HybridAllocator::init_rm_free`. -/
def initRmFree (t : HybridAllocator) (stale offset length : ℕ) : Option HybridAllocator :=
  if length = 0 then some t
  else if offset + length ≤ cfg.deviceSize then
    tryRemoveFromTree cfg rmFromChild stale t offset length
  else none

end HybridAllocator

end CxxLab.Blk
