import CxxLab.Common.Object

/-!
# File nodes and log records

The types of `bluefs/bluefs_types.h`. Offsets, lengths and inode numbers are numbers without a
bound: no device and no count of files comes near `2 ^ 64`. The identity of the file system, which
is in every transaction, is left out.
-/

namespace CxxLab.Bluefs

open Common

/-- `bluefs_extent_t`. -/
structure Extent where
  /-- `bdev`. -/
  bdev : ℕ
  /-- `offset`. -/
  offset : ℕ
  /-- `length`. -/
  length : ℕ
  deriving DecidableEq, Repr

/-- `end`. -/
def Extent.stop (e : Extent) : ℕ := e.offset + e.length

/-- `bluefs_fnode_delta_t`. -/
structure FnodeDelta where
  ino : ℕ
  size : ℕ
  mtime : ℕ
  /-- `offset`: how much was allocated before. -/
  offset : ℕ
  extents : List Extent
  deriving DecidableEq, Repr

/-- `bluefs_fnode_t`. -/
structure Fnode where
  ino : ℕ
  size : ℕ
  mtime : ℕ
  extents : List Extent
  /-- `extents_index`: where in the file each extent starts. -/
  extentsIndex : List ℕ
  allocated : ℕ
  /-- `allocated_committed`: how much of it was logged. -/
  allocatedCommitted : ℕ
  deriving DecidableEq, Repr

namespace Fnode

/-- A new node. -/
def new (ino size mtime : ℕ) : Fnode := ⟨ino, size, mtime, [], [], 0, 0⟩

/-- `append_extent`. -/
def appendExtent (n : Fnode) (ext : Extent) : Fnode :=
  match n.extents.getLast? with
  | some last =>
    if last.stop = ext.offset ∧ last.bdev = ext.bdev ∧ last.length + ext.length < 0xffffffff then
      { n with
        extents := n.extents.dropLast ++ [{ last with length := last.length + ext.length }]
        allocated := n.allocated + ext.length }
    else { n with
      extents := n.extents ++ [ext]
      extentsIndex := n.extentsIndex ++ [n.allocated]
      allocated := n.allocated + ext.length }
  | none => { n with
    extents := n.extents ++ [ext]
    extentsIndex := n.extentsIndex ++ [n.allocated]
    allocated := n.allocated + ext.length }

/-- `claim_extents`: what becomes of the node. -/
def claimExtents (n : Fnode) (es : List Extent) : Fnode := es.foldl appendExtent n

/-- `clear_extents`. -/
def clearExtents (n : Fnode) : Fnode :=
  { n with extents := [], extentsIndex := [], allocated := 0, allocatedCommitted := 0 }

/-- `reset_delta`. -/
def resetDelta (n : Fnode) : Fnode := { n with allocatedCommitted := n.allocated }

/-- A round of the loop of `recalc_allocated`. -/
def recalcExtent (n : Fnode) (e : Extent) : Fnode :=
  { n with extentsIndex := n.extentsIndex ++ [n.allocated], allocated := n.allocated + e.length }

/-- `recalc_allocated`. -/
def recalcAllocated (n : Fnode) : Fnode :=
  (n.extents.foldl recalcExtent { n with allocated := 0, extentsIndex := [] }).resetDelta

/-- The loop of `make_delta`: the extents from `committed` on. -/
def deltaExtents (committed : ℕ) : ℕ → List Extent → List Extent
  | _, [] => []
  | pos, e :: es =>
    if pos + e.length ≤ committed then deltaExtents committed (pos + e.length) es
    else
      let skip := if pos < committed then committed - pos else 0
      (if skip = 0 then e else ⟨e.bdev, e.offset + skip, e.length - skip⟩) ::
        deltaExtents committed (pos + e.length) es

/-- `make_delta`. -/
def makeDelta (n : Fnode) : FnodeDelta where
  ino := n.ino
  size := n.size
  mtime := n.mtime
  offset := n.allocatedCommitted
  extents := deltaExtents n.allocatedCommitted 0 n.extents

/-- What `decode` reads of an encoded node: the index and the counts are not in the encoding. -/
def decoded (n : Fnode) : Fnode := n.recalcAllocated

end Fnode

/-- A record of a transaction of the log. -/
inductive LogOp where
  /-- `OP_INIT`. -/
  | init
  /-- `OP_DIR_CREATE`. -/
  | dirCreate (dir : Str)
  /-- `OP_DIR_REMOVE`. -/
  | dirRemove (dir : Str)
  /-- `OP_DIR_LINK`. -/
  | dirLink (dir file : Str) (ino : ℕ)
  /-- `OP_DIR_UNLINK`. -/
  | dirUnlink (dir file : Str)
  /-- `OP_FILE_UPDATE`. -/
  | fileUpdate (fnode : Fnode)
  /-- `OP_FILE_UPDATE_INC`. -/
  | fileUpdateInc (delta : FnodeDelta)
  /-- `OP_FILE_REMOVE`. -/
  | fileRemove (ino : ℕ)
  /-- `OP_JUMP`. -/
  | jump (nextSeq offset : ℕ)
  /-- `OP_JUMP_SEQ`. -/
  | jumpSeq (nextSeq : ℕ)
  deriving DecidableEq, Repr

end CxxLab.Bluefs
