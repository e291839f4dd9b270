import CxxLab.Blk.Intarith
import CxxLab.Bluefs.FnodeIndex

/-!
# Compaction of the log

`_compact_log_async` writes what is in memory to new extents and makes them the log. It sets
`log_is_compacting_` before it asks `_should_compact`, which says no while that is set: no
compaction is ever made, and `compaction_failure` is for every state. What the body would do is here
as well: on its errors it restores the node through a copy, and of the rest nothing
(`compactBody_restores_iff`).

What is written to the devices is left out, but for what becomes of the log file.
-/

namespace CxxLab.Bluefs

open Common

/-! ## Usage of the volumes -/

/-- `RocksDBBlueFSVolumeSelector`, or one that does not track usage. A hint is a level, and zero is
no hint. -/
structure Selector where
  /-- The selector tracks usage. -/
  tracks : Bool
  /-- `usage_`: the row behind the devices has the sizes of files. -/
  usage : ℕ → ℕ → ℕ
  /-- `max_usage_`. -/
  maxUsage : ℕ → ℕ → ℕ
  /-- `per_level_files_`. -/
  files : ℕ → ℕ

namespace Selector

/-- `MAX_BDEV`: the row of sizes. -/
def maxBdev : ℕ := 3

/-- `LEVELS - 1`: the column of a device. -/
def deviceColumn : ℕ := 4

/-- An entry of a table. -/
def set (t : ℕ → ℕ → ℕ) (row col v : ℕ) : ℕ → ℕ → ℕ :=
  Function.update t row (Function.update (t row) col v)

/-- `fetch_add` and `update_max`. -/
def addTo (v : Selector) (row col n : ℕ) : Selector :=
  let sum := v.usage row col + n
  { v with
    usage := set v.usage row col sum
    maxUsage := set v.maxUsage row col (max (v.maxUsage row col) sum) }

/-- A subtraction; `none` where its assertion fails. -/
def subFrom (v : Selector) (row col n : ℕ) : Option Selector :=
  if n ≤ v.usage row col then some { v with usage := set v.usage row col (v.usage row col - n) }
  else none

/-- `add_usage` of an extent. -/
def addExtent (hint : ℕ) (v : Selector) (e : Extent) : Option Selector :=
  if v.tracks = false ∨ hint = 0 then some v
  else if e.bdev ≤ maxBdev then
    some ((v.addTo e.bdev (hint - 1) e.length).addTo e.bdev deviceColumn e.length)
  else none

/-- `sub_usage` of an extent. -/
def subExtent (hint : ℕ) (v : Selector) (e : Extent) : Option Selector :=
  if v.tracks = false ∨ hint = 0 then some v
  else if e.bdev ≤ maxBdev then
    (v.subFrom e.bdev (hint - 1) e.length).bind fun v => v.subFrom e.bdev deviceColumn e.length
  else none

/-- `add_usage` of a size, with the count of files. -/
def addSize (v : Selector) (hint size : ℕ) : Selector :=
  if v.tracks = false ∨ hint = 0 then v
  else
    let v := v.addTo maxBdev (hint - 1) size
    let files := Function.update v.files (hint - 1) (v.files (hint - 1) + 1)
    { v with files := Function.update files deviceColumn (files deviceColumn + 1) }

/-- `sub_usage` of a size, with the count of files. -/
def subSize (v : Selector) (hint size : ℕ) : Option Selector :=
  if v.tracks = false ∨ hint = 0 then some v
  else
    (v.subFrom maxBdev (hint - 1) size).bind fun v =>
      if 0 < v.files (hint - 1) then
        let files := Function.update v.files (hint - 1) (v.files (hint - 1) - 1)
        if 0 < files deviceColumn then
          some { v with files := Function.update files deviceColumn (files deviceColumn - 1) }
        else none
      else none

/-- `add_usage` of a node. -/
def addNode (v : Selector) (hint : ℕ) (n : Fnode) : Option Selector :=
  (n.extents.foldlM (addExtent hint) v).map fun v => v.addSize hint n.size

/-- `sub_usage` of a node. -/
def subNode (v : Selector) (hint : ℕ) (n : Fnode) : Option Selector :=
  (n.extents.foldlM (subExtent hint) v).bind fun v => v.subSize hint n.size

end Selector

/-! ## Space -/

/-- The bytes of a device that an allocator has free. -/
abbrev Space := ℕ → Bool

/-- Whether a byte is in one of the extents. -/
def covered (es : List (ℕ × ℕ)) (x : ℕ) : Bool := es.any fun e => e.1 ≤ x ∧ x < e.1 + e.2

/-- What the allocators have in common: `allocate` takes bytes that are free, and its assertion on
the unit holds. -/
structure SpacePolicy where
  /-- The extents that `allocate` takes; `none` where an assertion fails. -/
  pick : Space → ℕ → ℕ → Option (List (ℕ × ℕ))
  /-- They were free. -/
  free : ∀ space need unit es, pick space need unit = some es →
    ∀ x, covered es x = true → space x = true
  /-- The unit is a word and a power of two. -/
  unit : ∀ space need unit es, pick space need unit = some es →
    Blk.isp2 unit = true ∧ unit < Blk.wordEnd

/-- The length of extents. -/
def extentsLength (es : List (ℕ × ℕ)) : ℕ := (es.map Prod.snd).sum

/-- What `allocate` leaves. -/
def Space.take (space : Space) (es : List (ℕ × ℕ)) : Space := fun x => space x && !covered es x

/-- `release`. -/
def Space.giveBack (space : Space) (es : List (ℕ × ℕ)) : Space := fun x => space x || covered es x

/-- The settings that a compaction depends on. -/
structure CompactConfig where
  /-- `bdev_[id]` is there. -/
  present : ℕ → Bool
  /-- `alloc_[id]`. -/
  policy : ℕ → SpacePolicy
  /-- `shared_alloc_id_`. -/
  sharedId : Option ℕ
  /-- `shared_alloc_->a` is there. -/
  sharedThere : Bool
  /-- `cfg_.alloc_size`. -/
  allocSize : ℕ
  /-- `alloc_size_`. -/
  allocSizes : ℕ → ℕ
  /-- `cfg_.log_compact_min_size`. -/
  minSize : ℕ
  /-- The quotient of the sizes is less than `cfg_.log_compact_min_ratio`. -/
  belowRatio : ℕ → ℕ → Bool
  /-- `_estimate_log_size`. -/
  estimate : Nodes → ℕ
  /-- `super_.block_size`. -/
  blockSize : ℕ
  /-- The encoding of a transaction with its number. -/
  encode : ℕ → List LogOp → List UInt8
  /-- It is not empty. -/
  encode_ne : ∀ seq ops, encode seq ops ≠ []
  /-- The length of the superblock with a node, with its checksum. -/
  superLength : Fnode → ℕ

/-- What the devices do during a compaction. -/
structure CompactEnv where
  /-- The results of the data writes. -/
  dataWrite : ℕ → ℤ
  /-- The result of the write of the superblock. -/
  superWrite : ℤ

/-- What a compaction works on. -/
structure CompactLog where
  /-- The files and the log. -/
  bluefs : LogFs
  /-- `vselector_hint` of the log file. -/
  hint : ℕ
  /-- `vselector_`. -/
  selector : Selector
  /-- `log_.writer->buffer`. -/
  buffer : List UInt8
  /-- `log_.writer->dirty_devs`. -/
  dirtyDevs : ℕ → Bool
  /-- The free bytes of the devices. -/
  space : ℕ → Space
  /-- `shared_alloc_->bluefs_used`. -/
  bluefsUsed : ℤ
  /-- `super_.version`. -/
  version : ℕ
  /-- `super_.log_fnode`. -/
  superNode : Fnode
  /-- `log_is_compacting_`. -/
  compacting : Bool

namespace CompactLog

variable (c : CompactConfig)

/-- The node of the log file. -/
def node (s : CompactLog) : Fnode := s.bluefs.logNode

/-- The node of the log file changes. -/
def setNode (s : CompactLog) (n : Fnode) : CompactLog :=
  { s with bluefs := { s.bluefs with fs := { s.bluefs.fs with
    nodes := s.bluefs.fs.nodes.setFile 1 { s.bluefs.fs.nodes.file 1 with fnode := n } } } }

/-- The loop of `_allocate` over the devices that are left: the code, the state, and the extents. -/
def allocateFrom (need unit : ℕ) : List ℕ → CompactLog → Option (ℤ × CompactLog × List Extent)
  | [], s => some (-28, s, [])
  | id :: ids, s =>
    if c.present id = false ∨ c.sharedId = some id ∧ c.sharedThere = false then
      allocateFrom need unit ids s
    else
      match (c.policy id).pick (s.space id) need unit with
      | none => none
      | some es =>
        let allocLen := extentsLength es
        let taken := (s.space id).take es
        if allocLen < need then
          -- A part is released; what was not counted is subtracted.
          let space := if 0 < allocLen then taken.giveBack es else taken
          let used := if c.sharedId = some id then s.bluefsUsed - allocLen else s.bluefsUsed
          allocateFrom need unit ids { s with
            space := Function.update s.space id space, bluefsUsed := used }
        else
          let used := if c.sharedId = some id then s.bluefsUsed + allocLen else s.bluefsUsed
          some (0, { s with space := Function.update s.space id taken, bluefsUsed := used },
            es.map fun e => ⟨id, e.1, e.2⟩)

/-- `_allocate` for the node of the log file, from the first device on. -/
def allocate (len : ℕ) (s : CompactLog) : Option (ℤ × CompactLog) :=
  let unit := if c.allocSize ≠ 0 then c.allocSize
    else if c.allocSizes 0 ≠ 0 then c.allocSizes 0 else c.allocSize
  (allocateFrom c (Blk.p2roundup len unit) unit [0, 1, 2] s).map fun r =>
    (r.1, r.2.1.setNode (r.2.1.node.claimExtents r.2.2))

/-- The loop of `_flush_data`: its code, and the devices that were written. -/
def flushExtents (env : CompactEnv) :
    ℕ → ℕ → ℕ → List Extent → (ℕ → Bool) → ℤ × (ℕ → Bool)
  | _, _, _, [], dirty => (0, dirty)
  | k, remaining, xOff, e :: es, dirty =>
    if remaining = 0 then (0, dirty)
    else if env.dataWrite k < 0 then (env.dataWrite k, dirty)
    else flushExtents env (k + 1) (remaining - min (e.length - xOff) remaining) 0 es
      (Function.update dirty e.bdev true)

/-- `_flush_data` of the buffer, from the start of the log file. -/
def flushData (env : CompactEnv) (s : CompactLog) : ℤ × CompactLog :=
  if s.buffer.length = 0 then (0, s)
  else
    match s.node.seek 0 with
    | none => (-2, s)
    | some (i, xOff) =>
      let r := flushExtents env 0 s.buffer.length xOff (s.node.extents.drop i) s.dirtyDevs
      (r.1, { s with dirtyDevs := r.2 })

/-- `_write_super` to `BDEV_DB`. -/
def writeSuper (env : CompactEnv) (s : CompactLog) : ℤ × CompactLog :=
  if c.present 1 = false then (-19, s)
  else if 4096 < c.superLength s.superNode then (-5, s)
  else if env.superWrite < 0 then (env.superWrite, s)
  else (0, { s with version := s.version + 1 })

/-- `_compact_log_dump_metadata`. -/
def dumpMetadata (n : Nodes) : List LogOp :=
  (n.dirMap.entries.flatMap fun d => LogOp.dirCreate d.1 ::
    (d.2.entries.filter fun f => (n.file f.2).fnode.ino ≠ 1).map fun f =>
      .dirLink d.1 f.1 (n.file f.2).fnode.ino) ++
  (n.fileMap.filter (· ≠ 1)).map fun ino => .fileUpdate (n.file ino).fnode

/-- The transaction of a compaction. -/
def compactedT (s : CompactLog) : List LogOp :=
  dumpMetadata s.bluefs.fs.nodes ++ [.jumpSeq s.bluefs.seqLive]

/-- It, with its padding. -/
def compactedBl (s : CompactLog) : List UInt8 :=
  let bl := c.encode 1 s.compactedT
  bl ++ List.replicate (Blk.p2roundup bl.length c.blockSize - bl.length) 0

/-- `_should_compact`. -/
def shouldCompact (s : CompactLog) : Bool :=
  if s.compacting then false
  else if s.node.size < c.minSize then false
  else !c.belowRatio s.node.size (c.estimate s.bluefs.fs.nodes)

/-- The usage without the log file: its extents, its size, and its size again. -/
def dropUsage (s : CompactLog) : Option Selector :=
  if s.hint = 0 then some s.selector
  else (s.selector.subNode s.hint s.node.copied).bind fun v => v.subSize s.hint s.node.size

/-- The usage with the new node of the log file. -/
def countUsage (s : CompactLog) : Option Selector :=
  if s.hint = 0 then some s.selector
  else (s.selector.addNode s.hint s.node).map fun v => v.addSize s.hint s.node.size

/-- The end of a compaction, from the superblock on. -/
def finishCompact (env : CompactEnv) (old : Fnode) (s : CompactLog) : ℤ × CompactLog :=
  let r := writeSuper c env { s with superNode := s.node }
  let s := { r.2 with compacting := false }
  if r.1 < 0 then (r.1, s)
  else
    let fs := s.bluefs.fs
    let dirty := { fs.dirty with pendingRelease := fs.dirty.pendingRelease ++ old.extents }
    (0, { s with bluefs := { s.bluefs with fs := { fs with dirty := dirty, t := [] } } })

/-- The new log, from the writer on. -/
def writeCompacted (env : CompactEnv) (old : Fnode) (ops : List LogOp) (bl : List UInt8)
    (s : CompactLog) : ℤ × CompactLog :=
  -- The old writer is closed, and a new one made.
  let s := s.setNode { s.node with size := 0 }
  let s := { s with
    buffer := bl
    dirtyDevs := fun _ => false
    bluefs := { s.bluefs with pos := 0, disk := [] } }
  let r := flushData env s
  if r.1 < 0 then (r.1, { r.2 with buffer := [], compacting := false })
  else
    finishCompact c env old { r.2 with
      buffer := []
      dirtyDevs := fun _ => false
      bluefs := { r.2.bluefs with pos := bl.length, disk := [.txn bl.length 1 ops] } }

/-- What `_compact_log_async` does when it is to compact; `none` where an assertion fails. -/
def compactBody (env : CompactEnv) (s : CompactLog) : Option (ℤ × CompactLog) :=
  let old := s.node.copied
  let ops := s.compactedT
  let bl := compactedBl c s
  match s.dropUsage with
  | none => none
  | some v =>
    let s := { s with selector := v }.setNode s.node.clearExtents
    match allocate c bl.length s with
    | none => none
    | some (r, s) =>
      if r < 0 then some (r, { s.setNode old with compacting := false })
      else
        match s.countUsage with
        | none => none
        | some v => some (writeCompacted c env old ops bl { s with selector := v })

/-- `_compact_log_async`. -/
def compactLogAsync (env : CompactEnv) (s : CompactLog) : Option (ℤ × CompactLog) :=
  if s.compacting then some (0, s)
  else
    let s := { s with compacting := true }
    if shouldCompact c s = false then some (0, { s with compacting := false })
    else compactBody c env s

/-- What an error should leave as it was: the node of the log file, its writer, the usage of the
volumes, and the free space. -/
structure Restored (s s' : CompactLog) : Prop where
  node : s'.node = s.node
  pos : s'.bluefs.pos = s.bluefs.pos
  buffer : s'.buffer = s.buffer
  dirtyDevs : s'.dirtyDevs = s.dirtyDevs
  usage : s'.selector.usage = s.selector.usage
  files : s'.selector.files = s.selector.files
  space : s'.space = s.space

/-- No compaction is made. -/
theorem compactLogAsync_eq (env : CompactEnv) (s : CompactLog) :
    compactLogAsync c env s = some (0, s) := by
  unfold compactLogAsync
  cases hs : s.compacting with
  | true => rfl
  | false =>
    -- `_should_compact` finds the flag set.
    have hno : shouldCompact c { s with compacting := true } = false := if_pos rfl
    have hsame : ({ s with compacting := false } : CompactLog) = s := by rw [← hs]
    simp only [Bool.false_eq_true, if_false]
    rw [if_pos hno, hsame]

/-- Whatever `_compact_log_async` returns, and so on every error, the node of the log file, every
`seek` in it, the writer, the usage of the volumes and the free space are as they were. -/
theorem compaction_failure (env : CompactEnv) (s : CompactLog) :
    ∃ r s', compactLogAsync c env s = some (r, s') ∧ Restored s s' ∧
      ∀ off, s'.node.seek off = s.node.seek off :=
  ⟨0, s, compactLogAsync_eq c env s, ⟨rfl, rfl, rfl, rfl, rfl, rfl, rfl⟩, fun _ => rfl⟩

end CompactLog

/-! ## Errors of the body -/

namespace Selector

/-- Extents do not count as files. -/
theorem subExtents_files {hint : ℕ} {es : List Extent} {v v' : Selector}
    (h : es.foldlM (subExtent hint) v = some v') : v'.files = v.files ∧ v'.tracks = v.tracks := by
  have hsub : ∀ {v v' : Selector} {row col n : ℕ}, v.subFrom row col n = some v' →
      v'.files = v.files ∧ v'.tracks = v.tracks := by
    intro v v' row col n h
    unfold subFrom at h
    split_ifs at h
    obtain rfl := Option.some.inj h
    exact ⟨rfl, rfl⟩
  induction es generalizing v with
  | nil =>
    obtain rfl := Option.some.inj h
    exact ⟨rfl, rfl⟩
  | cons e es ih =>
    rw [List.foldlM_cons] at h
    obtain ⟨v1, h1, h2⟩ := Option.bind_eq_some_iff.mp h
    have hv1 : v1.files = v.files ∧ v1.tracks = v.tracks := by
      unfold subExtent at h1
      split_ifs at h1
      · obtain rfl := Option.some.inj h1
        exact ⟨rfl, rfl⟩
      · obtain ⟨v2, h3, h4⟩ := Option.bind_eq_some_iff.mp h1
        exact ⟨(hsub h4).1.trans (hsub h3).1, (hsub h4).2.trans (hsub h3).2⟩
    exact ⟨(ih h2).1.trans hv1.1, (ih h2).2.trans hv1.2⟩

/-- Without usage, extents change nothing. -/
theorem subExtents_untracked {hint : ℕ} {v : Selector} (h : v.tracks = false) (es : List Extent) :
    es.foldlM (subExtent hint) v = some v := by
  induction es with
  | nil => rfl
  | cons e es ih =>
    have he : subExtent hint v e = some v := if_pos (.inl h)
    rw [List.foldlM_cons, he]
    exact ih

/-- A size that is subtracted was the one of a file. -/
theorem subSize_files {v v' : Selector} {hint size : ℕ} (ht : v.tracks = true) (hh : hint ≠ 0)
    (h : v.subSize hint size = some v') :
    v'.files deviceColumn < v.files deviceColumn ∧ v'.tracks = true := by
  unfold subSize at h
  rw [if_neg (by simp [ht, hh])] at h
  obtain ⟨v1, h1, h2⟩ := Option.bind_eq_some_iff.mp h
  have hv1 : v1.files = v.files ∧ v1.tracks = v.tracks := by
    unfold subFrom at h1
    split_ifs at h1
    obtain rfl := Option.some.inj h1
    exact ⟨rfl, rfl⟩
  dsimp only at h2
  split_ifs at h2 with hlevel hdevice
  obtain rfl := Option.some.inj h2
  refine ⟨?_, hv1.2.trans ht⟩
  dsimp only
  rw [Function.update_self, ← hv1.1]
  have hle : Function.update v1.files (hint - 1) (v1.files (hint - 1) - 1) deviceColumn ≤
      v1.files deviceColumn := by
    by_cases hc : deviceColumn = hint - 1
    · rw [hc, Function.update_self]
      exact Nat.sub_le _ _
    · rw [Function.update_of_ne hc]
  omega

end Selector

namespace CompactLog

variable {c : CompactConfig}

/-- Usage is not tracked. -/
def Untracked (s : CompactLog) : Prop := s.hint = 0 ∨ s.selector.tracks = false

instance (s : CompactLog) : Decidable s.Untracked := inferInstanceAs (Decidable (_ ∨ _))

/-- Without usage, nothing is dropped. -/
theorem dropUsage_of_untracked {s : CompactLog} (h : s.Untracked) :
    s.dropUsage = some s.selector := by
  unfold dropUsage
  rcases h with h | h
  · rw [if_pos h]
  · have hsize : ∀ n, s.selector.subSize s.hint n = some s.selector := fun n => if_pos (.inl h)
    split_ifs
    · rfl
    · unfold Selector.subNode
      rw [Selector.subExtents_untracked h, Option.bind_some, hsize, Option.bind_some, hsize]

/-- With it, there are fewer files. -/
theorem dropUsage_files {s : CompactLog} (h : ¬s.Untracked) {v : Selector}
    (hv : s.dropUsage = some v) : v.files ≠ s.selector.files := by
  obtain ⟨hhint, htracks⟩ := not_or.mp h
  have htracks : s.selector.tracks = true := by simpa using htracks
  unfold dropUsage at hv
  rw [if_neg hhint] at hv
  obtain ⟨v2, h2, hsize⟩ := Option.bind_eq_some_iff.mp hv
  obtain ⟨v1, h1, hsize'⟩ := Option.bind_eq_some_iff.mp h2
  obtain ⟨hf, ht⟩ := Selector.subExtents_files h1
  obtain ⟨hlt, ht2⟩ := Selector.subSize_files (ht.trans htracks) hhint hsize'
  obtain ⟨hlt', -⟩ := Selector.subSize_files ht2 hhint hsize
  intro heq
  rw [heq] at hlt'
  rw [hf] at hlt
  omega

/-- Extents without bytes cover nothing, and others something. -/
theorem covered_iff (es : List (ℕ × ℕ)) : (∃ x, covered es x = true) ↔ 0 < extentsLength es := by
  induction es with
  | nil => simp [covered, extentsLength]
  | cons e es ih =>
    have hlen : extentsLength (e :: es) = e.2 + extentsLength es := List.sum_cons
    have hcov : ∀ x, covered (e :: es) x = true ↔
        (e.1 ≤ x ∧ x < e.1 + e.2) ∨ covered es x = true := by
      intro x
      simp [covered]
    simp only [hlen, hcov, exists_or, ih]
    constructor
    · rintro (⟨x, hx⟩ | h)
      · omega
      · omega
    · intro h
      rcases Nat.eq_zero_or_pos e.2 with h0 | hpos
      · exact .inr (by omega)
      · exact .inl ⟨e.1, by omega, by omega⟩

/-- Where the loop of `_allocate` fails the free space is what it was, and where it does not it is
not. Besides the space and its count nothing changes. -/
theorem allocateFrom_spec {need unit : ℕ}
    (hneed : Blk.isp2 unit = true ∧ unit < Blk.wordEnd → 0 < need) {ids : List ℕ} {s s' : CompactLog}
    {r : ℤ} {es : List Extent} (h : allocateFrom c need unit ids s = some (r, s', es)) :
    (s'.space = s.space ↔ r < 0) ∧
      ∃ space used, s' = { s with space := space, bluefsUsed := used } := by
  induction ids generalizing s with
  | nil =>
    simp only [allocateFrom, Option.some.injEq, Prod.mk.injEq] at h
    obtain ⟨rfl, rfl, -⟩ := h
    exact ⟨iff_of_true rfl (by decide), s.space, s.bluefsUsed, rfl⟩
  | cons id ids ih =>
    rw [allocateFrom] at h
    by_cases hskip : c.present id = false ∨ c.sharedId = some id ∧ c.sharedThere = false
    · rw [if_pos hskip] at h
      exact ih h
    rw [if_neg hskip] at h
    cases hpick : (c.policy id).pick (s.space id) need unit with
    | none =>
      rw [hpick] at h
      cases h
    | some picked =>
      rw [hpick] at h
      dsimp only at h
      have hfree := (c.policy id).free _ _ _ _ hpick
      have hneed := hneed ((c.policy id).unit _ _ _ _ hpick)
      by_cases hpart : extentsLength picked < need
      · -- A part of what was needed is given back.
        rw [if_pos hpart] at h
        have hback : (if 0 < extentsLength picked then
            ((s.space id).take picked).giveBack picked else (s.space id).take picked) =
              s.space id := by
          funext x
          split_ifs with hpos
          · cases hx : covered picked x with
            | true => simp [Space.giveBack, Space.take, hx, hfree x hx]
            | false => simp [Space.giveBack, Space.take, hx]
          · have hx : covered picked x = false := by
              rw [Bool.eq_false_iff]
              exact fun hx => hpos ((covered_iff picked).mp ⟨x, hx⟩)
            simp [Space.take, hx]
        rw [hback, Function.update_eq_self] at h
        obtain ⟨hspace, space, used, hs'⟩ := ih h
        exact ⟨hspace, space, used, hs'⟩
      · rw [if_neg hpart] at h
        simp only [Option.some.injEq, Prod.mk.injEq] at h
        obtain ⟨rfl, rfl, -⟩ := h
        refine ⟨iff_of_false (fun heq => ?_) (by decide), _, _, rfl⟩
        -- A byte that was free is taken.
        obtain ⟨x, hx⟩ := (covered_iff picked).mpr (by omega)
        have hid := congrFun (congrFun heq id) x
        simp only [Function.update_self] at hid
        rw [hfree x hx] at hid
        simp [Space.take, hx] at hid

/-- `_allocate` changes only the node of the log file, the space and its count. -/
theorem allocate_spec {len : ℕ} (h0 : 0 < len) (hlen : len ≤ 0x8000000000000000)
    {s s' : CompactLog} {r : ℤ} (h : allocate c len s = some (r, s')) :
    (s'.space = s.space ↔ r < 0) ∧ s'.bluefs.pos = s.bluefs.pos ∧ s'.buffer = s.buffer ∧
      s'.dirtyDevs = s.dirtyDevs ∧ s'.selector = s.selector := by
  unfold allocate at h
  dsimp only at h
  obtain ⟨unit, hunit⟩ : ∃ unit, unit = if c.allocSize ≠ 0 then c.allocSize
    else if c.allocSizes 0 ≠ 0 then c.allocSizes 0 else c.allocSize := ⟨_, rfl⟩
  rw [← hunit] at h
  obtain ⟨⟨r', s1, es⟩, h1, hr⟩ := Option.map_eq_some_iff.mp h
  simp only [Prod.mk.injEq] at hr
  obtain ⟨rfl, rfl⟩ := hr
  have hneed : Blk.isp2 unit = true ∧ unit < Blk.wordEnd → 0 < Blk.p2roundup len unit := by
    rintro ⟨hp, hw⟩
    obtain ⟨hu0, hu63, -⟩ := Blk.unit_le hp hw
    exact h0.trans_le (Blk.le_p2roundup hlen hu0 hu63)
  obtain ⟨hspace, space, used, hs'⟩ := allocateFrom_spec hneed h1
  refine ⟨hspace, ?_⟩
  rw [hs']
  exact ⟨rfl, rfl, rfl, rfl⟩

/-- The free space plays no part in what follows the allocation. -/
theorem writeCompacted_space (env : CompactEnv) (old : Fnode) (ops : List LogOp) (bl : List UInt8)
    (s : CompactLog) : (writeCompacted c env old ops bl s).2.space = s.space := by
  have hdata : ∀ s : CompactLog, (flushData env s).2.space = s.space := by
    intro s
    unfold flushData
    split_ifs
    · rfl
    · cases s.node.seek 0 <;> rfl
  have hsuper : ∀ s : CompactLog, (writeSuper c env s).2.space = s.space := by
    intro s
    unfold writeSuper
    split_ifs <;> rfl
  have hfinish : ∀ s : CompactLog, (finishCompact c env old s).2.space = s.space := by
    intro s
    unfold finishCompact
    dsimp only
    split_ifs <;> exact hsuper _
  unfold writeCompacted
  dsimp only
  split_ifs
  · exact hdata _
  · exact (hfinish _).trans (hdata _)

/-- The compacted log is not empty. -/
theorem length_compactedBl (s : CompactLog) : 0 < (compactedBl c s).length := by
  unfold compactedBl
  have := List.length_pos_iff.mpr (c.encode_ne 1 s.compactedT)
  rw [List.length_append]
  omega

/-- On an error the body has restored everything exactly when there was no space for the new log,
usage is not tracked and the copy of the node is the node. -/
theorem compactBody_restores_iff {env : CompactEnv} {s s' : CompactLog} {r : ℤ}
    (hlen : (compactedBl c s).length ≤ 0x8000000000000000)
    (h : compactBody c env s = some (r, s')) (hr : r < 0) :
    Restored s s' ↔ s'.space = s.space ∧ s.Untracked ∧ s.node.copied = s.node := by
  unfold compactBody at h
  dsimp only at h
  -- The usage of the log is taken from the selector first.
  cases hdrop : s.dropUsage with
  | none =>
    rw [hdrop] at h
    cases h
  | some v =>
    rw [hdrop] at h
    dsimp only at h
    obtain ⟨s1, hs1⟩ : ∃ s1 : CompactLog, s1 =
      { s with selector := v }.setNode s.node.clearExtents := ⟨_, rfl⟩
    rw [← hs1] at h
    cases halloc : allocate c (compactedBl c s).length s1 with
    | none =>
      rw [halloc] at h
      cases h
    | some p =>
      obtain ⟨r1, s2⟩ := p
      rw [halloc] at h
      dsimp only at h
      obtain ⟨hspace, hpos, hbuf, hdirty, hsel⟩ := allocate_spec (length_compactedBl s) hlen halloc
      have hfirst : s1.space = s.space := by rw [hs1]; rfl
      split_ifs at h with hneg
      · -- No space: the node is the copy, and the usage is not counted again.
        simp only [Option.some.injEq, Prod.mk.injEq] at h
        obtain ⟨rfl, rfl⟩ := h
        have hsp : s2.space = s.space := (hspace.mpr hneg).trans hfirst
        have hnode : ({ s2.setNode s.node.copied with compacting := false } : CompactLog).node =
            s.node.copied := by
          unfold node setNode LogFs.logNode Nodes.setFile
          simp
        have hv : s2.selector = v := hsel.trans (by rw [hs1]; rfl)
        constructor
        · intro hres
          refine ⟨hsp, ?_, hnode.symm.trans hres.node⟩
          by_contra hu
          refine dropUsage_files hu hdrop ?_
          rw [← hv]
          exact hres.files
        · rintro ⟨-, hu, hcopy⟩
          have hsame : v = s.selector := by
            rw [dropUsage_of_untracked hu, Option.some.injEq] at hdrop
            exact hdrop.symm
          exact {
            node := hnode.trans hcopy
            pos := hpos.trans (by rw [hs1]; rfl)
            buffer := hbuf.trans (by rw [hs1]; rfl)
            dirtyDevs := hdirty.trans (by rw [hs1]; rfl)
            usage := by
              change s2.selector.usage = _
              rw [hv, hsame]
            files := by
              change s2.selector.files = _
              rw [hv, hsame]
            space := hsp }
      -- The counting asserts that the selector has the levels.
      · cases hcount : s2.countUsage with
        | none =>
          rw [hcount] at h
          cases h
        | some v2 =>
          rw [hcount] at h
          have h := Option.some.inj h
          -- The new extents are not given back.
          have hne : s'.space ≠ s.space := by
            have heq : s'.space = s2.space := by
              have hsnd : _ = s' := congrArg Prod.snd h
              rw [← hsnd]
              exact writeCompacted_space env _ _ _ _
            rw [heq, ← hfirst]
            exact fun hc => hneg (hspace.mp hc)
          exact iff_of_false (fun hres => hne hres.space) fun hc => hne hc.1

end CompactLog

end CxxLab.Bluefs
