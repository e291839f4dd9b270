import CxxLab.Bluefs.FnodeIndex
import CxxLab.Bluefs.LogSteps

/-!
# The updates of a file

A file is logged in full when it is opened for writing, truncated, or dumped by a compaction, and by
deltas when it has grown. A delta begins at `allocated_committed`, and `_replay` asserts that it
begins where the replayed node ends. The log file has no full updates: its node is in the
superblock. A superblock that is written behind a delta of the log has what the delta has, and so
has the node that a compaction writes. And `_replay` reads no further than the size of that node,
which no flush of the log writes: a mount has the records that were logged before the superblock was
written. `updates_replay` is for every history of a file in which the log is extended neither before
the superblock is written nor after a compaction, and every mount finds the superblock written since
the file was logged.
-/

namespace CxxLab.Bluefs

open Runs

/-- A file in memory and in the log. -/
structure FileHistory where
  /-- The node in memory. -/
  fnode : Fnode
  /-- The records of the file that the log has, from the first one on. -/
  log : List LogOp
  /-- The node of the log file in the superblock. -/
  super : Fnode
  /-- How many of the records are below the size that the superblock has for the log. -/
  reached : ℕ
  /-- The node as it was when it was logged last. -/
  last : Fnode
  /-- There has been a writer of the file since the mount. -/
  opened : Bool
  /-- The log has been compacted since the mount. -/
  compacted : Bool

namespace FileHistory

variable {ino : ℕ}

/-- What `_replay` makes of the records, if it reads them all. -/
def replayed (h : FileHistory) : Option Nodes := (Nodes.mounted h.super.decoded).replayOps h.log

/-- The records that a mount reads. -/
def readLog (h : FileHistory) : List LogOp := h.log.take h.reached

/-- What a mount makes of the records. -/
def mounted (h : FileHistory) : Option Nodes := (Nodes.mounted h.super.decoded).replayOps h.readLog

/-- `op_file_update`. -/
def opFileUpdate (h : FileHistory) : FileHistory :=
  { h with fnode := h.fnode.resetDelta, log := h.log ++ [.fileUpdate h.fnode], last := h.fnode }

/-- `op_file_update_inc`. -/
def opFileUpdateInc (h : FileHistory) : FileHistory :=
  { h with
    fnode := h.fnode.resetDelta
    log := h.log ++ [.fileUpdateInc h.fnode.makeDelta]
    last := h.fnode }

/-- The superblock is written, when this is the log file. -/
def writeSuper (h : FileHistory) : FileHistory :=
  { h with super := h.fnode, last := h.fnode, reached := h.log.length }

/-- What happens to a file. -/
inductive Event where
  /-- `open_for_write`, at the time `now`; without `overwrite` the file is made if there is none. -/
  | openForWrite (overwrite : Bool) (now : ℕ)
  /-- `_flush_range_F` up to `stop`, where `_allocate` has given `es`; `_flush_log_data` of the
  log. -/
  | flushRange (es : List Extent) (stop : ℕ)
  /-- `preallocate`, where `_allocate` has given `es`; `_maybe_extend_log` of the log. -/
  | preallocate (es : List Extent)
  /-- `_consume_dirty` logs the file. -/
  | consumeDirty
  /-- `truncate`. -/
  | truncate (offset : ℕ)
  /-- `_compact_log_async` goes through, where `_allocate` has given `es` for the log. -/
  | compactLog (es : List Extent)
  /-- The superblock is written by `sync_metadata` or `umount`, which flush the log before. -/
  | writeSuper
  /-- The file system is mounted; the log is read up to `pos`, and is written over from there on. -/
  | mount (pos : ℕ)

/-- One event; `none` where an assertion of `_replay` fails. No name denotes the log file, and it
always has its writer. -/
def step (ino : ℕ) (h : FileHistory) : Event → Option FileHistory
  | .openForWrite overwrite now =>
    if ino = 1 ∨ overwrite = true ∧ h.log = [] then some h
    else
      let n := if overwrite then h.fnode else { h.fnode with size := 0 }.clearExtents
      some { h with fnode := { n with mtime := now }, opened := true }.opFileUpdate
  | .flushRange es stop =>
    if h.opened = false then some h
    else
      let n := if ino = 1 then h.fnode else h.fnode.claimExtents es
      some { h with fnode := { n with size := max n.size stop } }
  | .preallocate es =>
    if h.opened = false then some h
    else some { h with fnode := h.fnode.claimExtents es }.opFileUpdateInc
  | .consumeDirty => if ino = 1 ∨ h.opened = false then some h else some h.opFileUpdateInc
  | .truncate offset =>
    if h.opened = false ∨ h.fnode.ino ≤ 1 ∨ h.fnode.size ≤ offset then some h
    else some { h with fnode := h.fnode.cutTo offset }.opFileUpdate
  | .compactLog es =>
    -- The superblock gets a log of size 0.
    if ino = 1 then
      let n := h.fnode.clearExtents.claimExtents es
      some { h with fnode := { n with size := 0 }, log := [], compacted := true }.writeSuper
    else if h.log = [] then some h else some { h with log := [], reached := 0 }.opFileUpdate
  | .writeSuper => if ino = 1 then some h.writeSuper else some { h with reached := h.log.length }
  | .mount pos => h.mounted.map fun n =>
    let f := (n.file ino).fnode
    let h := { h with log := h.readLog }
    if ino = 1 then { h with fnode := { f with size := pos }.resetDelta, compacted := false }
    else { h with fnode := f, opened := false }

/-- No delta of the log is there when the superblock is written, the log is not extended in the mount
in which it was compacted, and a mount finds the superblock written behind the last record. -/
def LogApart (ino : ℕ) (h : FileHistory) : Event → Prop
  | .preallocate _ => ino = 1 → h.compacted = false
  | .writeSuper => ino = 1 → h.log = []
  | .mount _ => h.reached = h.log.length
  | _ => True

instance (h : FileHistory) : ∀ e, Decidable (LogApart ino h e)
  | .preallocate _ => inferInstanceAs (Decidable (ino = 1 → h.compacted = false))
  | .writeSuper => inferInstanceAs (Decidable (ino = 1 → h.log = []))
  | .mount _ => inferInstanceAs (Decidable (h.reached = h.log.length))
  | .openForWrite .. | .flushRange .. | .consumeDirty | .truncate _ | .compactLog _ =>
    inferInstanceAs (Decidable True)

/-- The node of the log file that `mkfs` writes. -/
def mkfsLog (es : List Extent) (size : ℕ) : Fnode :=
  { (Fnode.new 1 0 0).claimExtents es with size := size }

/-- The first mount: the log file, or a file that has not been made. -/
def start (ino : ℕ) (es : List Extent) (size : ℕ) : FileHistory where
  fnode := if ino = 1 then (mkfsLog es size).decoded else Fnode.new ino 0 0
  log := []
  super := mkfsLog es size
  reached := 0
  last := if ino = 1 then mkfsLog es size else Fnode.new ino 0 0
  opened := ino = 1
  compacted := false

/-! ## What the replay has of the file -/

/-- The node that the replay has of the file. -/
def node (n : Nodes) (ino : ℕ) : Fnode := ((n.getFile ino).file ino).fnode

/-- A file that is there is not made. -/
theorem getFile_of_mem {n : Nodes} (h : ino ∈ n.fileMap) : n.getFile ino = n := if_pos h

/-- A full update replaces the node. -/
theorem replayOp_update (n : Nodes) {f : Fnode} (hino : f.ino = ino) :
    ∃ n', n.replayOp (.fileUpdate f) = some n' ∧ node n' ino = f.decoded ∧
      (n'.getFile ino).file ino = n'.file ino := by
  subst hino
  have hmem := (Nodes.mem_fileMap_getFile n f.ino f.ino).mpr (.inl rfl)
  obtain ⟨n', hn'⟩ : ∃ n', n.replayOp (.fileUpdate f) = some n' := ⟨_, rfl⟩
  have hget : n'.getFile f.ino = n' := by
    obtain rfl := Option.some.inj hn'
    exact getFile_of_mem hmem
  refine ⟨n', hn', ?_, by rw [hget]⟩
  rw [node, hget, Nodes.fnode_fileUpdate hn', if_pos rfl]

/-- A delta that begins where the node ends is applied to it. -/
theorem replayOp_updateInc (n : Nodes) {d : FnodeDelta} (hino : d.ino = ino)
    (hoffset : d.offset = (node n ino).allocated) :
    ∃ n', n.replayOp (.fileUpdateInc d) = some n' ∧
      node n' ino =
        Fnode.claimExtents { node n ino with mtime := d.mtime, size := d.size } d.extents ∧
      (n'.getFile ino).file ino = n'.file ino := by
  subst hino
  have hmem := (Nodes.mem_fileMap_getFile n d.ino d.ino).mpr (.inl rfl)
  obtain ⟨f, hf⟩ : ∃ f, f =
    Fnode.claimExtents { node n d.ino with mtime := d.mtime, size := d.size } d.extents := ⟨_, rfl⟩
  obtain ⟨n', hn'⟩ : ∃ n', n' =
    { (n.getFile d.ino).setFile d.ino { (n.getFile d.ino).file d.ino with fnode := f } with
      inoLast := max (n.getFile d.ino).inoLast d.ino } := ⟨_, rfl⟩
  have hop : n.replayOp (.fileUpdateInc d) = some n' := by
    rw [hn', hf]
    exact if_pos hoffset
  have hget : n'.getFile d.ino = n' := by
    rw [hn']
    exact getFile_of_mem hmem
  refine ⟨n', hop, ?_, by rw [hget]⟩
  rw [node, hget, hn', ← hf]
  exact congrArg File.fnode ((Nodes.file_setFile _ _ _ _).trans (if_pos rfl))

/-- What a mount begins with, before any record. -/
theorem node_mounted (f : Fnode) (ino : ℕ) :
    node (Nodes.mounted f) ino = (if ino = 1 then f else Fnode.new ino 0 0) ∧
      ((Nodes.mounted f).getFile ino).file ino = (Nodes.mounted f).file ino := by
  rcases eq_or_ne ino 1 with rfl | hone
  · exact ⟨rfl, rfl⟩
  · have hmem : ino ∉ (Nodes.mounted f).fileMap := by simpa [Nodes.mounted] using hone
    have hnew : ((Nodes.mounted f).getFile ino).file ino = File.new ino 0 := by
      rw [Nodes.getFile, if_neg hmem, Nodes.file_addFile, if_pos rfl]
    have hfile : (Nodes.mounted f).file ino = File.new ino 0 := if_neg hone
    rw [node, hnew, hfile, if_neg hone]
    exact ⟨rfl, rfl⟩

/-- The replay has the file as it was logged last; a node that has a writer maps what was logged of
it, and more. -/
structure Tracks (ino : ℕ) (h : FileHistory) (n : Nodes) : Prop where
  /-- The records go through. -/
  replay : h.replayed = some n
  /-- The file is there, or new. -/
  file : (n.getFile ino).file ino = n.file ino
  /-- The node in memory is the one of the file. -/
  inMemory : h.fnode.ino = ino
  /-- So is the one of the replay. -/
  inReplay : (node n ino).ino = ino
  /-- The node in the superblock is the one of the log. -/
  inSuper : h.super.ino = 1
  /-- The replay has the node that was logged last. -/
  same : h.last.Same (node n ino)
  /-- Its count is right. -/
  count : (node n ino).allocated = (node n ino).spread.length
  /-- The count of the node in memory is right. -/
  count' : h.fnode.allocated = h.fnode.spread.length
  /-- With a writer, the replay maps what was logged of the node in memory. -/
  writer : h.opened = true → (ino = 1 → h.compacted = false) →
    h.fnode.Sized ∧ h.fnode.Logged (node n ino)
  /-- All of the log file was logged. -/
  whole : ino = 1 → h.compacted = false → h.fnode.allocatedCommitted = h.fnode.allocated
  /-- The log file has its writer. -/
  logOpened : ino = 1 → h.opened = true

/-- A record goes through after the others. -/
theorem replayed_append {h h' : FileHistory} {n n' : Nodes} {op : LogOp}
    (hn : h.replayed = some n) (hsuper : h'.super = h.super) (hlog : h'.log = h.log ++ [op])
    (hop : n.replayOp op = some n') : h'.replayed = some n' := by
  unfold replayed at hn ⊢
  rw [hsuper, hlog, Nodes.replayOps_append, hn, Option.bind_some, Nodes.replayOps, List.foldlM_cons,
    hop]
  rfl

/-- A full update of a file that is not the log keeps up with any node whose count is right. -/
theorem Tracks.opFileUpdate {h : FileHistory} {n : Nodes} (hone : ino ≠ 1)
    (hn : h.replayed = some n) (hsuper : h.super.ino = 1) (hino : h.fnode.ino = ino)
    (hcount : h.fnode.allocated = h.fnode.spread.length) : ∃ n', h.opFileUpdate.Tracks ino n' := by
  obtain ⟨n', hop, hnode, hfile⟩ := replayOp_update n hino
  obtain ⟨hlogged, hsame⟩ := Fnode.logged_decoded hcount
  obtain ⟨hall, hspread, hinos, -⟩ := h.fnode.decoded_spec
  refine ⟨n', replayed_append hn rfl rfl hop, hfile, hino, ?_, hsuper, ?_, ?_, hcount,
    fun _ _ => ⟨?_, ?_⟩, fun h1 => absurd h1 hone, fun h1 => absurd h1 hone⟩
  · rw [hnode, hinos, hino]
  · rw [hnode]
    exact ⟨hsame.spread, hsame.size, hsame.mtime⟩
  · rw [hnode, hall, hspread]
  · exact Fnode.resetDelta_sized hcount
  · rw [hnode]
    exact hlogged

/-- A delta keeps up with a node of which the replay has what was logged. -/
theorem Tracks.opFileUpdateInc {h : FileHistory} {n : Nodes} (hn : h.replayed = some n)
    (hsuper : h.super.ino = 1) (hino : h.fnode.ino = ino) (hino' : (node n ino).ino = ino)
    (hsized : h.fnode.Sized) (hlogged : h.fnode.Logged (node n ino))
    (hopened : ino = 1 → h.opened = true) : ∃ n', h.opFileUpdateInc.Tracks ino n' := by
  obtain ⟨n', hop, hnode, hfile⟩ := replayOp_updateInc n (d := h.fnode.makeDelta) hino
    hlogged.allocated.symm
  obtain ⟨hlogged', hsame⟩ := Fnode.logged_delta hsized hlogged
  rw [← hnode] at hlogged' hsame
  refine ⟨n', replayed_append hn rfl rfl hop, hfile, hino, ?_, hsuper,
    ⟨hsame.spread, hsame.size, hsame.mtime⟩, ?_, hsized.allocated,
    fun _ _ => ⟨Fnode.resetDelta_sized hsized.allocated, hlogged'⟩, fun _ _ => rfl, hopened⟩
  · rw [hnode]
    exact (Fnode.claimExtents_spec _ _).2.2.1.trans hino'
  · have hspread : (node n' ino).spread = h.fnode.spread := hsame.spread
    rw [hlogged'.allocated, hspread]
    exact hsized.allocated

/-- A superblock keeps up with the log file when there is no delta of it. -/
theorem Tracks.writeSuper {h : FileHistory} (hlog : h.log = []) (hino : h.fnode.ino = 1)
    (hcount : h.fnode.allocated = h.fnode.spread.length) (hopened : h.opened = true)
    (hwhole : h.compacted = false → h.fnode.allocatedCommitted = h.fnode.allocated) :
    ∃ n', h.writeSuper.Tracks 1 n' := by
  obtain ⟨hall, hspread, hinos, hsize, hmtime⟩ := h.fnode.decoded_spec
  have hreplay : h.writeSuper.replayed = some (Nodes.mounted h.fnode.decoded) := by
    unfold replayed FileHistory.writeSuper
    rw [hlog]
    rfl
  obtain ⟨hnode, hfile⟩ := node_mounted h.fnode.decoded 1
  rw [if_pos rfl] at hnode
  refine ⟨_, hreplay, hfile, hino, ?_, hino, ?_, ?_, hcount, fun _ hcomp => ?_, fun _ => hwhole,
    fun _ => hopened⟩
  · rw [hnode, hinos, hino]
  · rw [hnode]
    exact ⟨hspread, hsize, hmtime⟩
  · rw [hnode, hall, hspread]
  · have hcomm := hwhole (hcomp rfl)
    refine ⟨⟨hcount, hcomm.le⟩, ?_, ?_⟩
    · rw [hnode, hall, ← hcount]
      exact hcomm.symm
    · have htake : h.fnode.spread.take h.fnode.allocatedCommitted = h.fnode.spread := by
        rw [hcomm, hcount, List.take_length]
      rw [hnode, hspread]
      exact htake.symm

/-- The node that `truncate` cuts has the right count. -/
theorem cutTo_count (n : Fnode) (offset : ℕ) :
    (n.cutTo offset).ino = n.ino ∧ (n.cutTo offset).allocated = (n.cutTo offset).spread.length := by
  obtain ⟨hspread, hall, hinos, -⟩ := Fnode.claimExtents_spec
    { n with extents := [], extentsIndex := [], allocated := 0 }
    (Fs.cutExtents offset 0 n.extents).1
  refine ⟨hinos, ?_⟩
  show (Fnode.claimExtents _ _).allocated = (Fnode.claimExtents _ _).spread.length
  rw [hspread, hall, List.length_append, length_spread]
  rfl

/-- A mount behind the superblock keeps the replay: no record is added, and none is lost. -/
theorem Tracks.mount {h : FileHistory} {n : Nodes} (ht : h.Tracks ino n)
    (hreached : h.reached = h.log.length) (pos : ℕ) :
    ∃ h', step ino h (.mount pos) = some h' ∧ ∃ n, h'.Tracks ino n := by
  have hread : h.readLog = h.log := by
    unfold readLog
    rw [hreached, List.take_length]
  have hfile : (n.file ino).fnode = node n ino := congrArg File.fnode ht.file.symm
  have hcount : (n.file ino).fnode.allocated = (n.file ino).fnode.spread.length := by
    rw [hfile]
    exact ht.count
  have hino : (n.file ino).fnode.ino = ino := (congrArg Fnode.ino hfile).trans ht.inReplay
  have hstep : step ino h (.mount pos) = some (if ino = 1 then
        { h with fnode := { (n.file ino).fnode with size := pos }.resetDelta, compacted := false }
      else { h with fnode := (n.file ino).fnode, opened := false }) := by
    have hmounted : h.mounted = some n := by
      unfold mounted
      rw [hread]
      exact ht.replay
    dsimp only [step]
    rw [hmounted, Option.map_some, hread]
  refine ⟨_, hstep, n, ?_⟩
  split_ifs with hone
  · -- The log file: `mount` resets its delta.
    have hall : (node n ino).allocated = (n.file ino).fnode.allocated := by rw [hfile]
    have hspread : (node n ino).spread = (n.file ino).fnode.spread := by rw [hfile]
    have hlogged : { (n.file ino).fnode with size := pos }.resetDelta.Logged (node n ino) :=
      Fnode.logged_resetDelta hcount hall hspread
    exact ⟨ht.replay, ht.file, hino, ht.inReplay, ht.inSuper, ht.same, ht.count, hcount,
      fun _ _ => ⟨⟨hcount, le_refl _⟩, hlogged⟩, fun _ _ => rfl, ht.logOpened⟩
  · exact ⟨ht.replay, ht.file, hino, ht.inReplay, ht.inSuper, ht.same, ht.count, hcount,
      fun hopen => absurd hopen Bool.false_ne_true, fun h1 => absurd h1 hone,
      fun h1 => absurd h1 hone⟩

/-- A compaction keeps up with every file. -/
theorem Tracks.compactLog {h : FileHistory} {n : Nodes} (ht : h.Tracks ino n) (es : List Extent) :
    ∃ h', step ino h (.compactLog es) = some h' ∧ ∃ n, h'.Tracks ino n := by
  unfold step
  dsimp only
  split_ifs with hone hmade
  · subst hone
    obtain ⟨hspread, hall, hinos, -⟩ := Fnode.claimExtents_spec h.fnode.clearExtents es
    refine ⟨_, rfl, Tracks.writeSuper rfl (hinos.trans ht.inMemory) ?_ (ht.logOpened rfl)
      fun hcomp => absurd hcomp.symm Bool.false_ne_true⟩
    show (Fnode.claimExtents _ _).allocated = (Fnode.claimExtents _ _).spread.length
    rw [hspread, hall, List.length_append, length_spread]
    rfl
  · exact ⟨h, rfl, n, ht⟩
  · exact ⟨_, rfl, Tracks.opFileUpdate (h := { h with log := [], reached := 0 }) hone rfl
      ht.inSuper ht.inMemory ht.count'⟩

/-- Every event keeps the replay up with the file. -/
theorem step_tracks (h : FileHistory) (e : Event) (hinv : ∃ n, h.Tracks ino n)
    (hw : LogApart ino h e) : ∃ h', step ino h e = some h' ∧ ∃ n, h'.Tracks ino n := by
  obtain ⟨n, ht⟩ := hinv
  -- Where nothing is done the state is the same.
  have hstays : ∃ h', some h = some h' ∧ ∃ n, h'.Tracks ino n := ⟨h, rfl, n, ht⟩
  -- One case for each event; the node in memory and the replayed one change together.
  cases e with
  | openForWrite overwrite now =>
    unfold step
    dsimp only
    split_ifs with hskip hover
    · exact hstays
    · exact ⟨_, rfl, Tracks.opFileUpdate (fun h1 => hskip (.inl h1)) ht.replay ht.inSuper
        ht.inMemory ht.count'⟩
    · exact ⟨_, rfl, Tracks.opFileUpdate (fun h1 => hskip (.inl h1)) ht.replay ht.inSuper
        ht.inMemory rfl⟩
  | flushRange es stop =>
    unfold step
    dsimp only
    split_ifs with hclosed hone
    · exact hstays
    · obtain ⟨hsized, hlogged⟩ | hcomp := (Classical.em (ino = 1 → h.compacted = false)).imp_left
        (ht.writer (by simpa using hclosed))
      · exact ⟨_, rfl, n, ht.replay, ht.file, ht.inMemory, ht.inReplay, ht.inSuper, ht.same,
          ht.count, ht.count', fun _ _ => ⟨⟨hsized.allocated, hsized.committed⟩,
            ⟨hlogged.allocated, hlogged.spread⟩⟩, ht.whole, ht.logOpened⟩
      · exact ⟨_, rfl, n, ht.replay, ht.file, ht.inMemory, ht.inReplay, ht.inSuper, ht.same,
          ht.count, ht.count', fun _ h1 => absurd h1 hcomp, ht.whole, ht.logOpened⟩
    · obtain ⟨hsized, hlogged⟩ := ht.writer (by simpa using hclosed) fun h1 => absurd h1 hone
      have hsized' := hsized.claimExtents es
      exact ⟨_, rfl, n, ht.replay, ht.file,
        (h.fnode.claimExtents_spec es).2.2.1.trans ht.inMemory, ht.inReplay, ht.inSuper, ht.same,
        ht.count, hsized'.allocated, fun _ _ => ⟨⟨hsized'.allocated, hsized'.committed⟩,
          hlogged.claimExtents hsized es _⟩, fun h1 => absurd h1 hone, ht.logOpened⟩
  | preallocate es =>
    unfold step
    dsimp only
    split_ifs with hclosed
    · exact hstays
    · obtain ⟨hsized, hlogged⟩ := ht.writer (by simpa using hclosed) hw
      exact ⟨_, rfl, Tracks.opFileUpdateInc ht.replay ht.inSuper
        ((h.fnode.claimExtents_spec es).2.2.1.trans ht.inMemory) ht.inReplay
        (hsized.claimExtents es) (hlogged.claimExtents hsized es _) ht.logOpened⟩
  | consumeDirty =>
    unfold step
    dsimp only
    split_ifs with hskip
    · exact hstays
    · obtain ⟨hone, hopen⟩ := not_or.mp hskip
      obtain ⟨hsized, hlogged⟩ := ht.writer (by simpa using hopen) fun h1 => absurd h1 hone
      exact ⟨_, rfl, Tracks.opFileUpdateInc ht.replay ht.inSuper ht.inMemory ht.inReplay hsized
        hlogged ht.logOpened⟩
  | truncate offset =>
    unfold step
    dsimp only
    split_ifs with hskip
    · exact hstays
    · have hone : ino ≠ 1 := by
        have hino := ht.inMemory
        omega
      obtain ⟨hinos, hcount⟩ := cutTo_count h.fnode offset
      exact ⟨_, rfl, Tracks.opFileUpdate hone ht.replay ht.inSuper (hinos.trans ht.inMemory) hcount⟩
  | compactLog es => exact ht.compactLog es
  | writeSuper =>
    unfold step
    dsimp only
    split_ifs with hone
    · subst hone
      exact ⟨_, rfl, Tracks.writeSuper (hw rfl) ht.inMemory ht.count' (ht.logOpened rfl)
        (ht.whole rfl)⟩
    · -- The records are read at the next mount.
      exact ⟨_, rfl, n, ht.replay, ht.file, ht.inMemory, ht.inReplay, ht.inSuper, ht.same, ht.count,
        ht.count', ht.writer, ht.whole, ht.logOpened⟩
  | mount pos => exact ht.mount hw pos

/-- The first mount has the log file as `mkfs` wrote it, and no other file. -/
theorem start_tracks (ino : ℕ) (es : List Extent) (size : ℕ) :
    (start ino es size).Tracks ino (Nodes.mounted (mkfsLog es size).decoded) := by
  obtain ⟨hall, hspread, hinos, hsize, hmtime⟩ := (mkfsLog es size).decoded_spec
  have hino : (mkfsLog es size).ino = 1 := (Fnode.claimExtents_spec _ es).2.2.1
  obtain ⟨hnode, hfile⟩ := node_mounted (mkfsLog es size).decoded ino
  have hcount : (mkfsLog es size).decoded.allocated = (mkfsLog es size).decoded.spread.length := by
    rw [hspread, hall]
  rcases eq_or_ne ino 1 with rfl | hone
  · rw [if_pos rfl] at hnode
    refine ⟨rfl, hfile, hinos.trans hino, ?_, hino, ?_, ?_, hcount, fun _ _ => ⟨?_, ?_⟩,
      fun _ _ => rfl, fun _ => rfl⟩
    · rw [hnode, hinos, hino]
    · rw [hnode]
      exact ⟨hspread, hsize, hmtime⟩
    · rw [hnode]
      exact hcount
    · exact ⟨hcount, le_refl _⟩
    · rw [hnode]
      exact Fnode.logged_resetDelta hcount rfl rfl
  · rw [if_neg hone] at hnode
    have hnew : (start ino es size).fnode = Fnode.new ino 0 0 := if_neg hone
    have hlast : (start ino es size).last = Fnode.new ino 0 0 := if_neg hone
    refine ⟨rfl, hfile, congrArg Fnode.ino hnew, ?_, hino, ?_, ?_, ?_,
      fun hopen => absurd (of_decide_eq_true hopen) hone, fun h1 => absurd h1 hone,
      fun h1 => absurd h1 hone⟩
    · rw [hnode]
      rfl
    · rw [hnode, hlast]
      exact ⟨rfl, rfl, rfl⟩
    · rw [hnode]
      rfl
    · rw [hnew]
      rfl

/-- In every history of a file all deltas are replayed, and the replay ends with what the file
mapped, and the size that it had, when it was logged last; the log is not extended before the
superblock is written, nor after a compaction, and no mount comes between a record and the
superblock. -/
theorem updates_replay (ino : ℕ) (es : List Extent) (size : ℕ) (events : List Event)
    (hw : Meets (step ino) (LogApart ino) (start ino es size) events) :
    ∃ h n, exec (step ino) (start ino es size) events = some h ∧ h.replayed = some n ∧
      (n.file ino).fnode.spread = h.last.spread ∧ (n.file ino).fnode.size = h.last.size := by
  obtain ⟨h, hrun, n, ht⟩ := exec_total (@step_tracks ino) events _
    ⟨_, start_tracks ino es size⟩ hw
  have hfile : (n.file ino).fnode = node n ino := congrArg File.fnode ht.file.symm
  exact ⟨h, n, hrun, ht.replay, hfile ▸ ht.same.spread, hfile ▸ ht.same.size⟩

/-- A file that grows in the middle of an extent, is cut, dumped and opened again. -/
def grownAndCut : List Event :=
  [.openForWrite false 5, .flushRange [⟨1, 0x1000, 0x1000⟩] 10, .consumeDirty,
    .flushRange [⟨1, 0x2000, 0x1000⟩] 0x1800, .consumeDirty, .truncate 4, .compactLog [],
    .writeSuper, .mount 0, .openForWrite true 6, .preallocate [⟨0, 0, 0x1000⟩], .writeSuper,
    .mount 0]

/-- A file that grows, is cut and is mounted again. -/
theorem updates_replay_grownAndCut : ∃ h n,
    exec (step 2) (start 2 [⟨1, 0x10000, 0x10000⟩] 0x1000) grownAndCut = some h ∧
      h.replayed = some n ∧ (n.file 2).fnode.spread = h.last.spread ∧
      (n.file 2).fnode.size = h.last.size :=
  updates_replay 2 _ _ grownAndCut (by decide)

/-- The log file is extended, and the superblock is written with the extent that the delta has: the
next mount fails. A file that is made and grown in a mount without `sync_metadata` or `umount` is
empty in the next one. -/
theorem extended_then_super :
    (∃ h, exec (step 1) (start 1 [⟨1, 0x10000, 0x10000⟩] 0x1000)
      [.preallocate [⟨1, 0x40000, 0x10000⟩], .writeSuper] = some h ∧ h.replayed = none ∧
      step 1 h (.mount 0x2000) = none) ∧
    ∃ h h', exec (step 2) (start 2 [⟨1, 0x10000, 0x10000⟩] 0x1000)
      [.openForWrite false 5, .flushRange [⟨1, 0x40000, 0x1000⟩] 10, .consumeDirty] = some h ∧
      h.last.size = 10 ∧ step 2 h (.mount 0x1000) = some h' ∧ h'.fnode.size = 0 ∧ h'.log = [] :=
  ⟨⟨_, rfl, rfl, rfl⟩, _, _, rfl, rfl, rfl, rfl, rfl⟩

end FileHistory

end CxxLab.Bluefs
