import CxxLab.Bluefs.Types
import Mathlib.Data.List.AList

/-!
# Directories and files

The operations of `bluefs/bluefs.cc` on names, and what `_replay` makes of their records. A file is
known by its inode number: no number is given out twice. Every operation takes the locks that it
needs, so operations come one after the other.

An operation returns its code, or `none` where an assertion fails. The volume selector is left out.
-/

namespace CxxLab.Bluefs

open Common

/-- `BlueFS::File`. -/
structure File where
  fnode : Fnode
  /-- `refs`: the number of names. -/
  refs : ℕ
  locked : Bool
  deleted : Bool
  /-- `is_dirty`: the node has changed since it was signalled. -/
  isDirty : Bool
  /-- `dirty_seq`. -/
  dirtySeq : ℕ
  deriving DecidableEq

/-- `File(ino)`. -/
def File.new (ino mtime : ℕ) : File := ⟨Fnode.new ino 0 mtime, 0, false, false, false, 0⟩

/-- `BlueFS::Dir`: the files by their names. -/
abbrev Dir := AList fun _ : Str => ℕ

/-- `nodes_`, with the files that are in use, and `ino_last_`. -/
structure Nodes where
  /-- `dir_map`. -/
  dirMap : AList fun _ : Str => Dir
  /-- The keys of `file_map`. -/
  fileMap : List ℕ
  /-- The files. -/
  file : ℕ → File
  /-- `ino_last_`. -/
  inoLast : ℕ

namespace Nodes

/-- The file of a name. -/
def lookup (n : Nodes) (dir file : Str) : Option ℕ :=
  (n.dirMap.lookup dir).bind fun d => d.lookup file

/-- A file changes. -/
def setFile (n : Nodes) (ino : ℕ) (f : File) : Nodes :=
  { n with file := Function.update n.file ino f }

/-- A directory has a file under a name. -/
def link (n : Nodes) (dir : Str) (d : Dir) (file : Str) (ino : ℕ) : Nodes :=
  { n with dirMap := n.dirMap.insert dir (d.insert file ino) }

/-- A name is removed from a directory. -/
def unlink (n : Nodes) (dir : Str) (d : Dir) (file : Str) : Nodes :=
  { n with dirMap := n.dirMap.insert dir (d.erase file) }

/-- `file_map[ino] = file`. -/
def addFile (n : Nodes) (ino : ℕ) (f : File) : Nodes :=
  { n.setFile ino f with fileMap := if ino ∈ n.fileMap then n.fileMap else n.fileMap ++ [ino] }

/-- `_get_file`: the file is made if it is not there. -/
def getFile (n : Nodes) (ino : ℕ) : Nodes :=
  if ino ∈ n.fileMap then n else n.addFile ino (File.new ino 0)

/-! ## Replay -/

/-- What `_replay` does to the nodes with a record; `none` where an assertion fails. -/
def replayOp (n : Nodes) : LogOp → Option Nodes
  | .init => some n
  | .dirCreate dir => some { n with dirMap := n.dirMap.insert dir ∅ }
  | .dirRemove dir => some { n with dirMap := n.dirMap.erase dir }
  | .dirLink dir name ino =>
    let n := n.getFile ino
    let n := match n.dirMap.lookup dir with
      | some d => n.link dir d name ino
      | none => n
    let n := n.setFile ino { n.file ino with refs := (n.file ino).refs + 1 }
    some { n with inoLast := max n.inoLast ino }
  | .dirUnlink dir name =>
    match n.dirMap.lookup dir with
    | none => some n
    | some d =>
      match d.lookup name with
      | none => some n
      | some ino =>
        if 0 < (n.file ino).refs then
          some ((n.setFile ino { n.file ino with refs := (n.file ino).refs - 1 }).unlink dir d name)
        else none
  | .fileUpdate fnode =>
    let n := n.getFile fnode.ino
    let n := n.setFile fnode.ino { n.file fnode.ino with fnode := fnode.decoded }
    some { n with inoLast := max n.inoLast fnode.ino }
  | .fileUpdateInc delta =>
    let n := n.getFile delta.ino
    let f := n.file delta.ino
    if delta.offset = f.fnode.allocated then
      let fnode := { f.fnode with mtime := delta.mtime, size := delta.size }
      let fnode := fnode.claimExtents delta.extents
      let n := n.setFile delta.ino { f with fnode := fnode }
      some { n with inoLast := max n.inoLast delta.ino }
    else none
  | .fileRemove ino => some { n with fileMap := n.fileMap.erase ino }
  | .jump _ _ => some n
  | .jumpSeq _ => some n

/-- What `_replay` does with the records of the log. -/
def replayOps (n : Nodes) (ops : List LogOp) : Option Nodes := ops.foldlM replayOp n

/-- The end of `_replay`: files without a name go. -/
def removeOrphans (n : Nodes) : Nodes :=
  { n with fileMap := n.fileMap.filter fun ino => ino ≤ 1 ∨ 0 < (n.file ino).refs }

/-- What a mount starts from: the log file, with the node from the superblock. -/
def mounted (logFnode : Fnode) : Nodes where
  dirMap := ∅
  fileMap := [1]
  file ino := if ino = 1 then { File.new 1 0 with fnode := logFnode } else File.new ino 0
  inoLast := 1

end Nodes

/-! ## Operations -/

/-- `dirty_`. -/
structure Dirty where
  /-- `seq_stable`. -/
  seqStable : ℕ
  /-- `seq_live`. -/
  seqLive : ℕ
  /-- `files`: none for a number that has no entry. -/
  files : ℕ → List ℕ
  /-- `pending_release`, of all devices. -/
  pendingRelease : List Extent

/-- The metadata in memory. -/
structure Fs where
  nodes : Nodes
  dirty : Dirty
  /-- The records in `log_.t`. -/
  t : List LogOp

namespace Fs

/-- Records are queued. -/
def queue (fs : Fs) (ops : List LogOp) : Fs := { fs with t := fs.t ++ ops }

/-- Extents are to be released. -/
def release (fs : Fs) (es : List Extent) : Fs :=
  { fs with dirty := { fs.dirty with pendingRelease := fs.dirty.pendingRelease ++ es } }

/-- `op_file_update` on the node of a file, which is then the logged one. -/
def opFileUpdate (fs : Fs) (ino : ℕ) : Fs :=
  let f := fs.nodes.file ino
  { fs.queue [.fileUpdate f.fnode] with
    nodes := fs.nodes.setFile ino { f with fnode := f.fnode.resetDelta } }

/-- `op_file_update_inc` on the node of a file, which is then the logged one. -/
def opFileUpdateInc (fs : Fs) (ino : ℕ) : Fs :=
  let f := fs.nodes.file ino
  { fs.queue [.fileUpdateInc f.fnode.makeDelta] with
    nodes := fs.nodes.setFile ino { f with fnode := f.fnode.resetDelta } }

/-- `mkdir`. -/
def mkdir (fs : Fs) (dir : Str) : ℤ × Fs :=
  match fs.nodes.dirMap.lookup dir with
  | some _ => (-17, fs)
  | none => (0, { fs.queue [.dirCreate dir] with
      nodes := { fs.nodes with dirMap := fs.nodes.dirMap.insert dir ∅ } })

/-- `rmdir`. -/
def rmdir (fs : Fs) (dir : Str) : ℤ × Fs :=
  match fs.nodes.dirMap.lookup dir with
  | none => (-2, fs)
  | some d =>
    if d.entries ≠ [] then (-39, fs)
    else (0, { fs.queue [.dirRemove dir] with
      nodes := { fs.nodes with dirMap := fs.nodes.dirMap.erase dir } })

/-- `_drop_link`. -/
def dropLink (fs : Fs) (ino : ℕ) : Option Fs :=
  let f := fs.nodes.file ino
  if f.refs = 0 then none
  else if f.refs - 1 = 0 then
    let fs := (fs.queue [.fileRemove f.fnode.ino]).release f.fnode.extents
    let n := { fs.nodes with fileMap := fs.nodes.fileMap.erase f.fnode.ino }
    let f := { f with refs := 0, deleted := true }
    if fs.dirty.seqStable < f.dirtySeq then
      -- A deleted file is not logged any more.
      let others := (fs.dirty.files f.dirtySeq).filter (· ≠ ino)
      some { fs with
        nodes := n.setFile ino { f with dirtySeq := fs.dirty.seqStable }
        dirty := { fs.dirty with files := Function.update fs.dirty.files f.dirtySeq others } }
    else some { fs with nodes := n.setFile ino f }
  else some { fs with nodes := fs.nodes.setFile ino { f with refs := f.refs - 1 } }

/-- `unlink`. -/
def unlink (fs : Fs) (dir name : Str) : Option (ℤ × Fs) :=
  match fs.nodes.dirMap.lookup dir with
  | none => some (-2, fs)
  | some d =>
    match d.lookup name with
    | none => some (-2, fs)
    | some ino =>
      let fs := { fs.queue [.dirUnlink dir name] with nodes := fs.nodes.unlink dir d name }
      (fs.dropLink ino).map fun fs => (0, fs)

/-- `open_for_write`, at the time `now`. -/
def openForWrite (fs : Fs) (dir name : Str) (overwrite : Bool) (now : ℕ) : ℤ × Fs :=
  match fs.nodes.dirMap.lookup dir with
  | none => (-2, fs)
  | some d =>
    match d.lookup name with
    | none =>
      if overwrite then (-2, fs)
      else
        let ino := fs.nodes.inoLast + 1
        let n := { fs.nodes with inoLast := ino }
        let n := (n.addFile ino { File.new ino now with refs := 1 }).link dir d name ino
        (0, (opFileUpdate { fs with nodes := n } ino).queue [.dirLink dir name ino])
    | some ino =>
      let f := fs.nodes.file ino
      let fnode := if overwrite then f.fnode else { f.fnode with size := 0 }.clearExtents
      let n := fs.nodes.setFile ino { f with fnode := { fnode with mtime := now } }
      let fs := opFileUpdate { fs with nodes := n } ino
      (0, if overwrite then fs else fs.release f.fnode.extents)

/-- `rename`. -/
def rename (fs : Fs) (oldDir oldName newDir newName : Str) : ℤ × Fs :=
  match fs.nodes.dirMap.lookup oldDir with
  | none => (-2, fs)
  | some od =>
    match od.lookup oldName with
    | none => (-2, fs)
    | some ino =>
      match fs.nodes.dirMap.lookup newDir with
      | none => (-2, fs)
      | some nd =>
        let fs := match nd.lookup newName with
          | some target => if target ≠ ino then fs.queue [.dirUnlink newDir newName] else fs
          | none => fs
        let n := fs.nodes.link newDir nd newName ino
        -- The directory that the name leaves may be the one that it enters.
        let n := match n.dirMap.lookup oldDir with
          | some od => n.unlink oldDir od oldName
          | none => n
        (0, { fs with nodes := n }.queue
          [.dirLink newDir newName (fs.nodes.file ino).fnode.ino, .dirUnlink oldDir oldName])

/-- `lock_file`. -/
def lockFile (fs : Fs) (dir name : Str) : ℤ × Fs :=
  match fs.nodes.dirMap.lookup dir with
  | none => (-2, fs)
  | some d =>
    match d.lookup name with
    | none =>
      let ino := fs.nodes.inoLast + 1
      let n := { fs.nodes with inoLast := ino }
      let f := { File.new ino 0 with refs := 1, locked := true }
      (0, { fs with nodes := (n.addFile ino f).link dir d name ino })
    | some ino =>
      let f := fs.nodes.file ino
      if f.locked then (-37, fs)
      else (0, { fs with nodes := fs.nodes.setFile ino { f with locked := true } })

end Fs

end CxxLab.Bluefs
