import CxxLab.Bluefs.Nodes
import CxxLab.Lib.Runs
import Mathlib

/-!
# The namespace

What the operations on names are for, as a map from directories to maps from names to files, and
where the code keeps to it. Three paths do not. `rename` onto a name that is taken puts the file
there and leaves the old one without a name and with its count; `rename` of a file onto itself
enters the name and then erases it; `lock_file` makes a file and logs nothing.
-/

namespace CxxLab.Bluefs

open Common

/-! ## Names -/

/-- The files by their directories and names. -/
abbrev Names := Str → Option (Str → Option ℕ)

namespace Names

/-- A name of a directory is given to a file, or to none. -/
def set (N : Names) (dir name : Str) (v : Option ℕ) : Names :=
  Function.update N dir ((N dir).map fun g => Function.update g name v)

/-- The file of a name. -/
def get (N : Names) (dir name : Str) : Option ℕ := (N dir).bind fun g => g name

/-- The names of a file. -/
def entries (N : Names) (ino : ℕ) : Set (Str × Str) := {p | N.get p.1 p.2 = some ino}

/-- A name that is set has its file, and the others keep theirs. -/
theorem get_set (N : Names) {dir : Str} (h : N dir ≠ none) (name : Str) (v : Option ℕ)
    (p : Str × Str) :
    (N.set dir name v).get p.1 p.2 = if p = (dir, name) then v else N.get p.1 p.2 := by
  obtain ⟨g, hg⟩ := Option.ne_none_iff_exists'.mp h
  obtain ⟨d, f⟩ := p
  unfold get set
  by_cases hd : d = dir
  · subst hd
    by_cases hf : f = name
    · simp [hg, hf]
    · simp [hg, hf]
  · simp [hd]

/-- A name that is taken away. -/
theorem entries_set_none (N : Names) {dir : Str} (h : N dir ≠ none) (name : Str) (ino : ℕ) :
    (N.set dir name none).entries ino = N.entries ino \ {(dir, name)} := by
  ext p
  simp only [entries, Set.mem_ofPred_eq, Set.mem_sdiff, Set.mem_singleton_iff]
  rw [get_set N h]
  split_ifs with hp <;> simp [hp]

/-- A name that is given. -/
theorem entries_set_some (N : Names) {dir : Str} (h : N dir ≠ none) (name : Str) (i ino : ℕ) :
    (N.set dir name (some i)).entries ino =
      if ino = i then insert (dir, name) (N.entries ino) else N.entries ino \ {(dir, name)} := by
  ext p
  split_ifs with hi
  · simp only [entries, Set.mem_ofPred_eq, Set.mem_insert_iff]
    rw [get_set N h]
    split_ifs with hp <;> simp [hp, hi]
  · simp only [entries, Set.mem_ofPred_eq, Set.mem_sdiff, Set.mem_singleton_iff]
    rw [get_set N h]
    split_ifs with hp
    · simp [hp, Ne.symm hi]
    · simp [hp]

end Names

/-! ## What a log and the memory say of the names -/

/-- What there is of names: the names, how many each file has, and the files of `file_map`. -/
@[ext]
structure View where
  /-- The names. -/
  names : Names
  /-- `refs`. -/
  refs : ℕ → ℕ
  /-- `file_map`. -/
  live : Set ℕ

namespace Nodes

/-- The names of nodes. -/
def names (n : Nodes) : Names := fun dir => (n.dirMap.lookup dir).map fun d name => d.lookup name

/-- The view of nodes. -/
def view (n : Nodes) : View := ⟨n.names, fun ino => (n.file ino).refs, {ino | ino ∈ n.fileMap}⟩

/-- A directory that is there has the names of its files. -/
theorem names_eq_some {n : Nodes} {dir : Str} {d : Dir} (h : n.dirMap.lookup dir = some d) :
    n.names dir = some fun name => d.lookup name := by
  simp [names, h]

/-- A directory has no names exactly when it is not there. -/
theorem names_eq_none {n : Nodes} {dir : Str} :
    n.names dir = none ↔ n.dirMap.lookup dir = none := by
  simp [names]

/-- A link sets a name. -/
theorem names_link {n : Nodes} {dir : Str} {d : Dir} (h : n.dirMap.lookup dir = some d) (name : Str)
    (ino : ℕ) : (n.link dir d name ino).names = n.names.set dir name (some ino) := by
  funext dir'
  unfold Names.set
  rw [names_eq_some h]
  by_cases hd : dir' = dir
  · subst hd
    simp only [names, link, AList.lookup_insert, Option.map_some, Function.update_self,
      Option.some.injEq]
    funext name'
    by_cases hn : name' = name
    · subst hn
      simp
    · rw [AList.lookup_insert_ne hn, Function.update_of_ne hn]
  · rw [Function.update_of_ne hd]
    simp only [names, link]
    rw [AList.lookup_insert_ne hd]

/-- An unlink takes a name away. -/
theorem names_unlink {n : Nodes} {dir : Str} {d : Dir} (h : n.dirMap.lookup dir = some d)
    (name : Str) : (n.unlink dir d name).names = n.names.set dir name none := by
  funext dir'
  unfold Names.set
  rw [names_eq_some h]
  by_cases hd : dir' = dir
  · subst hd
    simp only [names, unlink, AList.lookup_insert, Option.map_some, Function.update_self,
      Option.some.injEq]
    funext name'
    by_cases hn : name' = name
    · subst hn
      simp
    · rw [AList.lookup_erase_ne hn, Function.update_of_ne hn]
  · rw [Function.update_of_ne hd]
    simp only [names, unlink]
    rw [AList.lookup_insert_ne hd]

/-- A directory that is made, or emptied. -/
theorem names_insert_empty (n : Nodes) (dir : Str) :
    names { n with dirMap := n.dirMap.insert dir ∅ } =
      Function.update n.names dir (some fun _ => none) := by
  funext dir'
  by_cases hd : dir' = dir
  · subst hd
    simp [names]
  · rw [Function.update_of_ne hd]
    simp only [names]
    rw [AList.lookup_insert_ne hd]

/-- A directory that is removed. -/
theorem names_erase (n : Nodes) (dir : Str) :
    names { n with dirMap := n.dirMap.erase dir } = Function.update n.names dir none := by
  funext dir'
  by_cases hd : dir' = dir
  · subst hd
    simp [names]
  · rw [Function.update_of_ne hd]
    simp only [names]
    rw [AList.lookup_erase_ne hd]

/-- A change of a file leaves the names. -/
@[simp] theorem names_setFile (n : Nodes) (ino : ℕ) (f : File) :
    (n.setFile ino f).names = n.names := rfl

/-- A new file leaves the names. -/
@[simp] theorem names_addFile (n : Nodes) (ino : ℕ) (f : File) :
    (n.addFile ino f).names = n.names := rfl

/-- The file that is set is changed, and the others are as before. -/
@[simp] theorem file_setFile (n : Nodes) (ino i : ℕ) (f : File) :
    (n.setFile ino f).file i = if i = ino then f else n.file i := by
  simp [setFile, Function.update_apply]

/-- The file that is added is there, and the others are as before. -/
@[simp] theorem file_addFile (n : Nodes) (ino i : ℕ) (f : File) :
    (n.addFile ino f).file i = if i = ino then f else n.file i := by
  simp [addFile, setFile, Function.update_apply]

/-- A new file is one more in the map. -/
theorem mem_fileMap_addFile (n : Nodes) (ino i : ℕ) (f : File) :
    i ∈ (n.addFile ino f).fileMap ↔ i = ino ∨ i ∈ n.fileMap := by
  unfold addFile
  dsimp only
  split_ifs with h
  · constructor
    · exact .inr
    · rintro (rfl | h')
      · exact h
      · exact h'
  · simp [or_comm]

/-- No file is in the map twice. -/
theorem nodup_addFile {n : Nodes} (h : n.fileMap.Nodup) (ino : ℕ) (f : File) :
    (n.addFile ino f).fileMap.Nodup := by
  unfold addFile
  dsimp only
  split_ifs with hmem
  · exact h
  · exact List.nodup_append.mpr ⟨h, by simp, by
      rintro x hx y hy rfl
      rw [List.mem_singleton] at hy
      exact hmem (hy ▸ hx)⟩

/-- Files that are not in `file_map` have no name. -/
def Counted (n : Nodes) : Prop := n.fileMap.Nodup ∧ ∀ ino, ino ∉ n.fileMap → (n.file ino).refs = 0

/-- The view of a file that is got. -/
theorem view_getFile {n : Nodes} (h : n.Counted) (ino : ℕ) :
    (n.getFile ino).view = { n.view with live := insert ino n.view.live } ∧
      (n.getFile ino).fileMap.Nodup ∧ ino ∈ (n.getFile ino).fileMap ∧
      (n.getFile ino).dirMap = n.dirMap := by
  unfold getFile
  split_ifs with hmem
  · refine ⟨?_, h.1, hmem, rfl⟩
    rw [Set.insert_eq_of_mem (show ino ∈ n.view.live from hmem)]
  · refine ⟨View.ext rfl (funext fun i => ?_) (Set.ext fun i => ?_), nodup_addFile h.1 _ _,
      (mem_fileMap_addFile _ _ _ _).mpr (.inl rfl), rfl⟩
    · change ((n.addFile ino (File.new ino 0)).file i).refs = (n.file i).refs
      rw [file_addFile]
      split_ifs with hi
      · rw [hi, h.2 ino hmem]
        rfl
      · rfl
    · exact mem_fileMap_addFile _ _ _ _

/-- A directory is made by its record. -/
theorem replay_dirCreate {n : Nodes} (h : n.Counted) (dir : Str) :
    ∃ n', n.replayOp (.dirCreate dir) = some n' ∧ n'.Counted ∧
      n'.view = { n.view with names := Function.update n.names dir (some fun _ => none) } :=
  ⟨_, rfl, h, View.ext (names_insert_empty n dir) rfl rfl⟩

/-- A directory is removed by its record. -/
theorem replay_dirRemove {n : Nodes} (h : n.Counted) (dir : Str) :
    ∃ n', n.replayOp (.dirRemove dir) = some n' ∧ n'.Counted ∧
      n'.view = { n.view with names := Function.update n.names dir none } :=
  ⟨_, rfl, h, View.ext (names_erase n dir) rfl rfl⟩

/-- A link gives a name, and counts it. -/
theorem replay_dirLink {n : Nodes} (h : n.Counted) {dir : Str} (hdir : n.names dir ≠ none)
    (name : Str) (ino : ℕ) : ∃ n', n.replayOp (.dirLink dir name ino) = some n' ∧ n'.Counted ∧
      n'.view = ⟨n.names.set dir name (some ino),
        Function.update n.view.refs ino (n.view.refs ino + 1), insert ino n.view.live⟩ := by
  obtain ⟨hview, hnodup, hmem, hmap⟩ := view_getFile h ino
  obtain ⟨d, hd⟩ := Option.ne_none_iff_exists'.mp (mt names_eq_none.mpr hdir)
  have hd' : (n.getFile ino).dirMap.lookup dir = some d := by rw [hmap, hd]
  have hrefs : ∀ i, ((n.getFile ino).file i).refs = n.view.refs i :=
    congrFun (congrArg View.refs hview)
  have hnames : (n.getFile ino).names = n.names := congrArg View.names hview
  have hlive : {i | i ∈ (n.getFile ino).fileMap} = insert ino n.view.live :=
    congrArg View.live hview
  simp only [replayOp, hd']
  refine ⟨_, rfl, ⟨hnodup, fun i hi => ?_⟩, View.ext ?_ (funext fun i => ?_) hlive⟩
  · have hne : i ≠ ino := fun e => hi (e ▸ hmem)
    have hi' : i ∉ n.fileMap := fun hm => hi (by
      have : i ∈ insert ino n.view.live := .inr hm
      rwa [← hlive] at this)
    rw [file_setFile, if_neg hne]
    exact (hrefs i).trans (h.2 i hi')
  · rw [← hnames, ← names_link hd']
    rfl
  · change (Nodes.file (setFile _ ino _) i).refs = Function.update n.view.refs ino _ i
    rw [file_setFile, Function.update_apply]
    split_ifs with hi
    · exact congrArg (· + 1) (hrefs ino)
    · exact hrefs i

/-- An unlink takes the name away, and counts it. -/
theorem replay_dirUnlink {n : Nodes} (h : n.Counted) {dir name : Str} {ino : ℕ}
    (hget : n.names.get dir name = some ino) (hrefs : 0 < n.view.refs ino) :
    ∃ n', n.replayOp (.dirUnlink dir name) = some n' ∧ n'.Counted ∧
      n'.view = ⟨n.names.set dir name none,
        Function.update n.view.refs ino (n.view.refs ino - 1), n.view.live⟩ := by
  have hdir : n.dirMap.lookup dir ≠ none := by
    intro hnone
    rw [Names.get, names_eq_none.mpr hnone] at hget
    cases hget
  obtain ⟨d, hd⟩ := Option.ne_none_iff_exists'.mp hdir
  have hname : d.lookup name = some ino := by
    rw [Names.get, names_eq_some hd] at hget
    exact hget
  have hrefs' : 0 < (n.file ino).refs := hrefs
  simp only [replayOp, hd, hname, if_pos hrefs']
  refine ⟨_, rfl, ⟨h.1, fun i hi => ?_⟩, View.ext ?_ (funext fun i => ?_) rfl⟩
  · have hne : i ≠ ino := by
      rintro rfl
      exact hrefs'.ne' (h.2 i hi)
    change (Nodes.file (setFile n ino _) i).refs = 0
    rw [file_setFile, if_neg hne]
    exact h.2 i hi
  · rw [← names_setFile n ino { n.file ino with refs := (n.file ino).refs - 1 }]
    exact names_unlink
      (n := n.setFile ino { n.file ino with refs := (n.file ino).refs - 1 }) hd name
  · change (Nodes.file (setFile n ino _) i).refs = Function.update n.view.refs ino _ i
    rw [file_setFile, Function.update_apply]
    split_ifs with hi
    · rfl
    · rfl

/-- An update makes the file, if need be. -/
theorem replay_fileUpdate {n : Nodes} (h : n.Counted) (fnode : Fnode) :
    ∃ n', n.replayOp (.fileUpdate fnode) = some n' ∧ n'.Counted ∧
      n'.view = { n.view with live := insert fnode.ino n.view.live } := by
  obtain ⟨hview, hnodup, hmem, hmap⟩ := view_getFile h fnode.ino
  have hrefs : ∀ i, ((n.getFile fnode.ino).file i).refs = n.view.refs i :=
    congrFun (congrArg View.refs hview)
  have hlive : {i | i ∈ (n.getFile fnode.ino).fileMap} = insert fnode.ino n.view.live :=
    congrArg View.live hview
  have hsame : ∀ i f, (((n.getFile fnode.ino).setFile fnode.ino
      { (n.getFile fnode.ino).file fnode.ino with fnode := f }).file i).refs = n.view.refs i := by
    intro i f
    rw [file_setFile]
    split_ifs with hi
    · exact hi ▸ hrefs fnode.ino
    · exact hrefs i
  refine ⟨_, rfl, ⟨hnodup, fun i hi => ?_⟩,
    View.ext (congrArg View.names hview :) (funext fun i => hsame i _) hlive⟩
  have hi' : i ∉ n.fileMap := fun hm => hi (by
    have : i ∈ insert fnode.ino n.view.live := .inr hm
    rwa [← hlive] at this)
  exact (hsame i _).trans (h.2 i hi')

/-- A removal takes the file out of `file_map`. -/
theorem replay_fileRemove {n : Nodes} (h : n.Counted) {ino : ℕ} (hrefs : n.view.refs ino = 0) :
    ∃ n', n.replayOp (.fileRemove ino) = some n' ∧ n'.Counted ∧
      n'.view = { n.view with live := n.view.live \ {ino} } := by
  have hmem : ∀ i, i ∈ n.fileMap.erase ino ↔ i ≠ ino ∧ i ∈ n.fileMap := fun i => h.1.mem_erase_iff
  refine ⟨_, rfl, ⟨h.1.erase ino, fun i hi => ?_⟩, View.ext rfl rfl (Set.ext fun i => ?_)⟩
  · by_cases hi' : i = ino
    · rw [hi']
      exact hrefs
    · exact h.2 i fun hm => hi ((hmem i).mpr ⟨hi', hm⟩)
  · change i ∈ n.fileMap.erase ino ↔ i ∈ n.fileMap ∧ ¬ i = ino
    rw [hmem, and_comm]

end Nodes

/-! ## Runs -/

/-- The operations on names. -/
inductive NameAction where
  /-- `mkdir`. -/
  | mkdir (dir : Str)
  /-- `rmdir`. -/
  | rmdir (dir : Str)
  /-- `open_for_write`, at the time `now`. -/
  | openForWrite (dir name : Str) (overwrite : Bool) (now : ℕ)
  /-- `unlink`. -/
  | unlink (dir name : Str)
  /-- `rename`. -/
  | rename (oldDir oldName newDir newName : Str)
  /-- `lock_file`. -/
  | lockFile (dir name : Str)
  deriving DecidableEq

/-- One operation; `none` where an assertion fails. -/
def Fs.nameStep (fs : Fs) : NameAction → Option Fs
  | .mkdir dir => some (fs.mkdir dir).2
  | .rmdir dir => some (fs.rmdir dir).2
  | .openForWrite dir name overwrite now => some (fs.openForWrite dir name overwrite now).2
  | .unlink dir name => (fs.unlink dir name).map Prod.snd
  | .rename oldDir oldName newDir newName => some (fs.rename oldDir oldName newDir newName).2
  | .lockFile dir name => some (fs.lockFile dir name).2

/-- A file system that was just made and mounted; the log has the node `logFnode`. -/
def Fs.start (logFnode : Fnode) : Fs where
  nodes := Nodes.mounted logFnode
  dirty := ⟨1, 2, fun _ => [], []⟩
  t := []

/-- What there should be: the names, and the last inode number. -/
structure Namespace where
  /-- The names. -/
  names : Names
  /-- The last inode number. -/
  inoLast : ℕ

namespace Namespace

/-- A name is given to a new file. -/
def create (N : Namespace) (dir name : Str) : Namespace :=
  ⟨N.names.set dir name (some (N.inoLast + 1)), N.inoLast + 1⟩

open Classical in
/-- A directory is made, if there is none of its name. -/
noncomputable def mkdir (N : Namespace) (dir : Str) : Namespace :=
  if N.names dir = none then { N with names := Function.update N.names dir (some fun _ => none) }
  else N

open Classical in
/-- An empty directory is removed. -/
noncomputable def rmdir (N : Namespace) (dir : Str) : Namespace :=
  if N.names dir = some fun _ => none then { N with names := Function.update N.names dir none }
  else N

open Classical in
/-- A file is made, if there is none of its name. -/
noncomputable def ensure (N : Namespace) (dir name : Str) : Namespace :=
  if N.names dir ≠ none ∧ N.names.get dir name = none then N.create dir name else N

open Classical in
/-- A file gets another name. -/
noncomputable def rename (N : Namespace) (oldDir oldName newDir newName : Str) : Namespace :=
  if N.names.get oldDir oldName = none ∨ N.names newDir = none ∨
      (oldDir, oldName) = (newDir, newName) then N
  else
    let entered := N.names.set newDir newName (N.names.get oldDir oldName)
    { N with names := entered.set oldDir oldName none }

/-- What an operation is for. -/
noncomputable def apply (N : Namespace) : NameAction → Namespace
  | .mkdir dir => N.mkdir dir
  | .rmdir dir => N.rmdir dir
  | .openForWrite dir name overwrite _ => if overwrite then N else N.ensure dir name
  | .unlink dir name => { N with names := N.names.set dir name none }
  | .rename oldDir oldName newDir newName => N.rename oldDir oldName newDir newName
  | .lockFile dir name => N.ensure dir name

end Namespace

/-- The replay of the records so far gives the names in memory, their counts and the files. -/
def Fs.Replayed (logFnode : Fnode) (fs : Fs) : Prop :=
  ∃ n, (Nodes.mounted logFnode).replayOps fs.t = some n ∧ n.removeOrphans.view = fs.nodes.view

/-- The memory is consistent with itself, with the log, and with what the operations are for. -/
structure Fs.Consistent (logFnode : Fnode) (fs : Fs) (N : Namespace) : Prop where
  /-- The names are those that there should be. -/
  names : fs.nodes.names = N.names
  /-- `refs` counts the names of a file. -/
  refs : ∀ ino, (fs.nodes.names.entries ino).encard = (fs.nodes.file ino).refs
  /-- `file_map` has the log and the files with a name. -/
  fileMap : ∀ ino, ino ∈ fs.nodes.fileMap ↔ ino = 1 ∨ 0 < (fs.nodes.file ino).refs
  /-- The log says the same. -/
  replayed : fs.Replayed logFnode

/-- The situations in which the code does so: no file is renamed to a name that is taken, its own
included, and none is made by locking it. -/
def NamesFree (fs : Fs) : NameAction → Prop
  | .rename oldDir oldName newDir newName =>
    fs.nodes.lookup oldDir oldName ≠ none → fs.nodes.lookup newDir newName = none
  | .lockFile dir name =>
    fs.nodes.dirMap.lookup dir ≠ none → fs.nodes.lookup dir name ≠ none
  | _ => True

instance (fs : Fs) : (a : NameAction) → Decidable (NamesFree fs a)
  | .rename _ _ _ _ => inferInstanceAs (Decidable (_ ≠ none → _ = none))
  | .lockFile dir _ =>
    have : Decidable (fs.nodes.dirMap.lookup dir ≠ none) :=
      decidable_of_iff ((fs.nodes.dirMap.lookup dir).isSome = true) Option.isSome_iff_ne_none
    inferInstanceAs (Decidable (_ ≠ none → _ ≠ none))
  | .mkdir _ => inferInstanceAs (Decidable True)
  | .rmdir _ => inferInstanceAs (Decidable True)
  | .openForWrite _ _ _ _ => inferInstanceAs (Decidable True)
  | .unlink _ _ => inferInstanceAs (Decidable True)

/-! ## The invariant -/

/-- The counts of a view are right. -/
structure View.Valid (v : View) : Prop where
  /-- `refs` counts the names of a file. -/
  refs : ∀ ino, (v.names.entries ino).encard = v.refs ino
  /-- `file_map` has the log and the files with a name. -/
  live : ∀ ino, ino ∈ v.live ↔ ino = 1 ∨ 0 < v.refs ino
  /-- The log has no name. -/
  log : v.refs 1 = 0

namespace View.Valid

variable {v : View}

/-- The file of a name is counted. -/
theorem pos (h : v.Valid) {dir name : Str} {ino : ℕ} (hget : v.names.get dir name = some ino) :
    0 < v.refs ino ∧ ino ≠ 1 := by
  have hmem : (dir, name) ∈ v.names.entries ino := hget
  have hne := Set.encard_ne_zero_of_mem hmem
  rw [h.refs] at hne
  have hpos : 0 < v.refs ino := Nat.pos_of_ne_zero fun h0 => hne (by rw [h0]; rfl)
  refine ⟨hpos, ?_⟩
  rintro rfl
  exact hpos.ne' h.log

/-- Directories without names change nothing. -/
theorem dirs (h : v.Valid) {dir : Str} {w : Option (Str → Option ℕ)}
    (hold : ∀ name, v.names.get dir name = none) (hnew : ∀ g, w = some g → ∀ name, g name = none) :
    View.Valid { v with names := Function.update v.names dir w } := by
  have hget : ∀ p : Str × Str,
      Names.get (Function.update v.names dir w) p.1 p.2 = v.names.get p.1 p.2 := by
    intro p
    unfold Names.get
    by_cases hd : p.1 = dir
    · rw [hd, Function.update_self]
      have := hold p.2
      unfold Names.get at this
      rw [this]
      cases w with
      | none => rfl
      | some g => exact hnew g rfl p.2
    · rw [Function.update_of_ne hd]
  have hent : ∀ ino, Names.entries (Function.update v.names dir w) ino = v.names.entries ino := by
    intro ino
    unfold Names.entries
    simp only [hget]
  exact ⟨fun ino => by rw [hent]; exact h.refs ino, h.live, h.log⟩

/-- A new file gets its name. -/
theorem create (h : v.Valid) {dir name : Str} {ino : ℕ} (hdir : v.names dir ≠ none)
    (hfree : v.names.get dir name = none) (hnew : v.refs ino = 0) (hino : ino ≠ 1) :
    View.Valid ⟨v.names.set dir name (some ino), Function.update v.refs ino 1,
      insert ino v.live⟩ := by
  refine ⟨fun i => ?_, fun i => ?_, ?_⟩ <;> dsimp only
  · rw [Names.entries_set_some _ hdir, Function.update_apply]
    have hout : ∀ j, (dir, name) ∉ v.names.entries j := fun j hj => by
      have hj' : v.names.get dir name = some j := hj
      rw [hfree] at hj'
      cases hj'
    split_ifs with hi
    · have hempty : v.names.entries i = ∅ := by
        rw [← Set.encard_eq_zero, h.refs, hi, hnew]
        rfl
      rw [hempty]
      simp
    · rw [Set.sdiff_singleton_eq_self (hout i), h.refs]
  · rw [Set.mem_insert_iff, h.live, Function.update_apply]
    split_ifs with hi <;> simp [hi]
  · rw [Function.update_of_ne hino.symm]
    exact h.log

/-- A name goes, and with the last one the file. -/
theorem unlink (h : v.Valid) {dir name : Str} {ino : ℕ}
    (hget : v.names.get dir name = some ino) :
    View.Valid ⟨v.names.set dir name none, Function.update v.refs ino (v.refs ino - 1),
      if v.refs ino - 1 = 0 then v.live \ {ino} else v.live⟩ := by
  obtain ⟨hpos, hino⟩ := h.pos hget
  have hdir : v.names dir ≠ none := by
    intro hnone
    rw [Names.get, hnone] at hget
    cases hget
  refine ⟨fun i => ?_, fun i => ?_, ?_⟩ <;> dsimp only
  · rw [Names.entries_set_none _ hdir, Function.update_apply]
    split_ifs with hi
    · subst hi
      have hmem : (dir, name) ∈ v.names.entries i := hget
      have hcard := Set.encard_sdiff_singleton_add_one hmem
      rw [h.refs] at hcard
      have hsub : (v.refs i : ℕ∞) = ((v.refs i - 1 : ℕ) : ℕ∞) + 1 := by
        norm_cast
        omega
      rw [hsub] at hcard
      exact (ENat.add_left_injective_of_ne_top (by simp)) hcard
    · have hout : (dir, name) ∉ v.names.entries i := fun hj => by
        have hj' : v.names.get dir name = some i := hj
        rw [hget] at hj'
        exact hi (Option.some.inj hj').symm
      rw [Set.sdiff_singleton_eq_self hout, h.refs]
  · rw [Function.update_apply]
    split_ifs with h0 hi hi
    · simp [hi, hino, h0]
    · rw [← h.live]
      simp [hi]
    · subst hi
      rw [h.live]
      omega
    · exact h.live i
  · rw [Function.update_of_ne hino.symm]
    exact h.log

/-- A name goes, and a free one is given to its file. -/
theorem rename (h : v.Valid) {oldDir oldName newDir newName : Str} {ino : ℕ}
    (hget : v.names.get oldDir oldName = some ino) (hdir : v.names newDir ≠ none)
    (hfree : v.names.get newDir newName = none) :
    View.Valid { v with
      names := (v.names.set newDir newName (some ino)).set oldDir oldName none } := by
  have hold : v.names oldDir ≠ none := by
    intro hnone
    rw [Names.get, hnone] at hget
    cases hget
  have hne : (oldDir, oldName) ≠ (newDir, newName) := by
    intro e
    obtain ⟨rfl, rfl⟩ := Prod.mk.inj e
    rw [hget] at hfree
    cases hfree
  have hold' : v.names.set newDir newName (some ino) oldDir ≠ none := by
    unfold Names.set
    by_cases hd : oldDir = newDir
    · subst hd
      simpa using hold
    · rwa [Function.update_of_ne hd]
  refine ⟨fun i => ?_, h.live, h.log⟩
  rw [Names.entries_set_none _ hold', Names.entries_set_some _ hdir]
  have hout : ∀ j, (newDir, newName) ∉ v.names.entries j := fun j hj => by
    have hj' : v.names.get newDir newName = some j := hj
    rw [hfree] at hj'
    cases hj'
  split_ifs with hi
  · subst hi
    have hmem : (oldDir, oldName) ∈ insert (newDir, newName) (v.names.entries i) := .inr hget
    have hcard := Set.encard_sdiff_singleton_add_one hmem
    rw [Set.encard_insert_of_notMem (hout i), h.refs] at hcard
    exact (ENat.add_left_injective_of_ne_top (by simp)) hcard
  · have hout' : (oldDir, oldName) ∉ v.names.entries i := fun hj => by
      have hj' : v.names.get oldDir oldName = some i := hj
      rw [hget] at hj'
      exact hi (Option.some.inj hj').symm
    rw [Set.sdiff_singleton_eq_self (hout i), Set.sdiff_singleton_eq_self hout', h.refs]

end View.Valid

namespace Nodes

/-- Two lists of records are replayed one after the other. -/
theorem replayOps_append (n : Nodes) (a b : List LogOp) :
    n.replayOps (a ++ b) = (n.replayOps a).bind fun n => n.replayOps b :=
  List.foldlM_append

/-- A record is replayed, and then the others. -/
theorem replayOps_cons {n n1 n2 : Nodes} {op : LogOp} {ops : List LogOp}
    (h1 : n.replayOp op = some n1) (h2 : n1.replayOps ops = some n2) :
    n.replayOps (op :: ops) = some n2 := by
  unfold replayOps
  rw [List.foldlM_cons, h1]
  exact h2

/-- A file changes, and not in the number of its names. -/
theorem view_setFile {n : Nodes} {ino : ℕ} {f : File} (h : f.refs = (n.file ino).refs) :
    (n.setFile ino f).view = n.view := by
  refine View.ext rfl (funext fun i => ?_) rfl
  change ((n.setFile ino f).file i).refs = (n.file i).refs
  rw [file_setFile]
  split_ifs with hi
  · rw [h, hi]
  · rfl

/-- In a valid view every file is counted by its names. -/
theorem View.Valid.counted {n : Nodes} (h : n.view.Valid) (hnodup : n.fileMap.Nodup) :
    n.Counted := by
  refine ⟨hnodup, fun ino hino => ?_⟩
  by_contra hne
  exact hino ((h.live ino).mpr (.inr (Nat.pos_of_ne_zero hne)))

/-- Where no file is an orphan, none is removed. -/
theorem view_removeOrphans {n : Nodes} (h : n.view.Valid) : n.removeOrphans.view = n.view := by
  refine View.ext rfl rfl (Set.ext fun i => ?_)
  change i ∈ n.fileMap.filter _ ↔ i ∈ n.fileMap
  rw [List.mem_filter]
  refine ⟨fun hi => hi.1, fun hi => ⟨hi, ?_⟩⟩
  rcases (h.live i).mp hi with rfl | hpos
  · simp
  · have hpos' : 0 < (n.file i).refs := hpos
    simp [hpos']

end Nodes

/-- What holds between the operations. -/
structure Fs.Inv (logFnode : Fnode) (fs : Fs) (N : Namespace) : Prop where
  /-- The names are those that there should be. -/
  names : fs.nodes.names = N.names
  /-- So is the last inode number. -/
  inoLast : fs.nodes.inoLast = N.inoLast
  /-- The counts are right. -/
  valid : fs.nodes.view.Valid
  /-- A file is in `file_map` once. -/
  nodup : fs.nodes.fileMap.Nodup
  /-- The log has its number. -/
  pos : 1 ≤ fs.nodes.inoLast
  /-- The numbers above are free. -/
  fresh : ∀ ino, fs.nodes.inoLast < ino → (fs.nodes.file ino).refs = 0
  /-- The files know their numbers. -/
  inos : ∀ ino ∈ fs.nodes.fileMap, (fs.nodes.file ino).fnode.ino = ino
  /-- The log says the same. -/
  replayed : ∃ n, (Nodes.mounted logFnode).replayOps fs.t = some n ∧ n.Counted ∧
    n.view = fs.nodes.view

namespace Fs.Inv

variable {logFnode : Fnode} {fs fs' : Fs} {N N' : Namespace}

/-- The log after an operation. -/
theorem replayed_append (h : fs.Inv logFnode N) {ops : List LogOp} (ht : fs'.t = fs.t ++ ops)
    (hops : ∀ n : Nodes, n.Counted → n.view = fs.nodes.view →
      ∃ n', n.replayOps ops = some n' ∧ n'.Counted ∧ n'.view = fs'.nodes.view) :
    ∃ n, (Nodes.mounted logFnode).replayOps fs'.t = some n ∧ n.Counted ∧
      n.view = fs'.nodes.view := by
  obtain ⟨n, hn, hc, hv⟩ := h.replayed
  obtain ⟨n', hn', hc', hv'⟩ := hops n hc hv
  refine ⟨n', ?_, hc', hv'⟩
  rw [ht, Nodes.replayOps_append, hn]
  exact hn'

/-- The names of a directory with a name. -/
theorem get_eq (fs : Fs) {dir : Str} {d : Dir} (h : fs.nodes.dirMap.lookup dir = some d)
    (name : Str) : fs.nodes.names.get dir name = d.lookup name := by
  rw [Names.get, Nodes.names_eq_some h]
  rfl

/-- `mkdir` keeps the invariant. -/
theorem mkdir (h : fs.Inv logFnode N) (dir : Str) :
    (fs.mkdir dir).2.Inv logFnode (N.mkdir dir) := by
  unfold Fs.mkdir Namespace.mkdir
  rw [← h.names]
  cases hd : fs.nodes.dirMap.lookup dir with
  | some d =>
    rw [if_neg (by rw [Nodes.names_eq_some hd]; simp)]
    exact h
  | none =>
    have hnone := Nodes.names_eq_none.mpr hd
    rw [if_pos hnone]
    have hview : Nodes.view { fs.nodes with dirMap := fs.nodes.dirMap.insert dir ∅ } =
        { fs.nodes.view with
          names := Function.update fs.nodes.names dir (some fun _ => none) } :=
      View.ext (Nodes.names_insert_empty _ _) rfl rfl
    refine ⟨Nodes.names_insert_empty _ _, h.inoLast, ?_, h.nodup, h.pos, h.fresh, h.inos, ?_⟩
    · dsimp only
      rw [hview]
      refine h.valid.dirs (fun name => ?_) fun g hg name => ?_
      · change fs.nodes.names.get dir name = none
        rw [Names.get, hnone]
        rfl
      · rw [← Option.some.inj hg]
    · refine h.replayed_append rfl fun n hc hv => ?_
      obtain ⟨n', hn', hc', hv'⟩ := Nodes.replay_dirCreate hc dir
      refine ⟨n', Nodes.replayOps_cons hn' rfl, hc', ?_⟩
      dsimp only
      rw [hv', hview, show n.names = fs.nodes.names from congrArg View.names hv, hv]

/-- `rmdir` keeps the invariant. -/
theorem rmdir (h : fs.Inv logFnode N) (dir : Str) :
    (fs.rmdir dir).2.Inv logFnode (N.rmdir dir) := by
  unfold Fs.rmdir Namespace.rmdir
  rw [← h.names]
  cases hd : fs.nodes.dirMap.lookup dir with
  | none =>
    rw [if_neg (by rw [Nodes.names_eq_none.mpr hd]; simp)]
    exact h
  | some d =>
    have hsome := Nodes.names_eq_some hd
    have hempty : fs.nodes.names dir = (some fun _ => none) ↔ d.entries = [] := by
      rw [hsome, Option.some.injEq]
      constructor
      · intro hg
        refine List.eq_nil_iff_forall_not_mem.mpr fun p hp => ?_
        have := AList.mem_lookup_iff.mpr (show Sigma.mk p.1 p.2 ∈ d.entries from hp)
        rw [congrFun hg p.1] at this
        cases this
      · intro he
        funext name
        refine AList.lookup_eq_none.mpr fun hmem => ?_
        have hkeys : name ∈ d.keys := hmem
        rw [AList.keys, List.keys, he] at hkeys
        cases hkeys
    dsimp only
    by_cases he : d.entries = []
    · rw [if_neg (not_not.mpr he), if_pos (hempty.mpr he)]
      have hview : Nodes.view { fs.nodes with dirMap := fs.nodes.dirMap.erase dir } =
          { fs.nodes.view with names := Function.update fs.nodes.names dir none } :=
        View.ext (Nodes.names_erase _ _) rfl rfl
      refine ⟨Nodes.names_erase _ _, h.inoLast, ?_, h.nodup, h.pos, h.fresh, h.inos, ?_⟩
      · dsimp only
        rw [hview]
        refine h.valid.dirs (fun name => ?_) fun g hg => by cases hg
        change fs.nodes.names.get dir name = none
        rw [Names.get, hempty.mpr he]
        rfl
      · refine h.replayed_append rfl fun n hc hv => ?_
        obtain ⟨n', hn', hc', hv'⟩ := Nodes.replay_dirRemove hc dir
        refine ⟨n', Nodes.replayOps_cons hn' rfl, hc', ?_⟩
        dsimp only
        rw [hv', hview, show n.names = fs.nodes.names from congrArg View.names hv, hv]
    · rw [if_pos he, if_neg (mt hempty.mp he)]
      exact h

/-- A file changes in memory, and its node is logged. -/
theorem update (h : fs.Inv logFnode N) {ino : ℕ} (hino : ino ∈ fs.nodes.fileMap) {f : File}
    (hrefs : f.refs = (fs.nodes.file ino).refs) (hf : f.fnode.ino = ino) {ops : List LogOp}
    (hops : ops = [] ∨ ∃ fnode : Fnode, fnode.ino = ino ∧ ops = [.fileUpdate fnode])
    (hnodes : fs'.nodes = fs.nodes.setFile ino f) (ht : fs'.t = fs.t ++ ops) :
    fs'.Inv logFnode N := by
  have hview : fs'.nodes.view = fs.nodes.view := by
    rw [hnodes]
    exact Nodes.view_setFile hrefs
  have hfile : ∀ i, (fs'.nodes.file i).refs = (fs.nodes.file i).refs :=
    congrFun (congrArg View.refs hview)
  have hlast : fs'.nodes.inoLast = fs.nodes.inoLast := by rw [hnodes]; rfl
  have hmap : fs'.nodes.fileMap = fs.nodes.fileMap := by rw [hnodes]; rfl
  refine ⟨(congrArg View.names hview).trans h.names, hlast.trans h.inoLast, hview ▸ h.valid,
    hmap ▸ h.nodup, hlast ▸ h.pos, fun i hi => ?_, fun i hi => ?_, ?_⟩
  · rw [hfile]
    exact h.fresh i (hlast ▸ hi)
  · rw [hnodes, Nodes.file_setFile]
    split_ifs with hi'
    · rw [hf, hi']
    · exact h.inos i (hmap ▸ hi)
  · refine h.replayed_append ht fun n hc hv => ?_
    rcases hops with rfl | ⟨fnode, hfnode, rfl⟩
    · exact ⟨n, rfl, hc, hv.trans hview.symm⟩
    · obtain ⟨n', hn', hc', hv'⟩ := Nodes.replay_fileUpdate hc fnode
      refine ⟨n', Nodes.replayOps_cons hn' rfl, hc', ?_⟩
      have hlive : ino ∈ fs.nodes.view.live := hino
      rw [hv', hv, hfnode, Set.insert_eq_of_mem hlive, hview]

/-- A new file. -/
theorem created (h : fs.Inv logFnode N) {dir name : Str} {d : Dir}
    (hd : fs.nodes.dirMap.lookup dir = some d) (hname : d.lookup name = none) (now : ℕ) :
    (fs.openForWrite dir name false now).2.Inv logFnode (N.create dir name) := by
  have hdir : fs.nodes.names dir ≠ none := by
    rw [Nodes.names_eq_some hd]
    simp
  have hfree : fs.nodes.names.get dir name = none := by rw [get_eq fs hd, hname]
  -- The number of the new file is not in use.
  obtain ⟨ino, hino⟩ : ∃ ino, ino = fs.nodes.inoLast + 1 := ⟨_, rfl⟩
  have hnew : (fs.nodes.file ino).refs = 0 := h.fresh ino (by omega)
  have hone : ino ≠ 1 := by
    have := h.pos
    omega
  obtain ⟨m, hm⟩ : ∃ m, (fs.openForWrite dir name false now).2 = m := ⟨_, rfl⟩
  rw [hm]
  -- What the call does to the maps and what it queues.
  have hnodes : m.nodes = Nodes.setFile (Nodes.link (Nodes.addFile { fs.nodes with inoLast := ino }
      ino { File.new ino now with refs := 1 }) dir d name ino) ino
      { File.new ino now with refs := 1 } := by
    rw [← hm, hino]
    simp [Fs.openForWrite, hd, hname, Fs.opFileUpdate, Fs.queue, Nodes.link, File.new, Fnode.new,
      Fnode.resetDelta]
  have ht : m.t = fs.t ++ [.fileUpdate (Fnode.new ino 0 now), .dirLink dir name ino] := by
    rw [← hm, hino]
    simp [Fs.openForWrite, hd, hname, Fs.opFileUpdate, Fs.queue, Nodes.link, File.new]
  have hmap : ∀ i, i ∈ m.nodes.fileMap ↔ i = ino ∨ i ∈ fs.nodes.fileMap := by
    intro i
    rw [hnodes]
    exact Nodes.mem_fileMap_addFile { fs.nodes with inoLast := ino } ino i
      { File.new ino now with refs := 1 }
  have hfile : ∀ i, m.nodes.file i = if i = ino then { File.new ino now with refs := 1 }
      else fs.nodes.file i := by
    intro i
    rw [hnodes, Nodes.file_setFile]
    split_ifs with hi
    · rfl
    · change (Nodes.addFile { fs.nodes with inoLast := ino } ino
        { File.new ino now with refs := 1 }).file i = _
      rw [Nodes.file_addFile, if_neg hi]
  have hnames : m.nodes.names = fs.nodes.names.set dir name (some ino) := by
    rw [hnodes]
    exact Nodes.names_link hd name ino
  -- So the view has one more file with one name.
  have hview : m.nodes.view = ⟨fs.nodes.names.set dir name (some ino),
      Function.update fs.nodes.view.refs ino 1, insert ino fs.nodes.view.live⟩ := by
    refine View.ext hnames (funext fun i => ?_) (Set.ext hmap)
    change (m.nodes.file i).refs = Function.update fs.nodes.view.refs ino 1 i
    rw [hfile, Function.update_apply]
    split_ifs with hi
    · rfl
    · rfl
  have hlast : m.nodes.inoLast = ino := by rw [hnodes]; rfl
  -- The invariant clause by clause; the replay has the node first, then the name.
  refine ⟨?_, ?_, ?_, ?_, ?_, fun i hi => ?_, fun i hi => ?_, ?_⟩
  · rw [hnames, h.names, hino, h.inoLast]
    rfl
  · rw [hlast, hino, h.inoLast]
    rfl
  · rw [hview]
    exact h.valid.create hdir hfree hnew hone
  · rw [hnodes]
    exact Nodes.nodup_addFile h.nodup ino { File.new ino now with refs := 1 }
  · rw [hlast]
    omega
  · rw [hlast] at hi
    rw [hfile, if_neg (by omega)]
    exact h.fresh i (by omega)
  · rw [hfile]
    split_ifs with hi'
    · rw [hi']
      rfl
    · exact h.inos i (((hmap i).mp hi).resolve_left hi')
  · refine h.replayed_append ht fun n hc hv => ?_
    obtain ⟨n1, hn1, hc1, hv1⟩ := Nodes.replay_fileUpdate hc (Fnode.new ino 0 now)
    have hn1names : n1.names = fs.nodes.names :=
      (congrArg View.names hv1).trans (congrArg View.names hv)
    obtain ⟨n2, hn2, hc2, hv2⟩ := Nodes.replay_dirLink hc1 (hn1names ▸ hdir) name ino
    refine ⟨n2, Nodes.replayOps_cons hn1 (Nodes.replayOps_cons hn2 rfl), hc2, ?_⟩
    have hz : fs.nodes.view.refs ino = 0 := hnew
    rw [hv2, hview, hn1names, hv1, hv]
    dsimp only
    rw [hz]
    exact View.ext rfl rfl (Set.insert_eq_of_mem (Set.mem_insert _ _))

/-- The file of a name is there. -/
theorem lookup_mem (h : fs.Inv logFnode N) {dir name : Str} {d : Dir} {ino : ℕ}
    (hd : fs.nodes.dirMap.lookup dir = some d) (hname : d.lookup name = some ino) :
    fs.nodes.names.get dir name = some ino ∧ 0 < (fs.nodes.file ino).refs ∧ ino ≠ 1 ∧
      ino ∈ fs.nodes.fileMap := by
  have hget : fs.nodes.names.get dir name = some ino := by rw [get_eq fs hd, hname]
  obtain ⟨hpos, hone⟩ := h.valid.pos hget
  exact ⟨hget, hpos, hone, (h.valid.live ino).mpr (.inr hpos)⟩

/-- A name that is there need not be made. -/
theorem ensure_of_get {N : Namespace} {dir name : Str} (h : N.names.get dir name ≠ none) :
    N.ensure dir name = N := if_neg fun hn => h hn.2

/-- Without its directory a name cannot be made. -/
theorem ensure_of_none {N : Namespace} {dir name : Str} (h : N.names dir = none) :
    N.ensure dir name = N := if_neg fun hn => hn.1 h

/-- `open_for_write` keeps the invariant. -/
theorem openForWrite (h : fs.Inv logFnode N) (dir name : Str) (overwrite : Bool) (now : ℕ) :
    (fs.openForWrite dir name overwrite now).2.Inv logFnode
      (if overwrite then N else N.ensure dir name) := by
  cases hd : fs.nodes.dirMap.lookup dir with
  | none =>
    have hnone : N.names dir = none := by rw [← h.names, Nodes.names_eq_none.mpr hd]
    rw [ensure_of_none hnone, ite_self]
    simpa [Fs.openForWrite, hd] using h
  | some d =>
    cases hname : d.lookup name with
    | none =>
      cases overwrite with
      | true => simpa [Fs.openForWrite, hd, hname] using h
      | false =>
        have hnew : N.ensure dir name = N.create dir name := by
          refine if_pos ⟨?_, ?_⟩
          · rw [← h.names, Nodes.names_eq_some hd]
            simp
          · rw [← h.names, get_eq fs hd, hname]
        rw [if_neg Bool.false_ne_true, hnew]
        exact h.created hd hname now
    | some ino =>
      obtain ⟨hget, -, -, hmem⟩ := h.lookup_mem hd hname
      have hsame : N.ensure dir name = N := ensure_of_get (by rw [← h.names, hget]; simp)
      rw [hsame, ite_self]
      have hino := h.inos ino hmem
      -- The node is changed and logged, and its old extents may be released.
      cases overwrite with
      | true =>
        refine h.update hmem (f := { fs.nodes.file ino with
            fnode := { (fs.nodes.file ino).fnode with mtime := now }.resetDelta }) rfl hino
          (.inr ⟨{ (fs.nodes.file ino).fnode with mtime := now }, hino, rfl⟩) ?_ ?_
        · simp [Fs.openForWrite, hd, hname, Fs.opFileUpdate, Nodes.setFile]
        · simp [Fs.openForWrite, hd, hname, Fs.opFileUpdate, Fs.queue]
      | false =>
        refine h.update hmem (f := { fs.nodes.file ino with fnode :=
            { { (fs.nodes.file ino).fnode with size := 0 }.clearExtents with
              mtime := now }.resetDelta }) rfl hino
          (.inr ⟨{ { (fs.nodes.file ino).fnode with size := 0 }.clearExtents with mtime := now },
            hino, rfl⟩) ?_ ?_
        · simp [Fs.openForWrite, hd, hname, Fs.opFileUpdate, Nodes.setFile, Fs.release]
        · simp [Fs.openForWrite, hd, hname, Fs.opFileUpdate, Fs.queue, Fs.release]

/-- `lock_file` keeps the invariant, if the name is free. -/
theorem lockFile (h : fs.Inv logFnode N) {dir name : Str}
    (hfree : NamesFree fs (.lockFile dir name)) :
    (fs.lockFile dir name).2.Inv logFnode (N.ensure dir name) := by
  cases hd : fs.nodes.dirMap.lookup dir with
  | none =>
    have hnone : N.names dir = none := by rw [← h.names, Nodes.names_eq_none.mpr hd]
    rw [ensure_of_none hnone]
    simpa [Fs.lockFile, hd] using h
  | some d =>
    have hsome : fs.nodes.lookup dir name ≠ none := hfree (by simp [hd])
    rw [Nodes.lookup, hd] at hsome
    obtain ⟨ino, hname⟩ := Option.ne_none_iff_exists'.mp hsome
    obtain ⟨hget, -, -, hmem⟩ := h.lookup_mem hd hname
    have hsame : N.ensure dir name = N := ensure_of_get (by rw [← h.names, hget]; simp)
    have hname' : d.lookup name = some ino := hname
    rw [hsame]
    by_cases hl : (fs.nodes.file ino).locked
    · simpa [Fs.lockFile, hd, hname', hl] using h
    · refine h.update hmem (f := { fs.nodes.file ino with locked := true }) rfl (h.inos ino hmem)
        (.inl rfl) ?_ ?_
      · simp [Fs.lockFile, hd, hname', hl]
      · simp [Fs.lockFile, hd, hname', hl]

/-- What is left of the memory when a file has lost a name. -/
theorem dropLink {fs : Fs} {ino : ℕ} (hpos : 0 < (fs.nodes.file ino).refs)
    (hino : (fs.nodes.file ino).fnode.ino = ino) : ∃ fs', fs.dropLink ino = some fs' ∧
      fs'.nodes.dirMap = fs.nodes.dirMap ∧ fs'.nodes.inoLast = fs.nodes.inoLast ∧
      fs'.nodes.fileMap = (if (fs.nodes.file ino).refs - 1 = 0 then fs.nodes.fileMap.erase ino
        else fs.nodes.fileMap) ∧
      fs'.t = fs.t ++ (if (fs.nodes.file ino).refs - 1 = 0 then [.fileRemove ino] else []) ∧
      (∀ i, (fs'.nodes.file i).refs =
        if i = ino then (fs.nodes.file ino).refs - 1 else (fs.nodes.file i).refs) ∧
      ∀ i, (fs'.nodes.file i).fnode = (fs.nodes.file i).fnode := by
  unfold Fs.dropLink
  dsimp only
  rw [if_neg hpos.ne']
  split_ifs with h0 hd
  · refine ⟨_, rfl, rfl, rfl, by rw [hino]; rfl, by rw [hino]; rfl, fun i => ?_, fun i => ?_⟩
    · rw [Nodes.file_setFile]
      split_ifs with hi
      · exact h0.symm
      · rfl
    · rw [Nodes.file_setFile]
      split_ifs with hi
      · rw [hi]
      · rfl
  · refine ⟨_, rfl, rfl, rfl, by rw [hino]; rfl, by rw [hino]; rfl, fun i => ?_, fun i => ?_⟩
    · rw [Nodes.file_setFile]
      split_ifs with hi
      · exact h0.symm
      · rfl
    · rw [Nodes.file_setFile]
      split_ifs with hi
      · rw [hi]
      · rfl
  · refine ⟨_, rfl, rfl, rfl, rfl, by simp, fun i => ?_, fun i => ?_⟩
    · rw [Nodes.file_setFile]
      split_ifs with hi <;> rfl
    · rw [Nodes.file_setFile]
      split_ifs with hi
      · rw [hi]
      · rfl

/-- `unlink` keeps the invariant. -/
theorem unlink (h : fs.Inv logFnode N) (dir name : Str) :
    ∃ r, fs.unlink dir name = some r ∧
      r.2.Inv logFnode { N with names := N.names.set dir name none } := by
  -- Without an entry the call fails, with the errors of the model.
  have hid : fs.nodes.names.get dir name = none →
      fs.nodes.names.set dir name none = fs.nodes.names := by
    intro hget
    unfold Names.set
    cases hn : fs.nodes.names dir with
    | none => rw [Option.map_none, ← hn, Function.update_eq_self]
    | some g =>
      rw [Names.get, hn] at hget
      have hg : Function.update g name none = g := by
        rw [← show g name = none from hget, Function.update_eq_self]
      rw [Option.map_some, hg, ← hn, Function.update_eq_self]
  rw [← h.names]
  unfold Fs.unlink
  -- There is no such directory, or no such name in it, or the name goes.
  cases hd : fs.nodes.dirMap.lookup dir with
  | none =>
    have hnone := Nodes.names_eq_none.mpr hd
    rw [hid (by rw [Names.get, hnone]; rfl), h.names]
    exact ⟨_, rfl, h⟩
  | some d =>
    dsimp only
    cases hname : d.lookup name with
    | none =>
      rw [hid (by rw [get_eq fs hd, hname]), h.names]
      exact ⟨_, rfl, h⟩
    | some ino =>
      obtain ⟨hget, hpos, hone, hmem⟩ := h.lookup_mem hd hname
      obtain ⟨fs1, hfs1⟩ : ∃ fs1 : Fs, { fs.queue [.dirUnlink dir name] with
        nodes := fs.nodes.unlink dir d name } = fs1 := ⟨_, rfl⟩
      have hnodes1 : fs1.nodes = fs.nodes.unlink dir d name := by rw [← hfs1]
      obtain ⟨m, hm, hdirs, hlast, hmap, ht, hrefs, hfnode⟩ := dropLink
        (show 0 < (fs1.nodes.file ino).refs by rw [hnodes1]; exact hpos)
        (by rw [hnodes1]; exact h.inos ino hmem)
      rw [hnodes1] at hdirs hlast hmap ht hrefs hfnode
      rw [show fs1.t = fs.t ++ [.dirUnlink dir name] by rw [← hfs1]; rfl] at ht
      have hv := h.valid.unlink hget
      have hmem' : ∀ i, i ∈ fs.nodes.fileMap.erase ino ↔ i ≠ ino ∧ i ∈ fs.nodes.fileMap :=
        fun i => h.nodup.mem_erase_iff
      have hnames : m.nodes.names = fs.nodes.names.set dir name none := by
        rw [← Nodes.names_unlink hd name]
        unfold Nodes.names
        rw [hdirs]
      have hview : m.nodes.view = ⟨fs.nodes.names.set dir name none,
          Function.update fs.nodes.view.refs ino (fs.nodes.view.refs ino - 1),
          if fs.nodes.view.refs ino - 1 = 0 then fs.nodes.view.live \ {ino}
            else fs.nodes.view.live⟩ := by
        refine View.ext hnames (funext fun i => ?_) (Set.ext fun i => ?_)
        · change (m.nodes.file i).refs = Function.update fs.nodes.view.refs ino _ i
          rw [hrefs, Function.update_apply]
          rfl
        · change i ∈ m.nodes.fileMap ↔ i ∈ ite ((fs.nodes.file ino).refs - 1 = 0) _ _
          rw [hmap]
          change i ∈ ite ((fs.nodes.file ino).refs - 1 = 0) (fs.nodes.fileMap.erase ino)
            fs.nodes.fileMap ↔ _
          split_ifs with h0
          · rw [hmem', and_comm]
            rfl
          · rfl
      have hm' : Fs.dropLink { fs.queue [.dirUnlink dir name] with
          nodes := fs.nodes.unlink dir d name } ino = some m := by
        rw [hfs1]
        exact hm
      refine ⟨(0, m), by dsimp only; rw [hm']; rfl, ⟨hnames, hlast.trans h.inoLast, hview ▸ hv, ?_,
        hlast ▸ h.pos, fun i hi => ?_, fun i hi => ?_, ?_⟩⟩
      · change m.nodes.fileMap.Nodup
        rw [hmap]
        split_ifs
        · exact h.nodup.erase ino
        · exact h.nodup
      · have hi' : fs.nodes.inoLast < i := lt_of_eq_of_lt hlast.symm hi
        change (m.nodes.file i).refs = 0
        rw [hrefs]
        split_ifs with he
        · have := h.fresh i hi'
          change (fs.nodes.file ino).refs - 1 = 0
          rw [← he, this]
        · exact h.fresh i hi'
      · have hi' : i ∈ fs.nodes.fileMap := by
          have hi2 : i ∈ m.nodes.fileMap := hi
          rw [hmap] at hi2
          split_ifs at hi2
          · exact ((hmem' i).mp hi2).2
          · exact hi2
        change (m.nodes.file i).fnode.ino = i
        rw [hfnode]
        exact h.inos i hi'
      -- The replay has the name gone, and the file when it was the last one.
      · refine h.replayed_append (ht.trans (List.append_assoc _ _ _)) fun n hc hvn => ?_
        have hnn : n.names = fs.nodes.names := congrArg View.names hvn
        obtain ⟨n1, hn1, hc1, hv1⟩ := Nodes.replay_dirUnlink hc (hnn ▸ hget)
          (by rw [hvn]; exact hpos)
        rw [hnn, hvn] at hv1
        change ∃ n', n.replayOps (_ :: ite ((fs.nodes.file ino).refs - 1 = 0) _ _) = _ ∧ _
        split_ifs with h0
        · obtain ⟨n2, hn2, hc2, hv2⟩ := Nodes.replay_fileRemove hc1
            (show n1.view.refs ino = 0 by
              rw [hv1]
              dsimp only
              rw [Function.update_self]
              exact h0)
          refine ⟨n2, Nodes.replayOps_cons hn1 (Nodes.replayOps_cons hn2 rfl), hc2, ?_⟩
          rw [hv2, hv1, hview, if_pos (show fs.nodes.view.refs ino - 1 = 0 from h0)]
        · refine ⟨n1, Nodes.replayOps_cons hn1 rfl, hc1, ?_⟩
          rw [hv1, hview, if_neg (show ¬ fs.nodes.view.refs ino - 1 = 0 from h0)]

/-- A file gets a free name. -/
theorem renamed (h : fs.Inv logFnode N) {oldDir oldName newDir newName : Str} {od nd : Dir}
    {ino : ℕ} (hod : fs.nodes.dirMap.lookup oldDir = some od) (hold : od.lookup oldName = some ino)
    (hnd : fs.nodes.dirMap.lookup newDir = some nd) (hfree : nd.lookup newName = none) :
    (fs.rename oldDir oldName newDir newName).2.Inv logFnode
      { N with names := (N.names.set newDir newName (some ino)).set oldDir oldName none } := by
  obtain ⟨hget, hpos, hone, hmem⟩ := h.lookup_mem hod hold
  have hget' : fs.nodes.names.get newDir newName = none := by rw [get_eq fs hnd, hfree]
  have hdir : fs.nodes.names newDir ≠ none := by
    rw [Nodes.names_eq_some hnd]
    simp
  obtain ⟨n, hn⟩ : ∃ n, n = fs.nodes.link newDir nd newName ino := ⟨_, rfl⟩
  -- The old directory, with the new name if it is the same one.
  obtain ⟨od', hod'⟩ : ∃ od', n.dirMap.lookup oldDir = some od' := by
    rw [hn]
    by_cases hd : oldDir = newDir
    · exact ⟨_, by rw [hd]; exact AList.lookup_insert _⟩
    · exact ⟨od, by rw [← hod]; exact AList.lookup_insert_ne hd⟩
  -- What the call does to the maps and what it queues.
  obtain ⟨m, hm⟩ : ∃ m, (fs.rename oldDir oldName newDir newName).2 = m := ⟨_, rfl⟩
  have hlookup : (fs.nodes.link newDir nd newName ino).dirMap.lookup oldDir = some od' := by
    rw [← hn]
    exact hod'
  have hnodes : m.nodes = n.unlink oldDir od' oldName := by
    rw [← hm, hn]
    simp [Fs.rename, hod, hold, hnd, hfree, hlookup, Fs.queue]
  have ht : m.t = fs.t ++ [.dirLink newDir newName ino, .dirUnlink oldDir oldName] := by
    rw [← hm]
    simp [Fs.rename, hod, hold, hnd, hfree, Fs.queue, h.inos ino hmem]
  have hnames : m.nodes.names =
      (fs.nodes.names.set newDir newName (some ino)).set oldDir oldName none := by
    rw [hnodes, Nodes.names_unlink hod', hn, Nodes.names_link hnd]
  have hview : m.nodes.view = { fs.nodes.view with
      names := (fs.nodes.names.set newDir newName (some ino)).set oldDir oldName none } := by
    refine View.ext hnames ?_ ?_
    · rw [hnodes, hn]
      rfl
    · rw [hnodes, hn]
      rfl
  rw [hm, ← h.names]
  -- The invariant clause by clause; the replay gives the new name before it takes the old one.
  refine ⟨hnames, ?_, ?_, ?_, ?_, ?_, ?_, ?_⟩
  · rw [hnodes, hn]
    exact h.inoLast
  · rw [hview]
    exact h.valid.rename hget hdir hget'
  · rw [hnodes, hn]
    exact h.nodup
  · rw [hnodes, hn]
    exact h.pos
  · rw [hnodes, hn]
    exact h.fresh
  · rw [hnodes, hn]
    exact h.inos
  · refine h.replayed_append ht fun k hc hv => ?_
    have hkn : k.names = fs.nodes.names := congrArg View.names hv
    obtain ⟨k1, hk1, hc1, hv1⟩ := Nodes.replay_dirLink hc (hkn ▸ hdir) newName ino
    rw [hkn, hv] at hv1
    have hk1n : k1.names = fs.nodes.names.set newDir newName (some ino) := congrArg View.names hv1
    have hk1r : k1.view.refs ino = fs.nodes.view.refs ino + 1 := by
      rw [hv1]
      exact Function.update_self ..
    have hne : (oldDir, oldName) ≠ (newDir, newName) := by
      intro e
      obtain ⟨rfl, rfl⟩ := Prod.mk.inj e
      rw [hget] at hget'
      cases hget'
    have hk1get : k1.names.get oldDir oldName = some ino := by
      rw [hk1n]
      have := Names.get_set fs.nodes.names hdir newName (some ino) (oldDir, oldName)
      rw [if_neg hne] at this
      exact this.trans hget
    obtain ⟨k2, hk2, hc2, hv2⟩ := Nodes.replay_dirUnlink hc1 hk1get (by rw [hk1r]; omega)
    refine ⟨k2, Nodes.replayOps_cons hk1 (Nodes.replayOps_cons hk2 rfl), hc2, ?_⟩
    rw [hv2, hview, hk1n, hk1r, hv1]
    refine View.ext rfl ?_ (Set.insert_eq_of_mem (show ino ∈ fs.nodes.view.live from hmem))
    dsimp only
    rw [Function.update_idem, Nat.add_sub_cancel, Function.update_eq_self]

/-- `rename` keeps the invariant, if the new name is free. -/
theorem rename (h : fs.Inv logFnode N) {oldDir oldName newDir newName : Str}
    (hfree : NamesFree fs (.rename oldDir oldName newDir newName)) :
    (fs.rename oldDir oldName newDir newName).2.Inv logFnode
      (N.rename oldDir oldName newDir newName) := by
  unfold Namespace.rename
  rw [← h.names]
  cases hod : fs.nodes.dirMap.lookup oldDir with
  | none =>
    rw [if_pos (.inl (by rw [Names.get, Nodes.names_eq_none.mpr hod]; rfl))]
    simpa [Fs.rename, hod] using h
  | some od =>
    cases hold : od.lookup oldName with
    | none =>
      rw [if_pos (.inl (by rw [get_eq fs hod, hold]))]
      simpa [Fs.rename, hod, hold] using h
    | some ino =>
      cases hnd : fs.nodes.dirMap.lookup newDir with
      | none =>
        rw [if_pos (.inr (.inl (Nodes.names_eq_none.mpr hnd)))]
        simpa [Fs.rename, hod, hold, hnd] using h
      | some nd =>
        have hnone : fs.nodes.lookup newDir newName = none :=
          hfree (by rw [Nodes.lookup, hod]; simp [hold])
        rw [Nodes.lookup, hnd] at hnone
        have hget : fs.nodes.names.get oldDir oldName = some ino := by rw [get_eq fs hod, hold]
        have hcond : ¬ (fs.nodes.names.get oldDir oldName = none ∨ fs.nodes.names newDir = none ∨
            (oldDir, oldName) = (newDir, newName)) := by
          rintro (h1 | h1 | h1)
          · rw [hget] at h1
            cases h1
          · rw [Nodes.names_eq_some hnd] at h1
            cases h1
          · obtain ⟨rfl, rfl⟩ := Prod.mk.inj h1
            rw [get_eq fs hnd] at hget
            rw [show nd.lookup oldName = none from hnone] at hget
            cases hget
        rw [if_neg hcond, hget, h.names]
        exact h.renamed hod hold hnd hnone

/-- Every operation that meets the condition goes through, and keeps the invariant. -/
theorem step (h : fs.Inv logFnode N) {a : NameAction} (ha : NamesFree fs a) :
    ∃ fs', fs.nameStep a = some fs' ∧ fs'.Inv logFnode (N.apply a) := by
  cases a with
  | mkdir dir => exact ⟨_, rfl, h.mkdir dir⟩
  | rmdir dir => exact ⟨_, rfl, h.rmdir dir⟩
  | openForWrite dir name overwrite now => exact ⟨_, rfl, h.openForWrite dir name overwrite now⟩
  | unlink dir name =>
    obtain ⟨r, hr, hinv⟩ := h.unlink dir name
    exact ⟨r.2, by rw [Fs.nameStep, hr]; rfl, hinv⟩
  | rename oldDir oldName newDir newName => exact ⟨_, rfl, h.rename ha⟩
  | lockFile dir name => exact ⟨_, rfl, h.lockFile ha⟩

/-- The invariant says that memory and log agree with the names. -/
theorem consistent (h : fs.Inv logFnode N) : fs.Consistent logFnode N := by
  obtain ⟨n, hn, -, hv⟩ := h.replayed
  refine ⟨h.names, h.valid.refs, h.valid.live, n, hn, ?_⟩
  rw [Nodes.view_removeOrphans (hv ▸ h.valid), hv]

/-- Before the first call there are no names. -/
theorem start (logFnode : Fnode) (hlog : logFnode.ino = 1) :
    (Fs.start logFnode).Inv logFnode ⟨fun _ => none, 1⟩ := by
  have hrefs : ∀ ino, ((Fs.start logFnode).nodes.file ino).refs = 0 := by
    intro ino
    change (ite (ino = 1) _ _ : File).refs = 0
    split_ifs <;> rfl
  have hempty : ∀ ino, Names.entries (fun _ => none) ino = ∅ := fun ino =>
    Set.eq_empty_of_forall_notMem fun p hp => by cases hp
  have hcounted : (Fs.start logFnode).nodes.Counted :=
    ⟨List.nodup_singleton 1, fun ino _ => hrefs ino⟩
  refine ⟨rfl, rfl, ⟨fun ino => ?_, fun ino => ?_, hrefs 1⟩, List.nodup_singleton 1, le_refl _,
    fun ino _ => hrefs ino, fun ino hino => ?_, _, rfl, hcounted, rfl⟩
  · change (Names.entries (fun _ => none) ino).encard =
      (((Fs.start logFnode).nodes.file ino).refs : ℕ∞)
    rw [hempty, hrefs, Set.encard_empty]
    rfl
  · change ino ∈ [1] ↔ ino = 1 ∨ 0 < ((Fs.start logFnode).nodes.file ino).refs
    rw [hrefs]
    simp
  · rw [List.mem_singleton.mp hino]
    exact hlog

end Fs.Inv

/-- In every run that meets the condition, no assertion fails, and the names in memory, their
counts, the files and the log are what they should be. -/
theorem namespace_consistent (logFnode : Fnode) (hlog : logFnode.ino = 1) (as : List NameAction)
    (hm : Runs.Meets Fs.nameStep NamesFree (Fs.start logFnode) as) :
    ∃ fs, Runs.exec Fs.nameStep (Fs.start logFnode) as = some fs ∧
      fs.Consistent logFnode (as.foldl Namespace.apply ⟨fun _ => none, 1⟩) := by
  obtain ⟨fs, hfs, hinv⟩ := Runs.exec_total_simulates Namespace.apply
    (fun _ _ _ h hok => h.step hok) as _ _ (Fs.Inv.start logFnode hlog) hm
  exact ⟨fs, hfs, hinv.consistent⟩

/-- A directory with files that are made, renamed, opened again, locked and unlinked. -/
def namesInTurn : List NameAction :=
  [.mkdir [0x64], .openForWrite [0x64] [0x61] false 5, .rename [0x64] [0x61] [0x64] [0x62],
    .openForWrite [0x64] [0x62] true 6, .lockFile [0x64] [0x62],
    .openForWrite [0x64] [0x61] false 7, .unlink [0x64] [0x61]]

/-- Directories and files are made, renamed and removed in turn. -/
theorem namespace_consistent_namesInTurn :
    ∃ fs, Runs.exec Fs.nameStep (Fs.start (Fnode.new 1 0 0)) namesInTurn = some fs ∧
      fs.Consistent (Fnode.new 1 0 0) (namesInTurn.foldl Namespace.apply ⟨fun _ => none, 1⟩) :=
  namespace_consistent _ rfl _ (by decide +kernel)

/-- A file that the replay does not have. -/
theorem Fs.not_replayed {logFnode : Fnode} {fs : Fs} {files : List ℕ}
    (hfiles : ∃ n, (Nodes.mounted logFnode).replayOps fs.t = some n ∧
      n.removeOrphans.fileMap = files) {ino : ℕ} (hino : ino ∈ fs.nodes.fileMap)
    (hgone : ino ∉ files) : ¬ fs.Replayed logFnode := by
  obtain ⟨n, hn, rfl⟩ := hfiles
  rintro ⟨n', hn', hview⟩
  obtain rfl := Option.some.inj (hn.symm.trans hn')
  have hlive : ino ∈ n.removeOrphans.view.live := by
    rw [hview]
    exact hino
  exact hgone hlive

/-- What is looked at after a run: the files by name, the files, and those of the replay. -/
def Fs.seen (fs : Fs) (dir name : Str) : Option ℕ × List ℕ × Option (List ℕ) :=
  (fs.nodes.lookup dir name, fs.nodes.fileMap,
    ((Nodes.mounted (Fnode.new 1 0 0)).replayOps fs.t).map fun n => n.removeOrphans.fileMap)

/-- A file is renamed to the name of another one; a file is renamed to its own name; a file is made
by locking it. -/
theorem names_lost :
    (∃ fs, Runs.exec Fs.nameStep (Fs.start (Fnode.new 1 0 0)) [.mkdir [0x64],
        .openForWrite [0x64] [0x61] false 5, .openForWrite [0x64] [0x62] false 6,
        .rename [0x64] [0x61] [0x64] [0x62]] = some fs ∧
      (∀ N, ¬ fs.Consistent (Fnode.new 1 0 0) N)) ∧
    (∃ fs, Runs.exec Fs.nameStep (Fs.start (Fnode.new 1 0 0)) [.mkdir [0x64],
        .openForWrite [0x64] [0x61] false 5, .rename [0x64] [0x61] [0x64] [0x61]] = some fs ∧
      fs.nodes.lookup [0x64] [0x61] = none) ∧
    ∃ fs, Runs.exec Fs.nameStep (Fs.start (Fnode.new 1 0 0)) [.mkdir [0x64],
        .lockFile [0x64] [0x61]] = some fs ∧
      fs.nodes.lookup [0x64] [0x61] = some 2 ∧ ¬ fs.Replayed (Fnode.new 1 0 0) := by
  have hover : (Runs.exec Fs.nameStep (Fs.start (Fnode.new 1 0 0)) [.mkdir [0x64],
      .openForWrite [0x64] [0x61] false 5, .openForWrite [0x64] [0x62] false 6,
      .rename [0x64] [0x61] [0x64] [0x62]]).map (fun fs => fs.seen [0x64] [0x62]) =
      some (some 2, [1, 2, 3], some [1, 2]) := by decide +kernel
  have hself : (Runs.exec Fs.nameStep (Fs.start (Fnode.new 1 0 0)) [.mkdir [0x64],
      .openForWrite [0x64] [0x61] false 5, .rename [0x64] [0x61] [0x64] [0x61]]).map
        (fun fs => fs.seen [0x64] [0x61]) = some (none, [1, 2], some [1, 2]) := by decide +kernel
  have hlock : (Runs.exec Fs.nameStep (Fs.start (Fnode.new 1 0 0)) [.mkdir [0x64],
      .lockFile [0x64] [0x61]]).map (fun fs => fs.seen [0x64] [0x61]) =
      some (some 2, [1, 2], some [1]) := by decide +kernel
  simp only [Option.map_eq_some_iff, Fs.seen, Prod.mk.injEq] at hover hself hlock
  obtain ⟨taken, hover, -, hfiles, hreplay⟩ := hover
  obtain ⟨self, hself, hlookup, -, -⟩ := hself
  obtain ⟨lock, hlock, hmade, hlive, hlost⟩ := hlock
  refine ⟨⟨taken, hover, fun N h => ?_⟩, ⟨self, hself, hlookup⟩, lock, hlock, hmade, ?_⟩
  · -- The replaced file keeps its count, and the replay takes it away.
    have hkept : 3 ∈ taken.nodes.fileMap := by simp [hfiles]
    exact Fs.not_replayed hreplay hkept (by simp) h.replayed
  · have hkept : 2 ∈ lock.nodes.fileMap := by simp [hlive]
    exact Fs.not_replayed hlost hkept (by simp)

end CxxLab.Bluefs
