import CxxLab.Bluefs.Log

/-!
# Records and files

What the operations do to the files that the log is to bring back. `FileOk` relates a file to what
the replay of all records so far makes of it: the replay maps what was logged of the node, and it
has the node itself once the file has not changed since. Every operation that goes through queues
records whose replay keeps that up (`Fs.Logs`).
-/

namespace CxxLab.Bluefs

open Common

/-! ## Records and nodes -/

/-- A record that does not update a node. -/
def LogOp.Quiet : LogOp → Prop
  | .fileUpdate _ => False
  | .fileUpdateInc _ => False
  | _ => True

/-- The file that a record links. -/
def LogOp.links : LogOp → Option ℕ
  | .dirLink _ _ ino => some ino
  | _ => none

namespace Nodes

/-- A record that updates no node, and links no new file, leaves the nodes. -/
theorem fnode_replayOp {n n' : Nodes} {op : LogOp} (h : n.replayOp op = some n') (hq : op.Quiet)
    (hlink : ∀ ino ∈ op.links, ino ∈ n.fileMap) (i : ℕ) : (n'.file i).fnode = (n.file i).fnode := by
  cases op with
  | init | dirCreate | dirRemove | fileRemove | jump | jumpSeq =>
    obtain rfl := Option.some.inj h
    rfl
  | dirLink dir name ino =>
    have hget : n.getFile ino = n := if_pos (hlink ino rfl)
    obtain rfl := Option.some.inj h
    rw [hget]
    cases n.dirMap.lookup dir with
    | none =>
      dsimp only
      rw [file_setFile]
      split_ifs with hi
      · rw [hi]
      · rfl
    | some d =>
      dsimp only
      rw [file_setFile]
      split_ifs with hi
      · rw [hi]
        rfl
      · rfl
  | dirUnlink dir name =>
    unfold replayOp at h
    dsimp only at h
    split at h
    · obtain rfl := Option.some.inj h
      rfl
    · split at h
      · obtain rfl := Option.some.inj h
        rfl
      · rename_i ino _
        split_ifs at h
        obtain rfl := Option.some.inj h
        change ((n.setFile ino _).file i).fnode = _
        rw [file_setFile]
        split_ifs with hi
        · rw [hi]
        · rfl
  | fileUpdate fnode => exact absurd hq id
  | fileUpdateInc delta => exact absurd hq id

/-- A full update sets the node of its file. -/
theorem fnode_fileUpdate {n n' : Nodes} {fnode : Fnode} (h : n.replayOp (.fileUpdate fnode) = some n')
    (i : ℕ) : (n'.file i).fnode = if i = fnode.ino then fnode.decoded else
      ((n.getFile fnode.ino).file i).fnode := by
  obtain rfl := Option.some.inj h
  dsimp only
  rw [file_setFile]
  split_ifs <;> rfl

/-- Operations are replayed one after the other. -/
theorem replayOps_cons_iff {n n' : Nodes} {op : LogOp} {ops : List LogOp} :
    n.replayOps (op :: ops) = some n' ↔
      ∃ m, n.replayOp op = some m ∧ m.replayOps ops = some n' := by
  unfold replayOps
  rw [List.foldlM_cons]
  exact Option.bind_eq_some_iff

/-- Records that link nothing leave the nodes. -/
theorem fnode_replayOps {ops : List LogOp} (hops : ∀ op ∈ ops, op.Quiet ∧ op.links = none)
    {n n' : Nodes} (h : n.replayOps ops = some n') (i : ℕ) :
    (n'.file i).fnode = (n.file i).fnode := by
  induction ops generalizing n with
  | nil =>
    obtain rfl := Option.some.inj h
    rfl
  | cons op ops ih =>
    obtain ⟨m, hm, h⟩ := replayOps_cons_iff.mp h
    obtain ⟨hquiet, hlinks⟩ := hops op List.mem_cons_self
    rw [ih (fun op hop => hops op (List.mem_cons_of_mem _ hop)) h]
    exact fnode_replayOp hm hquiet (by simp [hlinks]) i

/-- A file that is got leaves the others. -/
theorem file_getFile {n : Nodes} {ino i : ℕ} (h : i ≠ ino ∨ i ∈ n.fileMap) :
    (n.getFile ino).file i = n.file i := by
  unfold getFile
  split_ifs with hmem
  · rfl
  · rw [file_addFile, if_neg]
    rintro rfl
    exact h.elim (fun hne => hne rfl) hmem

/-- Looking a file up makes it, if it is not there. -/
theorem mem_fileMap_getFile (n : Nodes) (ino i : ℕ) :
    i ∈ (n.getFile ino).fileMap ↔ i = ino ∨ i ∈ n.fileMap := by
  unfold getFile
  split_ifs with hmem
  · constructor
    · exact .inr
    · rintro (rfl | h)
      · exact hmem
      · exact h
  · exact mem_fileMap_addFile _ _ _ _

end Nodes

/-! ## Files and their replay -/

/-- A file has not changed since it was logged. -/
def Fs.Clean (fs : Fs) (ino : ℕ) : Prop :=
  (fs.nodes.file ino).isDirty = false ∧ ino ∉ fs.dirty.files fs.dirty.seqLive

/-- What the replay has of a file. -/
structure FileOk (fs : Fs) (n : Nodes) (ino : ℕ) : Prop where
  /-- The count of its node is right. -/
  sized : (fs.nodes.file ino).fnode.Sized
  /-- The replay maps what was logged. -/
  logged : (fs.nodes.file ino).fnode.Logged (n.file ino).fnode
  /-- The replay has the node, if it has not changed since. -/
  same : fs.Clean ino → (fs.nodes.file ino).fnode.Same (n.file ino).fnode

/-- A file whose nodes stay, and that is not cleaner than it was. -/
theorem FileOk.mono {fs fs' : Fs} {n n' : Nodes} {ino : ℕ} (h : FileOk fs n ino)
    (hmem : (fs'.nodes.file ino).fnode = (fs.nodes.file ino).fnode)
    (hrep : (n'.file ino).fnode = (n.file ino).fnode) (hclean : fs'.Clean ino → fs.Clean ino) :
    FileOk fs' n' ino := by
  refine ⟨hmem ▸ h.sized, ?_, fun hc => ?_⟩
  · rw [hmem, hrep]
    exact h.logged
  · rw [hmem, hrep]
    exact h.same (hclean hc)

/-- A file whose node was just logged. -/
theorem FileOk.of_update {fs : Fs} {n : Nodes} {ino : ℕ} {f : Fnode}
    (h : f.allocated = f.spread.length) (hmem : (fs.nodes.file ino).fnode = f.resetDelta)
    (hrep : (n.file ino).fnode = f.decoded) : FileOk fs n ino := by
  obtain ⟨hlogged, hsame⟩ := Fnode.logged_decoded h
  rw [← hmem, ← hrep] at hlogged hsame
  exact ⟨hmem ▸ Fnode.resetDelta_sized h, hlogged, fun _ => hsame⟩

/-- `dirty_`, and what the files know of it. -/
structure DirtyOk (fs : Fs) : Prop where
  /-- The files of `seq_live` are there. -/
  live : ∀ ino ∈ fs.dirty.files fs.dirty.seqLive, ino ∈ fs.nodes.fileMap ∧ ino ≠ 1
  /-- They know that they are among them. -/
  known : ∀ ino ∈ fs.nodes.fileMap,
    (fs.nodes.file ino).dirtySeq = fs.dirty.seqLive ↔ ino ∈ fs.dirty.files fs.dirty.seqLive
  /-- No file has a later number. -/
  bound : ∀ ino ∈ fs.nodes.fileMap, (fs.nodes.file ino).dirtySeq ≤ fs.dirty.seqLive
  /-- There are no files of later numbers. -/
  later : ∀ k, fs.dirty.seqLive < k → fs.dirty.files k = []
  /-- `seq_live` is not stable. -/
  stable : fs.dirty.seqStable < fs.dirty.seqLive
  /-- The files that are there are not deleted. -/
  kept : ∀ ino ∈ fs.nodes.fileMap, (fs.nodes.file ino).deleted = false

/-- The same `dirty_`, but for what is to be released. -/
structure Dirty.Alike (d d' : Dirty) : Prop where
  /-- `files`. -/
  files : d'.files = d.files
  /-- `seq_live`. -/
  seqLive : d'.seqLive = d.seqLive
  /-- `seq_stable`. -/
  seqStable : d'.seqStable = d.seqStable

/-- The dirty files are like themselves. -/
theorem Dirty.Alike.refl (d : Dirty) : d.Alike d := ⟨rfl, rfl, rfl⟩

/-- The same files, as far as `dirty_` goes. -/
theorem DirtyOk.of_alike {fs fs' : Fs} (h : DirtyOk fs) (hd : fs.dirty.Alike fs'.dirty)
    (hmap : fs'.nodes.fileMap = fs.nodes.fileMap)
    (hfile : ∀ i, (fs'.nodes.file i).dirtySeq = (fs.nodes.file i).dirtySeq ∧
      (fs'.nodes.file i).deleted = (fs.nodes.file i).deleted) : DirtyOk fs' := by
  constructor
  · rw [hd.files, hd.seqLive, hmap]
    exact h.live
  · intro ino hino
    rw [hd.files, hd.seqLive, (hfile ino).1]
    exact h.known ino (hmap ▸ hino)
  · intro ino hino
    rw [hd.seqLive, (hfile ino).1]
    exact h.bound ino (hmap ▸ hino)
  · rw [hd.files, hd.seqLive]
    exact h.later
  · rw [hd.seqLive, hd.seqStable]
    exact h.stable
  · intro ino hino
    rw [(hfile ino).2]
    exact h.kept ino (hmap ▸ hino)

/-- A file is gone. -/
theorem DirtyOk.of_dropped {fs fs' : Fs} {ino : ℕ} (h : DirtyOk fs) (hnodup : fs.nodes.fileMap.Nodup)
    (hmap : fs'.nodes.fileMap = fs.nodes.fileMap.erase ino)
    (hlive : fs'.dirty.seqLive = fs.dirty.seqLive)
    (hstable : fs'.dirty.seqStable = fs.dirty.seqStable)
    (hsub : ∀ k i, i ∈ fs'.dirty.files k → i ∈ fs.dirty.files k)
    (hnow : ∀ i, i ∈ fs'.dirty.files fs.dirty.seqLive ↔
      i ≠ ino ∧ i ∈ fs.dirty.files fs.dirty.seqLive)
    (hfile : ∀ i, i ≠ ino → (fs'.nodes.file i).dirtySeq = (fs.nodes.file i).dirtySeq ∧
      (fs'.nodes.file i).deleted = (fs.nodes.file i).deleted) : DirtyOk fs' := by
  have hmem : ∀ i, i ∈ fs'.nodes.fileMap ↔ i ≠ ino ∧ i ∈ fs.nodes.fileMap := by
    intro i
    rw [hmap]
    exact hnodup.mem_erase_iff
  constructor
  · intro i hi
    rw [hlive, hnow] at hi
    obtain ⟨hi1, hone⟩ := h.live i hi.2
    exact ⟨(hmem i).mpr ⟨hi.1, hi1⟩, hone⟩
  · intro i hi
    obtain ⟨hne, hi⟩ := (hmem i).mp hi
    rw [hlive, hnow, (hfile i hne).1, h.known i hi]
    simp [hne]
  · intro i hi
    obtain ⟨hne, hi⟩ := (hmem i).mp hi
    rw [hlive, (hfile i hne).1]
    exact h.bound i hi
  · intro k hk
    rw [hlive] at hk
    refine List.eq_nil_iff_forall_not_mem.mpr fun i hi => ?_
    have hi' := hsub k i hi
    rw [h.later k hk] at hi'
    cases hi'
  · rw [hlive, hstable]
    exact h.stable
  · intro i hi
    obtain ⟨hne, hi⟩ := (hmem i).mp hi
    rw [(hfile i hne).2]
    exact h.kept i hi

/-- A file that has changed no more than another says. -/
theorem Fs.Clean.of_alike {fs fs' : Fs} {ino : ℕ} (h : fs'.Clean ino)
    (hd : fs.dirty.Alike fs'.dirty)
    (hfile : (fs'.nodes.file ino).isDirty = (fs.nodes.file ino).isDirty) : fs.Clean ino := by
  unfold Fs.Clean at h ⊢
  rw [hd.files, hd.seqLive, hfile] at h
  exact h

/-! ## Steps -/

/-- The same memory with other records. -/
def Fs.withT (fs : Fs) (t : List LogOp) : Fs := { fs with t := t }

/-- The node of a file that is not the log. -/
theorem Plain.fileUpdate {f : Fnode} {ops : List LogOp} (h : f.ino ≠ 1) (hops : Plain ops) :
    Plain (.fileUpdate f :: ops) := fun logSeq size => by
  rw [seqAfter, if_neg h]
  exact hops logSeq size

/-- A delta of a file that is not the log. -/
theorem Plain.fileUpdateInc {d : FnodeDelta} {ops : List LogOp} (h : d.ino ≠ 1) (hops : Plain ops) :
    Plain (.fileUpdateInc d :: ops) := fun logSeq size => by
  rw [seqAfter, if_neg h]
  exact hops logSeq size

/-- What an operation that queues `ops` does to the files and `dirty_`. -/
structure Fs.Step (fs fs' : Fs) (ops : List LogOp) : Prop where
  /-- The records have no jump, and none of the log itself. -/
  plain : Plain ops
  /-- The node of the log is what it was. -/
  log : (fs'.nodes.file 1).fnode = (fs.nodes.file 1).fnode
  /-- `dirty_` is in order. -/
  dirty : DirtyOk fs → DirtyOk fs'
  /-- Its number is as it was. -/
  seqLive : fs'.dirty.seqLive = fs.dirty.seqLive
  /-- The replay of the records keeps up with the files. -/
  files : DirtyOk fs → ∀ n n' : Nodes, n.view = fs.nodes.view →
    (∀ ino ∈ fs.nodes.fileMap, ino ≠ 1 → FileOk fs n ino) → n.replayOps ops = some n' →
    ∀ ino ∈ fs'.nodes.fileMap, ino ≠ 1 → FileOk fs' n' ino

namespace Fs.Step

variable {fs fs' : Fs} {ops : List LogOp}

/-- Where no node changes, in memory or in the replay, and there may be fewer files. -/
theorem of_nodes (hdirty : DirtyOk fs → DirtyOk fs')
    (hlive : fs'.dirty.seqLive = fs.dirty.seqLive)
    (hmap : ∀ i ∈ fs'.nodes.fileMap, i ∈ fs.nodes.fileMap)
    (hfile : ∀ i, (fs'.nodes.file i).fnode = (fs.nodes.file i).fnode)
    (hclean : ∀ i ∈ fs'.nodes.fileMap, fs'.Clean i → fs.Clean i)
    (hplain : Plain ops)
    (hops : ∀ n n' : Nodes, n.view = fs.nodes.view → n.replayOps ops = some n' →
      ∀ i, (n'.file i).fnode = (n.file i).fnode) : fs.Step fs' ops :=
  ⟨hplain, by rw [hfile], hdirty, hlive, fun _ n n' hv h hr ino hino hone =>
    (h ino (hmap ino hino) hone).mono (hfile ino) (hops n n' hv hr ino) (hclean ino hino)⟩

/-- Where no node changes, and the files stay. -/
theorem of_same (hd : fs.dirty.Alike fs'.dirty) (hmap : fs'.nodes.fileMap = fs.nodes.fileMap)
    (hfile : ∀ i, ∃ refs locked,
      fs'.nodes.file i = { fs.nodes.file i with refs := refs, locked := locked })
    (hplain : Plain ops)
    (hops : ∀ n n' : Nodes, n.view = fs.nodes.view → n.replayOps ops = some n' →
      ∀ i, (n'.file i).fnode = (n.file i).fnode) : fs.Step fs' ops := by
  have hnode : ∀ i, (fs'.nodes.file i).fnode = (fs.nodes.file i).fnode ∧
      (fs'.nodes.file i).isDirty = (fs.nodes.file i).isDirty ∧
      (fs'.nodes.file i).dirtySeq = (fs.nodes.file i).dirtySeq ∧
      (fs'.nodes.file i).deleted = (fs.nodes.file i).deleted := by
    intro i
    obtain ⟨refs, locked, hi⟩ := hfile i
    rw [hi]
    exact ⟨rfl, rfl, rfl, rfl⟩
  exact of_nodes (fun h => h.of_alike hd hmap fun i => (hnode i).2.2) hd.seqLive
    (fun i hi => hmap ▸ hi) (fun i => (hnode i).1) (fun i _ hc => hc.of_alike hd (hnode i).2.1)
    hplain hops

/-- A step that does and logs nothing. -/
theorem refl (fs : Fs) : fs.Step fs [] := by
  refine of_same (Dirty.Alike.refl _) rfl (fun i => ⟨_, _, rfl⟩) (fun _ _ => rfl) fun n n' _ hr i => ?_
  obtain rfl := Option.some.inj hr
  rfl

/-- Where a file loses its last name. -/
theorem of_dropped {ino : ℕ} (dir name : Str) (hnodup : fs.nodes.fileMap.Nodup)
    (hmap : fs'.nodes.fileMap = fs.nodes.fileMap.erase ino)
    (hlive : fs'.dirty.seqLive = fs.dirty.seqLive)
    (hstable : fs'.dirty.seqStable = fs.dirty.seqStable)
    (hsub : ∀ k i, i ∈ fs'.dirty.files k → i ∈ fs.dirty.files k)
    (hnow : DirtyOk fs → ∀ i, i ∈ fs'.dirty.files fs.dirty.seqLive ↔
      i ≠ ino ∧ i ∈ fs.dirty.files fs.dirty.seqLive)
    (hfile : ∀ i, fs'.nodes.file i = if i = ino then
      { fs.nodes.file ino with
        refs := 0, deleted := true, dirtySeq := (fs'.nodes.file ino).dirtySeq }
      else fs.nodes.file i) : fs.Step fs' [.dirUnlink dir name, .fileRemove ino] := by
  have hmem : ∀ i ∈ fs'.nodes.fileMap, i ≠ ino ∧ i ∈ fs.nodes.fileMap := by
    intro i hi
    rw [hmap] at hi
    exact hnodup.mem_erase_iff.mp hi
  have hfnode : ∀ i, (fs'.nodes.file i).fnode = (fs.nodes.file i).fnode := by
    intro i
    rw [hfile]
    split_ifs with hi
    · rw [hi]
    · rfl
  refine ⟨fun _ _ => rfl, by rw [hfnode], fun h => ?_, hlive, fun hd n n' _ h hr i hi hone => ?_⟩
  · refine h.of_dropped hnodup hmap hlive hstable hsub (hnow h) fun i hi => ?_
    rw [hfile, if_neg hi]
    exact ⟨rfl, rfl⟩
  · obtain ⟨hne, hi'⟩ := hmem i hi
    refine (h i hi' hone).mono (hfnode i)
      (Nodes.fnode_replayOps (by simp [LogOp.Quiet, LogOp.links]) hr i) fun hc => ⟨?_, fun hin => ?_⟩
    · have := hc.1
      rwa [hfile, if_neg hne] at this
    · refine hc.2 ?_
      rw [hlive]
      exact (hnow hd i).mpr ⟨hne, hin⟩

/-- Where a file is put among those of `seq_live`. -/
theorem of_signalled {ino : ℕ} (hmem : ino ∈ fs.nodes.fileMap) (hone : ino ≠ 1)
    (hmap : fs'.nodes.fileMap = fs.nodes.fileMap)
    (hfile : ∀ i, fs'.nodes.file i = if i = ino then
      { fs.nodes.file ino with dirtySeq := fs.dirty.seqLive, isDirty := false }
      else fs.nodes.file i)
    (hlive : fs'.dirty.seqLive = fs.dirty.seqLive)
    (hstable : fs'.dirty.seqStable = fs.dirty.seqStable)
    (hnow : ∀ i, i ∈ fs'.dirty.files fs.dirty.seqLive ↔
      i = ino ∨ i ∈ fs.dirty.files fs.dirty.seqLive)
    (hother : ∀ k, k ≠ fs.dirty.seqLive → ∀ i ∈ fs'.dirty.files k, i ∈ fs.dirty.files k) :
    fs.Step fs' [] := by
  have hfnode : ∀ i, (fs'.nodes.file i).fnode = (fs.nodes.file i).fnode := by
    intro i
    rw [hfile]
    split_ifs with hi
    · rw [hi]
    · rfl
  refine of_nodes (fun h => ?_) hlive (fun i hi => hmap ▸ hi) hfnode (fun i _ hc => ?_)
    (fun _ _ => rfl) fun n n' _ hr i => Nodes.fnode_replayOps (by simp) hr i
  -- The dirty lists of the two states differ in the list of `seq_live` only.
  · constructor
    · intro i hi
      rw [hlive, hnow] at hi
      rw [hmap]
      rcases hi with rfl | hi
      · exact ⟨hmem, hone⟩
      · exact h.live i hi
    · intro i hi
      rw [hlive, hnow, hfile]
      split_ifs with hii
      · simp [hii]
      · rw [h.known i (hmap ▸ hi)]
        simp [hii]
    · intro i hi
      rw [hlive, hfile]
      split_ifs with hii
      · exact le_refl _
      · exact h.bound i (hmap ▸ hi)
    · intro k hk
      rw [hlive] at hk
      refine List.eq_nil_iff_forall_not_mem.mpr fun i hi => ?_
      have hi' := hother k hk.ne' i hi
      rw [h.later k hk] at hi'
      cases hi'
    · rw [hlive, hstable]
      exact h.stable
    · intro i hi
      rw [hfile]
      split_ifs with hii
      · exact h.kept ino hmem
      · exact h.kept i (hmap ▸ hi)
  -- A file that is clean now was clean before.
  · obtain ⟨hdirty, hout⟩ := hc
    rw [hlive, hnow, not_or] at hout
    rw [hfile, if_neg hout.1] at hdirty
    exact ⟨hdirty, hout.2⟩

/-- Where the node of one file changes, and is logged. -/
theorem of_update {ino : ℕ} {f : Fnode} {isDirty : Bool} (hone : ino ≠ 1) (hf : f.ino = ino)
    (halloc : f.allocated = f.spread.length) (hd : fs.dirty.Alike fs'.dirty)
    (hmap : fs'.nodes.fileMap = fs.nodes.fileMap)
    (hfile : ∀ i, fs'.nodes.file i =
      if i = ino then { fs.nodes.file ino with fnode := f.resetDelta, isDirty := isDirty }
      else fs.nodes.file i) : fs.Step fs' [.fileUpdate f] := by
  have hkeep : ∀ i, (fs'.nodes.file i).dirtySeq = (fs.nodes.file i).dirtySeq ∧
      (fs'.nodes.file i).deleted = (fs.nodes.file i).deleted := by
    intro i
    rw [hfile]
    split_ifs with hi
    · rw [hi]
      exact ⟨rfl, rfl⟩
    · exact ⟨rfl, rfl⟩
  refine ⟨.fileUpdate (hf ▸ hone) fun _ _ => rfl, by rw [hfile, if_neg hone.symm],
    fun h => h.of_alike hd hmap hkeep, hd.seqLive, fun _ n n' hv h hr i hi hi1 => ?_⟩
  obtain ⟨n1, hn1, hr⟩ := Nodes.replayOps_cons_iff.mp hr
  obtain rfl : n1 = n' := Option.some.inj hr
  have hrep := Nodes.fnode_fileUpdate hn1 i
  rw [hf] at hrep
  by_cases hii : i = ino
  · rw [if_pos hii] at hrep
    exact FileOk.of_update halloc (by rw [hfile, if_pos hii]) hrep
  · rw [if_neg hii, Nodes.file_getFile (.inl hii)] at hrep
    exact (h i (hmap ▸ hi) hi1).mono (by rw [hfile, if_neg hii]) hrep fun hc =>
      hc.of_alike hd (by rw [hfile, if_neg hii])

end Fs.Step

/-- A file that is gone changes. -/
theorem Fs.Inv.aside {fs : Fs} {logFnode : Fnode} {N : Namespace} (h : fs.Inv logFnode N) {ino : ℕ}
    {f : File} (hout : ino ∉ fs.nodes.fileMap) (hrefs : f.refs = (fs.nodes.file ino).refs)
    (d : Dirty) : Fs.Inv logFnode ⟨fs.nodes.setFile ino f, d, fs.t⟩ N := by
  have hview : (fs.nodes.setFile ino f).view = fs.nodes.view := Nodes.view_setFile hrefs
  refine ⟨h.names, h.inoLast, hview ▸ h.valid, h.nodup, h.pos, fun i hi => ?_, fun i hi => ?_, ?_⟩
  · exact (congrFun (congrArg View.refs hview) i).trans (h.fresh i hi)
  · have hne : i ≠ ino := fun e => hout (e ▸ hi)
    dsimp only
    rw [Nodes.file_setFile, if_neg hne]
    exact h.inos i hi
  · dsimp only
    rw [hview]
    exact h.replayed

/-- An operation goes through, whatever was queued before, and queues `ops`. -/
structure Fs.Logs (op : Fs → Option Fs) (fs fs' : Fs) (ops : List LogOp) : Prop where
  /-- What it gives. -/
  run : ∀ t, op (fs.withT t) = some (fs'.withT (t ++ ops))
  /-- What it does to the files. -/
  step : fs.Step fs' ops

namespace Fs.Logs

variable {fs : Fs}

/-- An operation that does nothing. -/
theorem refl {op : Fs → Option Fs} (h : ∀ t, op (fs.withT t) = some (fs.withT t)) :
    Fs.Logs op fs fs [] := by
  refine ⟨fun t => ?_, Fs.Step.refl fs⟩
  rw [h, List.append_nil]

/-- `mkdir` logs what it does. -/
theorem mkdir (fs : Fs) (dir : Str) :
    ∃ fs' ops, Fs.Logs (fun fs => some (fs.mkdir dir).2) fs fs' ops := by
  cases hd : fs.nodes.dirMap.lookup dir with
  | some d => exact ⟨fs, [], refl fun t => by simp [Fs.mkdir, Fs.withT, hd]⟩
  | none =>
    refine ⟨{ fs with nodes := { fs.nodes with dirMap := fs.nodes.dirMap.insert dir ∅ } },
      [.dirCreate dir], fun t => by simp [Fs.mkdir, Fs.withT, Fs.queue, hd], ?_⟩
    exact Fs.Step.of_same (Dirty.Alike.refl _) rfl (fun i => ⟨_, _, rfl⟩) (fun _ _ => rfl)
      fun n n' _ hr i => Nodes.fnode_replayOps (by simp [LogOp.Quiet, LogOp.links]) hr i

/-- `rmdir` logs what it does. -/
theorem rmdir (fs : Fs) (dir : Str) :
    ∃ fs' ops, Fs.Logs (fun fs => some (fs.rmdir dir).2) fs fs' ops := by
  cases hd : fs.nodes.dirMap.lookup dir with
  | none => exact ⟨fs, [], refl fun t => by simp [Fs.rmdir, Fs.withT, hd]⟩
  | some d =>
    by_cases he : d.entries = []
    · refine ⟨{ fs with nodes := { fs.nodes with dirMap := fs.nodes.dirMap.erase dir } },
        [.dirRemove dir], fun t => by simp [Fs.rmdir, Fs.withT, Fs.queue, hd, he], ?_⟩
      exact Fs.Step.of_same (Dirty.Alike.refl _) rfl (fun i => ⟨_, _, rfl⟩) (fun _ _ => rfl)
        fun n n' _ hr i => Nodes.fnode_replayOps (by simp [LogOp.Quiet, LogOp.links]) hr i
    · exact ⟨fs, [], refl fun t => by simp [Fs.rmdir, Fs.withT, hd, he]⟩

/-- `lock_file` logs what it does, if the name is free. -/
theorem lockFile {dir name : Str} (hfree : NamesFree fs (.lockFile dir name)) :
    ∃ fs' ops, Fs.Logs (fun fs => some (fs.lockFile dir name).2) fs fs' ops := by
  cases hd : fs.nodes.dirMap.lookup dir with
  | none => exact ⟨fs, [], refl fun t => by simp [Fs.lockFile, Fs.withT, hd]⟩
  | some d =>
    have hsome : fs.nodes.lookup dir name ≠ none := hfree (by simp [hd])
    rw [Nodes.lookup, hd] at hsome
    obtain ⟨ino, hname⟩ := Option.ne_none_iff_exists'.mp hsome
    have hname' : d.lookup name = some ino := hname
    by_cases hl : (fs.nodes.file ino).locked = true
    · exact ⟨fs, [], refl fun t => by simp [Fs.lockFile, Fs.withT, hd, hname', hl]⟩
    · refine ⟨{ fs with nodes := fs.nodes.setFile ino { fs.nodes.file ino with locked := true } },
        [], fun t => by simp [Fs.lockFile, Fs.withT, hd, hname', hl], ?_⟩
      refine Fs.Step.of_same (Dirty.Alike.refl _) rfl (fun i => ?_) (fun _ _ => rfl)
        fun n n' _ hr i => Nodes.fnode_replayOps (by simp) hr i
      dsimp only
      rw [Nodes.file_setFile]
      split_ifs with hi
      · rw [hi]
        exact ⟨_, _, rfl⟩
      · exact ⟨_, _, rfl⟩

/-- `rename` logs what it does, if the new name is free. -/
theorem rename {logFnode : Fnode} {N : Namespace} {t : List LogOp}
    (h : (fs.withT t).Inv logFnode N) {oldDir oldName newDir newName : Str}
    (hfree : NamesFree fs (.rename oldDir oldName newDir newName)) :
    ∃ fs' ops, Fs.Logs (fun fs => some (fs.rename oldDir oldName newDir newName).2) fs fs' ops := by
  cases hod : fs.nodes.dirMap.lookup oldDir with
  | none => exact ⟨fs, [], refl fun t => by simp [Fs.rename, Fs.withT, hod]⟩
  | some od =>
    cases hold : od.lookup oldName with
    | none => exact ⟨fs, [], refl fun t => by simp [Fs.rename, Fs.withT, hod, hold]⟩
    | some ino =>
      cases hnd : fs.nodes.dirMap.lookup newDir with
      | none => exact ⟨fs, [], refl fun t => by simp [Fs.rename, Fs.withT, hod, hold, hnd]⟩
      | some nd =>
        have hnone : fs.nodes.lookup newDir newName = none :=
          hfree (by rw [Nodes.lookup, hod]; simp [hold])
        rw [Nodes.lookup, hnd] at hnone
        have hnone' : nd.lookup newName = none := hnone
        obtain ⟨-, -, -, hmem⟩ := h.lookup_mem hod hold
        have hino : (fs.nodes.file ino).fnode.ino = ino := h.inos ino hmem
        refine ⟨(fs.rename oldDir oldName newDir newName).2, [.dirLink newDir newName ino,
          .dirUnlink oldDir oldName], fun t => ?_, ?_⟩
        · simp [Fs.rename, Fs.withT, Fs.queue, hod, hold, hnd, hnone', hino]
        · have hnodes : (fs.rename oldDir oldName newDir newName).2.nodes.file = fs.nodes.file ∧
              (fs.rename oldDir oldName newDir newName).2.nodes.fileMap = fs.nodes.fileMap := by
            simp only [Fs.rename, Fs.queue, hod, hold, hnd, hnone']
            cases (fs.nodes.link newDir nd newName ino).dirMap.lookup oldDir <;> exact ⟨rfl, rfl⟩
          refine Fs.Step.of_same ?_ hnodes.2 (fun i => ?_) (fun _ _ => rfl) fun n n' hv hr i => ?_
          · simp only [Fs.rename, Fs.queue, hod, hold, hnd, hnone']
            exact Dirty.Alike.refl _
          · rw [hnodes.1]
            exact ⟨_, _, rfl⟩
          · obtain ⟨n1, hn1, hr⟩ := Nodes.replayOps_cons_iff.mp hr
            have hlive : ino ∈ n.view.live := by
              rw [hv]
              exact hmem
            rw [Nodes.fnode_replayOps (by simp [LogOp.Quiet, LogOp.links]) hr i]
            refine Nodes.fnode_replayOp hn1 trivial (fun i hi => ?_) i
            obtain rfl : ino = i := Option.some.inj hi
            exact hlive

/-- The memory without a file that has lost its last name; `files` is what `dirty_` still has. -/
def dropped (fs : Fs) (n : Nodes) (ino dirtySeq : ℕ) (files : ℕ → List ℕ) : Fs where
  nodes := Nodes.setFile { n with fileMap := n.fileMap.erase ino } ino
    { n.file ino with refs := 0, deleted := true, dirtySeq := dirtySeq }
  dirty := { fs.dirty with
    files := files
    pendingRelease := fs.dirty.pendingRelease ++ (n.file ino).fnode.extents }
  t := fs.t

/-- `unlink` logs what it does. -/
theorem unlink {logFnode : Fnode} {N : Namespace} {t : List LogOp}
    (h : (fs.withT t).Inv logFnode N) (dir name : Str) :
    ∃ fs' ops, Fs.Logs (fun fs => (fs.unlink dir name).map Prod.snd) fs fs' ops := by
  -- An error changes nothing.
  cases hdir : fs.nodes.dirMap.lookup dir with
  | none => exact ⟨fs, [], refl fun t => by simp [Fs.unlink, Fs.withT, hdir]⟩
  | some d =>
    cases hname : d.lookup name with
    | none => exact ⟨fs, [], refl fun t => by simp [Fs.unlink, Fs.withT, hdir, hname]⟩
    | some ino =>
      obtain ⟨-, hpos, hone, hmem⟩ := h.lookup_mem hdir hname
      have hmem' : ino ∈ fs.nodes.fileMap := hmem
      have hino : (fs.nodes.file ino).fnode.ino = ino := h.inos ino hmem
      have hnodup : fs.nodes.fileMap.Nodup := h.nodup
      have hrefs : (fs.nodes.file ino).refs ≠ 0 := hpos.ne'
      by_cases h0 : (fs.nodes.file ino).refs - 1 = 0
      -- The last name has gone, so the file is dropped.
      · have hfile : ∀ dirtySeq files i,
            (dropped fs (fs.nodes.unlink dir d name) ino dirtySeq files).nodes.file i =
              if i = ino then { fs.nodes.file ino with
                refs := 0, deleted := true, dirtySeq := dirtySeq } else fs.nodes.file i :=
          fun _ _ i => Nodes.file_setFile _ ino i _
        have hself : ∀ dirtySeq files,
            ((dropped fs (fs.nodes.unlink dir d name) ino dirtySeq files).nodes.file ino).dirtySeq =
              dirtySeq := by
          intro dirtySeq files
          rw [hfile, if_pos rfl]
        have hout : DirtyOk fs → (fs.nodes.file ino).dirtySeq ≠ fs.dirty.seqLive →
            ∀ i, i ∈ fs.dirty.files fs.dirty.seqLive ↔
              i ≠ ino ∧ i ∈ fs.dirty.files fs.dirty.seqLive := by
          intro hd hne i
          refine ⟨fun hi => ⟨?_, hi⟩, And.right⟩
          rintro rfl
          exact hne ((hd.known i hmem').mpr hi)
        by_cases hs : fs.dirty.seqStable < (fs.nodes.file ino).dirtySeq
        · -- The file is also taken out of its number.
          refine ⟨dropped fs (fs.nodes.unlink dir d name) ino fs.dirty.seqStable
            (Function.update fs.dirty.files (fs.nodes.file ino).dirtySeq
              ((fs.dirty.files (fs.nodes.file ino).dirtySeq).filter (· ≠ ino))),
            [.dirUnlink dir name, .fileRemove ino], fun t => ?_, ?_⟩
          · simp [Fs.unlink, Fs.dropLink, Fs.withT, Fs.queue, Fs.release, Nodes.unlink, dropped,
              Nodes.setFile, hdir, hname, hrefs, h0, hs, hino]
          · refine Fs.Step.of_dropped dir name hnodup rfl rfl rfl (fun k i hi => ?_)
              (fun hd i => ?_) fun i => by rw [hself, hfile]
            · by_cases hk : k = (fs.nodes.file ino).dirtySeq
              · subst hk
                simp only [dropped, Function.update_self, List.mem_filter] at hi
                exact hi.1
              · simpa [dropped, Function.update_of_ne hk] using hi
            · by_cases hk : fs.dirty.seqLive = (fs.nodes.file ino).dirtySeq
              · simp only [dropped]
                rw [hk, Function.update_self, List.mem_filter, and_comm]
                simp
              · simp only [dropped]
                rw [Function.update_of_ne hk]
                exact (hout hd fun e => hk e.symm) i
        · refine ⟨dropped fs (fs.nodes.unlink dir d name) ino (fs.nodes.file ino).dirtySeq
            fs.dirty.files, [.dirUnlink dir name, .fileRemove ino], fun t => ?_, ?_⟩
          · simp [Fs.unlink, Fs.dropLink, Fs.withT, Fs.queue, Fs.release, Nodes.unlink, dropped,
              Nodes.setFile, hdir, hname, hrefs, h0, hs, hino]
          · refine Fs.Step.of_dropped dir name hnodup rfl rfl rfl (fun k i hi => hi)
              (fun hd => hout hd ?_) fun i => by rw [hself, hfile]
            have := hd.stable
            omega
      -- It has another name, and only the count changes.
      · refine ⟨⟨(fs.nodes.unlink dir d name).setFile ino
          { fs.nodes.file ino with refs := (fs.nodes.file ino).refs - 1 }, fs.dirty, fs.t⟩,
          [.dirUnlink dir name], fun t => ?_, ?_⟩
        · simp [Fs.unlink, Fs.dropLink, Fs.withT, Fs.queue, Nodes.unlink, Nodes.setFile, hdir,
            hname, hrefs, h0]
        · refine Fs.Step.of_same (Dirty.Alike.refl _) rfl (fun i => ?_) (fun _ _ => rfl)
            fun n n' _ hr i => Nodes.fnode_replayOps (by simp [LogOp.Quiet, LogOp.links]) hr i
          dsimp only
          rw [Nodes.file_setFile]
          split_ifs with hi
          · rw [hi]
            exact ⟨_, _, rfl⟩
          · exact ⟨_, _, rfl⟩

/-- A file is made. -/
theorem created {logFnode : Fnode} {N : Namespace} {t : List LogOp}
    (h : (fs.withT t).Inv logFnode N) (hlive : 0 < fs.dirty.seqLive) {dir name : Str} {d : Dir}
    (hdir : fs.nodes.dirMap.lookup dir = some d) (hname : d.lookup name = none) (now : ℕ) :
    ∃ fs' ops, Fs.Logs (fun fs => some (fs.openForWrite dir name false now).2) fs fs' ops := by
  -- The number of the new file is not in use.
  obtain ⟨ino, hino⟩ : ∃ ino, ino = fs.nodes.inoLast + 1 := ⟨_, rfl⟩
  have hone : ino ≠ 1 := by
    have : 1 ≤ fs.nodes.inoLast := h.pos
    omega
  have hout : ino ∉ fs.nodes.fileMap := by
    intro hmem
    have hfresh : (fs.nodes.file ino).refs = 0 :=
      h.fresh ino (show fs.nodes.inoLast < ino by omega)
    rcases (h.valid.live ino).mp hmem with h1 | hpos
    · exact hone h1
    · exact hpos.ne' hfresh
  obtain ⟨n, hn⟩ : ∃ n, n = Nodes.setFile (Nodes.link (Nodes.addFile
      { fs.nodes with inoLast := ino } ino { File.new ino now with refs := 1 }) dir d name ino) ino
      { File.new ino now with refs := 1 } := ⟨_, rfl⟩
  -- The file is the one more.
  have hmap : ∀ i, i ∈ n.fileMap ↔ i = ino ∨ i ∈ fs.nodes.fileMap := by
    intro i
    rw [hn]
    exact Nodes.mem_fileMap_addFile { fs.nodes with inoLast := ino } ino i
      { File.new ino now with refs := 1 }
  have hfile : ∀ i, n.file i = if i = ino then { File.new ino now with refs := 1 }
      else fs.nodes.file i := by
    intro i
    rw [hn, Nodes.file_setFile]
    split_ifs with hi
    · rfl
    · change (Nodes.addFile { fs.nodes with inoLast := ino } ino
        { File.new ino now with refs := 1 }).file i = _
      rw [Nodes.file_addFile, if_neg hi]
  refine ⟨{ fs with nodes := n }, [.fileUpdate (Fnode.new ino 0 now), .dirLink dir name ino],
    fun t => ?_, ⟨.fileUpdate hone fun _ _ => rfl, ?_, fun hd => ?_, rfl,
      fun hd k k' hv hok hr i hi hi1 => ?_⟩⟩
  · simp [Fs.openForWrite, Fs.withT, hdir, hname, Fs.opFileUpdate, Fs.queue, Nodes.link, File.new,
      Fnode.new, Fnode.resetDelta, hn, hino]
  · rw [hfile, if_neg hone.symm]
  -- The lists of dirty files are as they were.
  · constructor
    · intro i hi
      obtain ⟨hmem, hi1⟩ := hd.live i hi
      exact ⟨(hmap i).mpr (.inr hmem), hi1⟩
    · intro i hi
      dsimp only
      rw [hfile]
      split_ifs with hii
      · have hnot : i ∉ fs.dirty.files fs.dirty.seqLive := fun hin => hout (hii ▸ (hd.live i hin).1)
        simp only [File.new, hnot, iff_false]
        omega
      · exact hd.known i (((hmap i).mp hi).resolve_left hii)
    · intro i hi
      dsimp only
      rw [hfile]
      split_ifs with hii
      · exact Nat.zero_le _
      · exact hd.bound i (((hmap i).mp hi).resolve_left hii)
    · exact hd.later
    · exact hd.stable
    · intro i hi
      dsimp only
      rw [hfile]
      split_ifs with hii
      · rfl
      · exact hd.kept i (((hmap i).mp hi).resolve_left hii)
  -- The replay has first the node, then the name.
  · obtain ⟨k1, hk1, hr⟩ := Nodes.replayOps_cons_iff.mp hr
    obtain ⟨k2, hk2, hr⟩ := Nodes.replayOps_cons_iff.mp hr
    obtain rfl : k2 = k' := Option.some.inj hr
    have hupdate := Nodes.fnode_fileUpdate hk1 i
    have hlink : (k2.file i).fnode = (k1.file i).fnode := by
      refine Nodes.fnode_replayOp hk2 trivial (fun j hj => ?_) i
      obtain rfl : ino = j := Option.some.inj hj
      obtain rfl := Option.some.inj hk1
      exact (Nodes.mem_fileMap_getFile k ino ino).mpr (.inl rfl)
    rw [hupdate] at hlink
    by_cases hii : i = ino
    · rw [if_pos (show i = (Fnode.new ino 0 now).ino from hii)] at hlink
      refine FileOk.of_update (f := Fnode.new ino 0 now) rfl ?_ hlink
      dsimp only
      rw [hfile, if_pos hii]
      rfl
    · have hii' : i ≠ (Fnode.new ino 0 now).ino := hii
      rw [if_neg hii', Nodes.file_getFile (.inl hii')] at hlink
      have hsame : n.file i = fs.nodes.file i := by rw [hfile, if_neg hii]
      refine (hok i (((hmap i).mp hi).resolve_left hii) hi1).mono (by rw [hsame]) hlink
        fun hc => ⟨?_, hc.2⟩
      rw [← hsame]
      exact hc.1

/-- `open_for_write` logs what it does. -/
theorem openForWrite {logFnode : Fnode} {N : Namespace} {t : List LogOp}
    (h : (fs.withT t).Inv logFnode N) (hlive : 0 < fs.dirty.seqLive)
    (hsized : ∀ ino ∈ fs.nodes.fileMap, ino ≠ 1 → (fs.nodes.file ino).fnode.Sized)
    (dir name : Str) (overwrite : Bool) (now : ℕ) :
    ∃ fs' ops,
      Fs.Logs (fun fs => some (fs.openForWrite dir name overwrite now).2) fs fs' ops := by
  cases hdir : fs.nodes.dirMap.lookup dir with
  | none => exact ⟨fs, [], refl fun t => by simp [Fs.openForWrite, Fs.withT, hdir]⟩
  | some d =>
    cases hname : d.lookup name with
    | none =>
      cases overwrite with
      | true => exact ⟨fs, [], refl fun t => by simp [Fs.openForWrite, Fs.withT, hdir, hname]⟩
      | false => exact created h hlive hdir hname now
    | some ino =>
      obtain ⟨-, -, hone, hmem⟩ := h.lookup_mem hdir hname
      have hino : (fs.nodes.file ino).fnode.ino = ino := h.inos ino hmem
      have hall := (hsized ino hmem hone).allocated
      -- The node is changed and logged, and its old extents may be released.
      cases overwrite with
      | true =>
        obtain ⟨f, hf⟩ : ∃ f, f = { (fs.nodes.file ino).fnode with mtime := now } := ⟨_, rfl⟩
        refine ⟨⟨fs.nodes.setFile ino { fs.nodes.file ino with fnode := f.resetDelta }, fs.dirty,
          fs.t⟩, [.fileUpdate f], fun t => ?_, ?_⟩
        · simp [Fs.openForWrite, Fs.withT, hdir, hname, Fs.opFileUpdate, Fs.queue, Nodes.setFile, hf]
        · exact Fs.Step.of_update hone (by rw [hf]; exact hino) (by rw [hf]; exact hall)
            (Dirty.Alike.refl _) rfl fun i => Nodes.file_setFile _ _ _ _
      | false =>
        obtain ⟨f, hf⟩ : ∃ f, f = { { (fs.nodes.file ino).fnode with size := 0 }.clearExtents with
          mtime := now } := ⟨_, rfl⟩
        refine ⟨⟨fs.nodes.setFile ino { fs.nodes.file ino with fnode := f.resetDelta },
          (fs.release (fs.nodes.file ino).fnode.extents).dirty, fs.t⟩, [.fileUpdate f],
          fun t => ?_, ?_⟩
        · simp [Fs.openForWrite, Fs.withT, hdir, hname, Fs.opFileUpdate, Fs.queue, Fs.release,
            Nodes.setFile, hf]
        · exact Fs.Step.of_update hone (by rw [hf]; exact hino) (by rw [hf]; rfl)
            ⟨rfl, rfl, rfl⟩ rfl fun i => Nodes.file_setFile _ _ _ _

/-- The operations on names that meet the condition. -/
theorem name {logFnode : Fnode} {N : Namespace} {t : List LogOp}
    (h : (fs.withT t).Inv logFnode N) (hlive : 0 < fs.dirty.seqLive)
    (hsized : ∀ ino ∈ fs.nodes.fileMap, ino ≠ 1 → (fs.nodes.file ino).fnode.Sized)
    {a : NameAction} (ha : NamesFree fs a) :
    ∃ fs' ops, Fs.Logs (fun fs => fs.nameStep a) fs fs' ops := by
  cases a with
  | mkdir dir => exact mkdir fs dir
  | rmdir dir => exact rmdir fs dir
  | openForWrite dir name overwrite now => exact openForWrite h hlive hsized dir name overwrite now
  | unlink dir name => exact unlink h dir name
  | rename oldDir oldName newDir newName => exact rename h ha
  | lockFile dir name => exact lockFile ha

/-! ### Files -/

/-- An operation on a file, which leaves the names. -/
def Keeps (fs fs' : Fs) (ops : List LogOp) : Prop :=
  ∀ (logFnode : Fnode) (N : Namespace) (t : List LogOp), (fs.withT t).Inv logFnode N →
    (fs'.withT (t ++ ops)).Inv logFnode N

/-- A step that does nothing keeps everything. -/
theorem Keeps.refl (fs : Fs) : Keeps fs fs [] := by
  intro logFnode N t h
  rwa [List.append_nil]

/-- A flush of data logs the growth of its file. -/
theorem flushRange
    (hino : ∀ ino ∈ fs.nodes.fileMap, (fs.nodes.file ino).fnode.ino = ino) {ino : ℕ}
    (hw : fs.HasWriter ino) (es : List Extent) (stop : ℕ) :
    ∃ fs' ops, Fs.Logs (fun fs => some (fs.flushRange ino es stop)) fs fs' ops ∧
      Keeps fs fs' ops := by
  obtain ⟨hpos, hw⟩ := hw
  -- A deleted file is left alone.
  cases hdel : (fs.nodes.file ino).deleted with
  | true => exact ⟨fs, [], refl fun t => by simp [Fs.flushRange, Fs.withT, hdel], Keeps.refl fs⟩
  | false =>
    have hdel' : ¬ (fs.nodes.file ino).deleted = true := by simp [hdel]
    have hmem : ino ∈ fs.nodes.fileMap := hw.resolve_right hdel'
    -- The node with the new extents and the new size.
    obtain ⟨f, hf⟩ : ∃ f, f = fs.nodes.file ino := ⟨_, rfl⟩
    obtain ⟨g, hg⟩ : ∃ g, g = { f.fnode.claimExtents es with
      size := max (f.fnode.claimExtents es).size stop } := ⟨_, rfl⟩
    obtain ⟨hspread, hall, hinos, hsize, hmtime, hcomm⟩ := f.fnode.claimExtents_spec es
    obtain ⟨f', hf'⟩ : ∃ f', f' = { f with
      fnode := g
      isDirty := f.isDirty || !es.isEmpty || decide ((f.fnode.claimExtents es).size < stop) } :=
      ⟨_, rfl⟩
    -- Only this file changes.
    have hfile : ∀ i, (fs.nodes.setFile ino f').file i = if i = ino then f' else fs.nodes.file i :=
      fun i => Nodes.file_setFile _ _ _ _
    have hkeep : ∀ i, ((fs.nodes.setFile ino f').file i).dirtySeq = (fs.nodes.file i).dirtySeq ∧
        ((fs.nodes.setFile ino f').file i).deleted = (fs.nodes.file i).deleted := by
      intro i
      rw [hfile]
      split_ifs with hi
      · rw [hi, hf', ← hf]
        exact ⟨rfl, rfl⟩
      · exact ⟨rfl, rfl⟩
    -- Nothing is logged yet, so the node may be ahead of the replay.
    refine ⟨{ fs with nodes := fs.nodes.setFile ino f' }, [], ⟨fun t => ?_, fun _ _ => rfl, ?_,
      fun h => h.of_alike (Dirty.Alike.refl _) rfl hkeep, rfl, fun _ n n' _ h hr i hi hi1 => ?_⟩, ?_⟩
    · have hrun : (fs.withT t).flushRange ino es stop =
          { fs.withT t with nodes := fs.nodes.setFile ino f' } := by
        rw [hf', hg, hf]
        exact if_neg hdel'
      rw [hrun, List.append_nil]
      rfl
    · rw [hfile, if_neg (show 1 ≠ ino by omega)]
    · obtain rfl := Option.some.inj hr
      have hold := h i hi hi1
      by_cases hii : i = ino
      · have hsame : (fs.nodes.setFile ino f').file i = f' := by rw [hfile, if_pos hii]
        have hi' : fs.nodes.file i = f := by rw [hf, hii]
        obtain ⟨hsized, hlogged, hclean⟩ := hold
        rw [hi'] at hsized hlogged hclean
        have hnode : f'.fnode = g := by rw [hf']
        refine ⟨?_, ?_, fun hc => ?_⟩ <;> dsimp only <;> rw [hsame, hnode]
        · have := hsized.claimExtents es
          rw [hg]
          exact ⟨this.allocated, this.committed⟩
        · rw [hg]
          exact hlogged.claimExtents hsized es _
        · -- Nothing was appended, and the size is what it was.
          obtain ⟨hdirty, hout⟩ := hc
          dsimp only at hdirty
          rw [hsame, hf'] at hdirty
          simp only [Bool.or_eq_false_iff, Bool.not_eq_false', List.isEmpty_iff,
            decide_eq_false_iff_not, not_lt] at hdirty
          obtain ⟨⟨hdirty, rfl⟩, hstop⟩ := hdirty
          obtain ⟨hsame1, hsame2, hsame3⟩ := hclean ⟨by rw [hi']; exact hdirty, hout⟩
          rw [hg]
          exact ⟨hsame1, hsame2.trans (max_eq_left hstop).symm, hsame3⟩
      · refine hold.mono ?_ rfl fun hc => hc.of_alike (Dirty.Alike.refl _) ?_
        · rw [hfile, if_neg hii]
        · rw [hfile, if_neg hii]
    · intro logFnode N t h
      refine h.update (f := f') hmem ?_ ?_ (.inl rfl) rfl rfl
      · rw [hf', hf]
        rfl
      · rw [hf', hg]
        exact hinos.trans (hf ▸ hino ino hmem)

/-- `truncate` logs the new node of its file. -/
theorem truncate
    (hino : ∀ ino ∈ fs.nodes.fileMap, (fs.nodes.file ino).fnode.ino = ino) {ino : ℕ}
    (hw : fs.HasWriter ino) (offset : ℕ) :
    ∃ fs' ops, Fs.Logs (fun fs => some (fs.truncate ino offset).2) fs fs' ops ∧
      Keeps fs fs' ops := by
  obtain ⟨hpos, hw⟩ := hw
  -- A deleted file is left alone.
  cases hdel : (fs.nodes.file ino).deleted with
  | true => exact ⟨fs, [], refl fun t => by simp [Fs.truncate, Fs.withT, hdel], Keeps.refl fs⟩
  | false =>
    have hdel' : ¬ (fs.nodes.file ino).deleted = true := by simp [hdel]
    have hmem : ino ∈ fs.nodes.fileMap := hw.resolve_right hdel'
    have hone : ¬ (fs.nodes.file ino).fnode.ino ≤ 1 := by
      rw [hino ino hmem]
      omega
    by_cases hsize : (fs.nodes.file ino).fnode.size < offset ∨ offset = (fs.nodes.file ino).fnode.size
    · refine ⟨fs, [], refl fun t => ?_, Keeps.refl fs⟩
      rcases hsize with h | h
      · simp [Fs.truncate, Fs.withT, hdel, hone, h]
      · simp [Fs.truncate, Fs.withT, hdel, hone, h]
    · rw [not_or] at hsize
      obtain ⟨f, hf⟩ : ∃ f, f = fs.nodes.file ino := ⟨_, rfl⟩
      obtain ⟨r, hr⟩ : ∃ r, r = cutExtents offset 0 f.fnode.extents := ⟨_, rfl⟩
      obtain ⟨cut, hcut⟩ : ∃ cut : Fnode, cut =
        { f.fnode with extents := [], extentsIndex := [], allocated := 0 } := ⟨_, rfl⟩
      obtain ⟨g, hg⟩ : ∃ g, g = { cut.claimExtents r.1 with size := offset } := ⟨_, rfl⟩
      obtain ⟨hspread, hall, hinos, -, -, -⟩ := cut.claimExtents_spec r.1
      have hgino : g.ino = ino := by
        rw [hg]
        exact hinos.trans (by rw [hcut, hf]; exact hino ino hmem)
      have hgall : g.allocated = g.spread.length := by
        rw [hg]
        show (cut.claimExtents r.1).allocated = (cut.claimExtents r.1).spread.length
        rw [hspread, hall, List.length_append, length_spread, hcut]
        rfl
      refine ⟨⟨fs.nodes.setFile ino { f with fnode := g.resetDelta, isDirty := true },
        (fs.release r.2).dirty, fs.t⟩, [.fileUpdate g], ⟨fun t => ?_, ?_⟩, fun logFnode N t h => ?_⟩
      · have hrun : (fs.withT t).truncate ino offset = (0, (Fs.release { fs.withT t with
            nodes := fs.nodes.setFile ino { f with fnode := g, isDirty := true } } r.2).opFileUpdate
              ino) := by
          rw [hg, hcut, hr, hf]
          exact (if_neg hdel').trans ((if_neg hone).trans ((if_neg hsize.1).trans
            (if_neg hsize.2)))
        rw [hrun]
        simp only [Fs.opFileUpdate, Fs.queue, Fs.release, Nodes.setFile, Function.update_self,
          Function.update_idem]
        rfl
      · exact Fs.Step.of_update (show ino ≠ 1 by omega) hgino hgall ⟨rfl, rfl, rfl⟩ rfl fun i => by
          rw [← hf]
          exact Nodes.file_setFile _ _ _ _
      · exact h.update (f := { f with fnode := g.resetDelta, isDirty := true }) hmem
          (by rw [hf]; rfl) hgino (.inr ⟨g, hgino, rfl⟩) rfl rfl

/-- `fsync` logs what its file has become. -/
theorem fsyncDirty (hd : DirtyOk fs)
    (hino : ∀ ino ∈ fs.nodes.fileMap, (fs.nodes.file ino).fnode.ino = ino) {ino : ℕ}
    (hw : fs.HasWriter ino) :
    ∃ fs' ops, Fs.Logs (fun fs => some (fs.fsyncDirty ino)) fs fs' ops ∧ Keeps fs fs' ops := by
  obtain ⟨hpos, hw⟩ := hw
  -- A file that is not dirty has nothing to log.
  cases hdirty : (fs.nodes.file ino).isDirty with
  | false => exact ⟨fs, [], refl fun t => by simp [Fs.fsyncDirty, Fs.withT, hdirty], Keeps.refl fs⟩
  | true =>
    cases hdel : (fs.nodes.file ino).deleted with
    | true =>
      -- The file is gone.
      have hout : ino ∉ fs.nodes.fileMap := fun hin => by
        rw [hd.kept ino hin] at hdel
        cases hdel
      refine ⟨⟨fs.nodes.setFile ino { fs.nodes.file ino with isDirty := false }, fs.dirty, fs.t⟩,
        [], ⟨fun t => ?_, ?_⟩, fun logFnode N t h => ?_⟩
      · simp [Fs.fsyncDirty, Fs.signalDirtyToLog, Fs.withT, hdirty, hdel]
      -- Only the mark has changed.
      · have hfile : ∀ i, ((fs.nodes.setFile ino
            { fs.nodes.file ino with isDirty := false }).file i).fnode = (fs.nodes.file i).fnode := by
          intro i
          rw [Nodes.file_setFile]
          split_ifs with hi
          · rw [hi]
          · rfl
        have hsame : ∀ i ∈ fs.nodes.fileMap, (fs.nodes.setFile ino
            { fs.nodes.file ino with isDirty := false }).file i = fs.nodes.file i := by
          intro i hi
          rw [Nodes.file_setFile, if_neg]
          rintro rfl
          exact hout hi
        refine Fs.Step.of_nodes (fun _ => ?_) rfl (fun i hi => hi) hfile (fun i hi hc => ?_)
          (fun _ _ => rfl) fun n n' _ hr i => Nodes.fnode_replayOps (by simp) hr i
        · refine ⟨hd.live, fun i hi => ?_, fun i hi => ?_, hd.later, hd.stable, fun i hi => ?_⟩ <;>
            dsimp only <;> rw [hsame i hi]
          · exact hd.known i hi
          · exact hd.bound i hi
          · exact hd.kept i hi
        · refine ⟨?_, hc.2⟩
          rw [← hsame i hi]
          exact hc.1
      · rw [List.append_nil]
        exact h.aside (f := { fs.nodes.file ino with isDirty := false }) hout rfl fs.dirty
    | false =>
      have hmem : ino ∈ fs.nodes.fileMap := hw.resolve_right (by simp [hdel])
      have hone : ino ≠ 1 := by omega
      have hbound := hd.bound ino hmem
      have hstable := hd.stable
      have hkeeps : ∀ d, Keeps fs ⟨fs.nodes.setFile ino { fs.nodes.file ino with
          dirtySeq := fs.dirty.seqLive, isDirty := false }, d, fs.t⟩ [] := by
        intro d logFnode N t h
        exact h.update (f := { fs.nodes.file ino with
          dirtySeq := fs.dirty.seqLive, isDirty := false }) hmem rfl (hino ino hmem) (.inl rfl)
          rfl rfl
      by_cases hseq : (fs.nodes.file ino).dirtySeq = fs.dirty.seqLive
      · -- The file is there already.
        have hmove : ¬ (fs.dirty.seqStable < (fs.nodes.file ino).dirtySeq ∧
            (fs.nodes.file ino).dirtySeq ≠ fs.dirty.seqLive) := by omega
        have hpush : ¬ ((fs.nodes.file ino).dirtySeq ≤ fs.dirty.seqStable ∨
            (fs.nodes.file ino).dirtySeq = 0) := by omega
        refine ⟨_, [], ⟨fun t => ?_, ?_⟩, hkeeps fs.dirty⟩
        · rw [← hseq]
          simp [Fs.fsyncDirty, Fs.signalDirtyToLog, Fs.withT, hdirty, hdel, hmove, hpush,
            Nodes.setFile]
        · refine Fs.Step.of_signalled hmem hone rfl (fun i => Nodes.file_setFile _ _ _ _) rfl rfl
            (fun i => ?_) fun _ _ _ hi => hi
          constructor
          · exact .inr
          · rintro (rfl | hi)
            · exact (hd.known i hmem).mp hseq
            · exact hi
      · by_cases hold : fs.dirty.seqStable < (fs.nodes.file ino).dirtySeq
        · -- The file is moved from an earlier number.
          have hmove : fs.dirty.seqStable < (fs.nodes.file ino).dirtySeq ∧
            (fs.nodes.file ino).dirtySeq ≠ fs.dirty.seqLive := ⟨hold, hseq⟩
          obtain ⟨others, ho⟩ : ∃ others, others = Function.update fs.dirty.files
            (fs.nodes.file ino).dirtySeq
              ((fs.dirty.files (fs.nodes.file ino).dirtySeq).filter (· ≠ ino)) := ⟨_, rfl⟩
          have hsub : ∀ k, ∀ i ∈ others k, i ∈ fs.dirty.files k := by
            intro k i hi
            rw [ho, Function.update_apply] at hi
            split_ifs at hi with hk
            · rw [hk]
              exact (List.mem_filter.mp hi).1
            · exact hi
          have hlive : others fs.dirty.seqLive = fs.dirty.files fs.dirty.seqLive := by
            rw [ho]
            exact Function.update_of_ne (Ne.symm hseq) _ _
          refine ⟨_, [], ⟨fun t => ?_, ?_⟩, hkeeps { fs.dirty with
            files := Function.update others fs.dirty.seqLive
              (others fs.dirty.seqLive ++ [ino]) }⟩
          · simp [Fs.fsyncDirty, Fs.signalDirtyToLog, Fs.withT, hdirty, hdel, hmove,
              Nodes.setFile, Fs.pushDirty, ho]
          · refine Fs.Step.of_signalled hmem hone rfl (fun i => Nodes.file_setFile _ _ _ _) rfl rfl
              (fun i => ?_) fun k hk i hi => ?_
            · simp [or_comm, hlive]
            · dsimp only at hi
              rw [Function.update_of_ne hk] at hi
              exact hsub k i hi
        -- It is in no list, and joins that of the live number.
        · have hmove : ¬ (fs.dirty.seqStable < (fs.nodes.file ino).dirtySeq ∧
              (fs.nodes.file ino).dirtySeq ≠ fs.dirty.seqLive) := fun h => hold h.1
          have hpush : (fs.nodes.file ino).dirtySeq ≤ fs.dirty.seqStable ∨
            (fs.nodes.file ino).dirtySeq = 0 := .inl (not_lt.mp hold)
          refine ⟨_, [], ⟨fun t => ?_, ?_⟩, hkeeps { fs.dirty with
            files := Function.update fs.dirty.files fs.dirty.seqLive
              (fs.dirty.files fs.dirty.seqLive ++ [ino]) }⟩
          · simp [Fs.fsyncDirty, Fs.signalDirtyToLog, Fs.withT, hdirty, hdel, hmove, hpush,
              Nodes.setFile, Fs.pushDirty]
          · refine Fs.Step.of_signalled hmem hone rfl (fun i => Nodes.file_setFile _ _ _ _) rfl rfl
              (fun i => ?_) fun k hk i hi => ?_
            · simp [or_comm]
            · dsimp only at hi
              rw [Function.update_of_ne hk] at hi
              exact hi

end Fs.Logs

end CxxLab.Bluefs
