import CxxLab.Bluefs.LogSteps

/-!
# Failed flushes

Where no flush has failed, the log has all records that were queued, and its replay gives the names
and the nodes in memory. A flush takes its number before it can fail, and nothing gives it back: the
next flush that succeeds leaves a gap, at which `_replay` fails. So the log is as it should be
exactly until the first flush fails.

It is read up to the size that the superblock has for it. A flush by itself changes nothing in what
the next mount reads, also when it succeeds; `sync_metadata` and `umount` write the superblock behind
theirs.

A flush that extends the log is left out: the superblock, as `umount` and `sync_metadata` write it,
then has the extents that the record of the log itself adds, and the assertion of `_replay` on that
record fails.
-/

namespace CxxLab.Bluefs

open Common

/-! ## The loop of `_replay` -/

/-- Two transactions without jumps have none together. -/
theorem Plain.append {a b : List LogOp} (ha : Plain a) (hb : Plain b) : Plain (a ++ b) := by
  have hstep : ∀ (a : List LogOp) (q size : ℕ) (r : ℕ × ℕ), seqAfter q size a = some r →
      seqAfter q size (a ++ b) = seqAfter r.1 r.2 b := by
    intro a
    induction a with
    | nil =>
      intro q size r h
      rw [← Option.some.inj h]
      rfl
    | cons op ops ih =>
      intro q size r h
      cases op with
      | jump nextSeq offset => cases h
      | jumpSeq nextSeq =>
        simp only [seqAfter] at h
        rw [List.cons_append, seqAfter]
        split_ifs at h ⊢ with hle
        exact ih _ _ _ h
      | _ => exact ih _ _ r h
  intro q size
  rw [hstep a q size _ (ha q size)]
  exact hb q size

/-- Transactions in their order, each with its length. -/
def chain : ℕ → List (ℕ × List LogOp) → List Piece
  | _, [] => []
  | logSeq, x :: rest => .txn x.1 (logSeq + 1) x.2 :: chain (logSeq + 1) rest

/-- A transaction that is written behind the others gets the next number. -/
theorem chain_append (logSeq : ℕ) (opss : List (ℕ × List LogOp)) (x : ℕ × List LogOp) :
    chain logSeq (opss ++ [x]) =
      chain logSeq opss ++ [.txn x.1 (logSeq + opss.length + 1) x.2] := by
  induction opss generalizing logSeq with
  | nil => rfl
  | cons o opss ih =>
    rw [List.cons_append, chain, ih, chain, List.cons_append, List.length_cons]
    congr 4
    omega

/-- The bytes of parts of the log. -/
def bytes (ps : List Piece) : ℕ := (ps.map Piece.length).sum

/-- No pieces have no bytes. -/
@[simp] theorem bytes_nil : bytes [] = 0 := rfl

/-- The first piece counts with its length. -/
@[simp] theorem bytes_cons (p : Piece) (ps : List Piece) : bytes (p :: ps) = p.length + bytes ps :=
  List.sum_cons

/-- The lengths of two lists of pieces add up. -/
@[simp] theorem bytes_append (ps qs : List Piece) : bytes (ps ++ qs) = bytes ps + bytes qs := by
  rw [bytes, List.map_append, List.sum_append]
  rfl

/-- A part of the log that has bytes, and whose records do not move the loop. -/
structure Piece.Regular (p : Piece) : Prop where
  /-- It has bytes. -/
  length : 0 < p.length
  /-- Its records. -/
  plain : ∀ length seq ops, p = .txn length seq ops → Plain ops

/-- Operations that are read one after the other. -/
theorem map_append_map (a b : List LogOp) (x : Except ℤ (List LogOp)) :
    (x.map (b ++ ·)).map (a ++ ·) = x.map ((a ++ b) ++ ·) := by
  cases x <;> simp [Except.map]

/-- `_replay` reads the transactions that are in order, and goes on behind them. -/
theorem scan_chain {opss : List (ℕ × List LogOp)} {logSeq : ℕ}
    (h : ∀ p ∈ chain logSeq opss, p.Regular) (rest : List Piece) (seenRecs : Bool) {size pos : ℕ}
    (hsize : pos + bytes (chain logSeq opss) ≤ size) :
    scan seenRecs size pos logSeq (chain logSeq opss ++ rest) =
      (scan (seenRecs || !opss.isEmpty) size (pos + bytes (chain logSeq opss))
        (logSeq + opss.length) rest).map ((opss.map Prod.snd).flatten ++ ·) := by
  induction opss generalizing seenRecs pos logSeq with
  | nil =>
    rw [chain, List.nil_append, List.isEmpty_nil, Bool.not_true, Bool.or_false]
    show scan seenRecs size pos logSeq rest = (scan seenRecs size pos logSeq rest).map ([] ++ ·)
    cases scan seenRecs size pos logSeq rest <;> rfl
  | cons x opss ih =>
    obtain ⟨hlen, hplain⟩ := h _ List.mem_cons_self
    have hops : seqAfter logSeq size x.2 = some (logSeq, size) := hplain _ _ _ rfl logSeq size
    have hlen : 0 < x.1 := hlen
    have hbytes : bytes (chain logSeq (x :: opss)) = x.1 + bytes (chain (logSeq + 1) opss) :=
      bytes_cons _ _
    rw [hbytes, ← Nat.add_assoc] at hsize ⊢
    rw [chain, List.cons_append, scan, if_neg (by omega), if_neg (not_not.mpr rfl), hops]
    dsimp only
    rw [ih (fun p hp => h p (List.mem_cons_of_mem _ hp)) _ hsize, Bool.true_or, List.length_cons,
      show logSeq + 1 + opss.length = logSeq + (opss.length + 1) by omega, List.isEmpty_cons,
      Bool.not_false, Bool.or_true, map_append_map, List.map_cons, List.flatten_cons]

/-- The whole log is read where the transactions are in order. -/
theorem scan_eq_ok {opss : List (ℕ × List LogOp)} (h : ∀ p ∈ chain 0 opss, p.Regular) {size : ℕ}
    (hsize : bytes (chain 0 opss) ≤ size) :
    scan false size 0 0 (chain 0 opss) = .ok (opss.map Prod.snd).flatten := by
  have hread := @scan_chain _ _ h [] false size 0 (by rwa [Nat.zero_add])
  rw [List.append_nil] at hread
  rw [hread]
  simp [scan, Except.map]

/-- `_replay` fails at a gap. -/
theorem scan_eq_error {opss : List (ℕ × List LogOp)} (h : ∀ p ∈ chain 0 opss, p.Regular)
    {size seq : ℕ} (hsize : bytes (chain 0 opss) < size) (hseq : opss.length + 1 < seq)
    (length : ℕ) (ops : List LogOp) (rest : List Piece) :
    scan false size 0 0 (chain 0 opss ++ .txn length seq ops :: rest) = .error (-5) := by
  rw [scan_chain h _ _ (by omega), scan, if_neg (by omega), if_pos (by omega), if_neg (by omega)]
  rfl

/-- `_replay` does not read behind the size. -/
theorem scan_append {ps : List Piece} (h : ∀ p ∈ ps, p.Regular) (qs : List Piece) (seenRecs : Bool)
    {size pos : ℕ} (hsize : size ≤ pos + bytes ps) (logSeq : ℕ) :
    scan seenRecs size pos logSeq (ps ++ qs) = scan seenRecs size pos logSeq ps := by
  induction ps generalizing seenRecs pos logSeq with
  | nil =>
    cases qs with
    | nil => rfl
    | cons q qs => exact if_pos hsize
  | cons p ps ih =>
    rw [bytes_cons, ← Nat.add_assoc] at hsize
    rw [List.cons_append]
    cases p with
    | torn length => rfl
    | txn length seq ops =>
      have hsize : size ≤ pos + length + bytes ps := hsize
      rw [scan, scan, (h _ List.mem_cons_self).plain _ _ _ rfl logSeq size]
      dsimp only
      rw [ih (fun p hp => h p (List.mem_cons_of_mem _ hp)) _ hsize]

/-! ## Records of dirty files -/

namespace Nodes

/-- A delta goes through where the replay maps what was logged before it. -/
theorem replay_fileUpdateInc {n : Nodes} (h : n.Counted) (delta : FnodeDelta)
    (hmem : delta.ino ∈ n.fileMap)
    (hoffset : delta.offset = (n.file delta.ino).fnode.allocated) :
    ∃ n', n.replayOp (.fileUpdateInc delta) = some n' ∧ n'.Counted ∧ n'.view = n.view ∧
      ∀ i, (n'.file i).fnode = if i = delta.ino then
        Fnode.claimExtents { (n.file delta.ino).fnode with mtime := delta.mtime, size := delta.size }
          delta.extents else (n.file i).fnode := by
  have hget : n.getFile delta.ino = n := if_pos hmem
  have hrefs : ∀ f i, ((n.setFile delta.ino { n.file delta.ino with fnode := f }).file i).refs =
      (n.file i).refs := by
    intro f i
    rw [file_setFile]
    split_ifs with hi
    · rw [hi]
    · rfl
  simp only [replayOp, hget, if_pos hoffset]
  refine ⟨_, rfl, ⟨h.1, fun i hi => (hrefs _ i).trans (h.2 i hi)⟩,
    View.ext rfl (funext fun i => hrefs _ i) rfl, fun i => ?_⟩
  change ((setFile n delta.ino _).file i).fnode = _
  rw [file_setFile]
  split_ifs <;> rfl

end Nodes

/-- The memory in view of the records so far, which are `t`: whatever node the superblock has of the
log, they give the names and the files; those of `pending` may have changed since. -/
def Fs.Tracked (fs : Fs) (t : List LogOp) (N : Namespace) (pending : List ℕ) : Prop :=
  ∀ logFnode : Fnode, logFnode.ino = 1 → (fs.withT t).Inv logFnode N ∧
    ∀ n, (Nodes.mounted logFnode).replayOps t = some n → ∀ ino ∈ fs.nodes.fileMap, ino ≠ 1 →
      (fs.nodes.file ino).fnode.Sized ∧ (fs.nodes.file ino).fnode.Logged (n.file ino).fnode ∧
        ((fs.nodes.file ino).isDirty = false → ino ∉ pending →
          (fs.nodes.file ino).fnode.Same (n.file ino).fnode)

/-- Files that change in neither names nor numbers. -/
theorem Fs.Inv.of_files {fs fs' : Fs} {logFnode : Fnode} {N : Namespace} (h : fs.Inv logFnode N)
    (hnames : fs'.nodes.names = fs.nodes.names) (hlast : fs'.nodes.inoLast = fs.nodes.inoLast)
    (hmap : fs'.nodes.fileMap = fs.nodes.fileMap) (ht : fs'.t = fs.t)
    (hfile : ∀ i, (fs'.nodes.file i).refs = (fs.nodes.file i).refs ∧
      (fs'.nodes.file i).fnode.ino = (fs.nodes.file i).fnode.ino) : fs'.Inv logFnode N := by
  have hview : fs'.nodes.view = fs.nodes.view := by
    refine View.ext hnames (funext fun i => (hfile i).1) (Set.ext fun i => ?_)
    change i ∈ fs'.nodes.fileMap ↔ i ∈ fs.nodes.fileMap
    rw [hmap]
  refine ⟨hnames.trans h.names, hlast.trans h.inoLast, hview ▸ h.valid, hmap ▸ h.nodup,
    hlast ▸ h.pos, fun i hi => ?_, fun i hi => ?_, ?_⟩
  · rw [(hfile i).1]
    exact h.fresh i (hlast ▸ hi)
  · rw [(hfile i).2]
    exact h.inos i (hmap ▸ hi)
  · rw [ht, hview]
    exact h.replayed

namespace Fs.Tracked

variable {fs fs' : Fs} {t : List LogOp} {N : Namespace} {pending : List ℕ}

/-- The files other than the log are as the log, read to its end, has them. -/
theorem fileOk (h : fs.Tracked t N (fs.dirty.files fs.dirty.seqLive)) {logFnode : Fnode}
    (hlog : logFnode.ino = 1) {n : Nodes} (hn : (Nodes.mounted logFnode).replayOps t = some n) :
    ∀ ino ∈ fs.nodes.fileMap, ino ≠ 1 → FileOk fs n ino := by
  intro ino hino hone
  obtain ⟨hsized, hlogged, hsame⟩ := (h logFnode hlog).2 n hn ino hino hone
  exact ⟨hsized, hlogged, fun hc => hsame hc.1 hc.2⟩

/-- A dirty file is logged. -/
theorem opFileUpdateInc {ino : ℕ} (h : fs.Tracked t N (ino :: pending))
    (hmem : ino ∈ fs.nodes.fileMap) (hone : ino ≠ 1) :
    (fs.opFileUpdateInc ino).Tracked
      (t ++ [.fileUpdateInc (fs.nodes.file ino).fnode.makeDelta]) N pending := by
  intro logFnode hlog
  obtain ⟨hinv, hfiles⟩ := h logFnode hlog
  obtain ⟨n, hn, hc, hv⟩ := hinv.replayed
  have hino : (fs.nodes.file ino).fnode.ino = ino := hinv.inos ino hmem
  obtain ⟨hsized, hlogged, -⟩ := hfiles n hn ino hmem hone
  have hmem' : ino ∈ n.fileMap := by
    have : ino ∈ n.view.live := by
      rw [hv]
      exact hmem
    exact this
  have hdino : (fs.nodes.file ino).fnode.makeDelta.ino = ino := hino
  -- The replay of the delta gives the node that is in memory.
  obtain ⟨n', hn', hc', hv', hf'⟩ := Nodes.replay_fileUpdateInc hc
    (fs.nodes.file ino).fnode.makeDelta (by rw [hdino]; exact hmem')
    (by rw [hdino]; exact hlogged.allocated.symm)
  rw [hdino] at hf'
  have hrun : (Nodes.mounted logFnode).replayOps
      (t ++ [.fileUpdateInc (fs.nodes.file ino).fnode.makeDelta]) = some n' := by
    have hn0 : (Nodes.mounted logFnode).replayOps t = some n := hn
    rw [Nodes.replayOps_append, hn0]
    exact Nodes.replayOps_cons hn' rfl
  have hview : (fs.opFileUpdateInc ino).nodes.view = fs.nodes.view := Nodes.view_setFile rfl
  have hfile : ∀ i, (fs.opFileUpdateInc ino).nodes.file i = if i = ino then
      { fs.nodes.file ino with fnode := (fs.nodes.file ino).fnode.resetDelta }
      else fs.nodes.file i := fun i => Nodes.file_setFile _ _ _ _
  -- The invariant, with only this file in step again.
  refine ⟨⟨hinv.names, hinv.inoLast, ?_, hinv.nodup, hinv.pos, fun i hi => ?_, fun i hi => ?_,
    n', hrun, hc', hv'.trans (hv.trans hview.symm)⟩, fun k hk i hi hi1 => ?_⟩
  · exact hview ▸ hinv.valid
  · exact (congrFun (congrArg View.refs hview) i).trans (hinv.fresh i hi)
  · show ((fs.opFileUpdateInc ino).nodes.file i).fnode.ino = i
    rw [hfile]
    split_ifs with hii
    · exact hino.trans hii.symm
    · exact hinv.inos i hi
  · obtain rfl : n' = k := Option.some.inj (hrun.symm.trans hk)
    rw [hfile, hf']
    by_cases hii : i = ino
    · rw [if_pos hii, if_pos hii]
      obtain ⟨hlogged', hsame⟩ := Fnode.logged_delta hsized hlogged
      exact ⟨Fnode.resetDelta_sized hsized.allocated, hlogged', fun _ _ => hsame⟩
    · rw [if_neg hii, if_neg hii]
      obtain ⟨hsized, hlogged, hsame⟩ := hfiles n hn i hi hi1
      refine ⟨hsized, hlogged, fun hd hp => hsame hd ?_⟩
      rw [List.mem_cons, not_or]
      exact ⟨hii, hp⟩

end Fs.Tracked

/-- What logging dirty files leaves as it is. -/
structure Consumed (fs fs' : Fs) : Prop where
  dirty : fs'.dirty = fs.dirty
  fileMap : fs'.nodes.fileMap = fs.nodes.fileMap
  /-- Files, up to what was logged of their nodes. -/
  file : ∀ i, fs'.nodes.file i = { fs.nodes.file i with
    fnode := { (fs.nodes.file i).fnode with
      allocatedCommitted := (fs'.nodes.file i).fnode.allocatedCommitted } }

/-- Nothing is consumed. -/
theorem Consumed.refl (fs : Fs) : Consumed fs fs := ⟨rfl, rfl, fun _ => rfl⟩

/-- An update of a file consumes its delta. -/
theorem Consumed.opFileUpdateInc (fs : Fs) (ino : ℕ) : Consumed fs (fs.opFileUpdateInc ino) := by
  refine ⟨rfl, rfl, fun i => ?_⟩
  have hfile : (fs.opFileUpdateInc ino).nodes.file i = if i = ino then
      { fs.nodes.file ino with fnode := (fs.nodes.file ino).fnode.resetDelta }
      else fs.nodes.file i := Nodes.file_setFile _ _ _ _
  rw [hfile]
  split_ifs with hi
  · rw [hi]
    rfl
  · rfl

/-- Dirty files are consumed one after the other. -/
theorem Consumed.trans {fs1 fs2 fs3 : Fs} (h : Consumed fs1 fs2) (h' : Consumed fs2 fs3) :
    Consumed fs1 fs3 := by
  refine ⟨h'.dirty.trans h.dirty, h'.fileMap.trans h.fileMap, fun i => ?_⟩
  rw [h'.file i, h.file i]

/-- All dirty files are logged. -/
theorem Fs.Tracked.consume {N : Namespace} (pending : List ℕ) {fs : Fs} {t : List LogOp}
    (h : fs.Tracked t N pending) (hp : ∀ ino ∈ pending, ino ∈ fs.nodes.fileMap ∧ ino ≠ 1) :
    ∃ ops, (pending.foldl Fs.opFileUpdateInc fs).t = fs.t ++ ops ∧ Plain ops ∧
      (pending.foldl Fs.opFileUpdateInc fs).Tracked (t ++ ops) N [] ∧
      Consumed fs (pending.foldl Fs.opFileUpdateInc fs) := by
  induction pending generalizing fs t with
  | nil =>
    refine ⟨[], (List.append_nil _).symm, fun _ _ => rfl, ?_, Consumed.refl fs⟩
    rw [List.append_nil]
    exact h
  | cons ino pending ih =>
    obtain ⟨hmem, hone⟩ := hp ino List.mem_cons_self
    obtain ⟨ops, ht, hplain, htracked, hcons⟩ := ih (h.opFileUpdateInc hmem hone)
      fun i hi => hp i (List.mem_cons_of_mem _ hi)
    have hino : (fs.nodes.file ino).fnode.makeDelta.ino ≠ 1 := by
      obtain ⟨hinv, -⟩ := h (Fnode.new 1 0 0) rfl
      have hnode : (fs.nodes.file ino).fnode.ino = ino := hinv.inos ino hmem
      show (fs.nodes.file ino).fnode.ino ≠ 1
      rwa [hnode]
    refine ⟨.fileUpdateInc (fs.nodes.file ino).fnode.makeDelta :: ops, ?_,
      hplain.fileUpdateInc hino, ?_, (Consumed.opFileUpdateInc fs ino).trans hcons⟩
    · rw [List.foldl_cons, ht]
      exact List.append_assoc _ [_] _
    · rw [List.append_assoc] at htracked
      exact htracked

/-! ## A flush -/

namespace LogFs

/-- The log is written and extended in whole blocks. -/
def Aligned (b : LogFs) : Prop := 4096 ∣ b.pos ∧ 4096 ∣ b.logNode.allocated

/-- A flush that is not skipped, and that may be called. -/
def Flushes (b : LogFs) (wantSeq : ℕ) : Prop :=
  ¬ (wantSeq ≠ 0 ∧ wantSeq ≤ b.fs.dirty.seqStable) ∧ ¬ b.fs.dirty.seqLive < wantSeq

/-- The transaction of a flush has been given to `_flush_log_data`. -/
def claimed (b : LogFs) : LogFs := { b.takeSeq with fs := { b.takeSeq.fs with t := [] } }

/-- A transaction of `length` bytes is in the log file. -/
def written (b : LogFs) (length seq : ℕ) (ops : List LogOp) : LogFs :=
  let f := b.fs.nodes.file 1
  let fnode := { f.fnode with size := max f.fnode.size (b.pos + length) }
  { b with
    fs := { b.fs with nodes := b.fs.nodes.setFile 1 { f with fnode := fnode } }
    pos := b.pos + length
    disk := b.disk ++ [.txn length seq ops] }

/-- A flush that has succeeded with `length` bytes. -/
def synced (b : LogFs) (length : ℕ) : LogFs :=
  (b.claimed.written length b.seqLive b.takeSeq.fs.t).stabilize b.seqLive

/-- `_flush_log_data` where there is room. -/
theorem flushLogData_eq {b : LogFs} {length : ℕ} (hpos : 0 < b.logNode.allocated - b.pos)
    (hfits : length ≤ b.logNode.allocated - b.pos) (env : FlushEnv) (seq : ℕ) (ops : List LogOp) :
    b.flushLogData env length seq ops =
      if env.writes then (0, b.written length seq ops) else (-5, b) := by
  unfold flushLogData
  dsimp only
  cases env.writes with
  | false => exact if_pos ⟨hpos, rfl⟩
  | true =>
    rw [if_neg (fun h => Bool.noConfusion h.2), min_eq_right hfits, if_pos hfits]
    rfl

/-- Logging dirty files does not change how much space the log has. -/
theorem consumeDirty_consumed (fs : Fs) (seq : ℕ) : Consumed fs (consumeDirty fs seq) := by
  have hall : ∀ (l : List ℕ) (fs : Fs), Consumed fs (l.foldl Fs.opFileUpdateInc fs) := by
    intro l
    induction l with
    | nil => exact Consumed.refl
    | cons i l ih => exact fun fs => (Consumed.opFileUpdateInc fs i).trans (ih _)
  exact hall _ fs

/-- Taking a number consumes the dirty files of the number before. -/
theorem takeSeq_consumed (b : LogFs) :
    Consumed { b.fs with dirty := { b.fs.dirty with seqLive := b.seqLive + 1 } } b.takeSeq.fs :=
  consumeDirty_consumed _ _

/-- Taking a number allocates nothing. -/
theorem allocated_takeSeq (b : LogFs) : b.takeSeq.logNode.allocated = b.logNode.allocated := by
  unfold logNode
  rw [b.takeSeq_consumed.file 1]

/-- What a flush that does not extend the log does. -/
theorem flushAndSyncLog_eq {c : LogConfig} {wantSeq : ℕ} {env : FlushEnv} {b : LogFs}
    (hb : b.Aligned) (hf : b.Flushes wantSeq) (hc : b.takeSeq.HasRunway c ∨ env.alloc = none) :
    b.flushAndSyncLog c wantSeq env = some (if b.takeSeq.HasRunway c then
      if env.writes then (0, b.synced (padded (c.encodedLength b.takeSeq.fs.t)))
      else (-5, b.claimed) else (-28, b.takeSeq)) := by
  unfold flushAndSyncLog
  rw [if_neg hf.1, if_neg hf.2]
  dsimp only
  unfold maybeExtendLog
  by_cases hrun : b.takeSeq.HasRunway c
  · rw [if_pos hrun, if_pos hrun]
    dsimp only
    have hroom : b.pos + c.encodedLength b.takeSeq.fs.t + c.minLogRunway < b.logNode.allocated := by
      rw [← allocated_takeSeq]
      exact hrun
    obtain ⟨⟨p, hp⟩, a, ha⟩ := hb
    have hall : (claimed b).logNode.allocated = b.logNode.allocated := allocated_takeSeq b
    have hfits : padded (c.encodedLength b.takeSeq.fs.t) ≤ b.logNode.allocated - b.pos := by
      unfold padded
      omega
    have hpos : 0 < b.logNode.allocated - b.pos := by omega
    have hdata := flushLogData_eq (b := claimed b) (hall ▸ hpos) (hall ▸ hfits) env b.seqLive
      b.takeSeq.fs.t
    change (let r := b.claimed.flushLogData env _ b.seqLive b.takeSeq.fs.t;
      if r.1 < 0 then some r else some (0, r.2.stabilize b.seqLive)) = _
    rw [hdata]
    cases env.writes with
    | false => rfl
    | true => rfl
  · rw [if_neg hrun, if_neg hrun, hc.resolve_left hrun]
    rfl

end LogFs

/-! ## The memory -/

/-- The log file as it lies up to `pos`, and what is queued for it. -/
structure LogFs.Laid (b : LogFs) : Prop where
  /-- Its parts end at `pos`. -/
  pos : bytes b.disk = b.pos
  /-- They have bytes, and no records of the log itself. -/
  regular : ∀ p ∈ b.disk, p.Regular
  /-- Neither has `log_.t`. -/
  queued : Plain b.fs.t
  /-- The size of the log's node is `pos`. -/
  size : b.logNode.size = b.pos

/-- The records so far, which are `t`, give the memory, whether they are in the log or not. -/
structure LogFs.Held (b : LogFs) (t : List LogOp) (N : Namespace) : Prop where
  /-- `dirty_` has the next number. -/
  live : b.fs.dirty.seqLive = b.seqLive
  /-- `dirty_` is in order. -/
  dirty : DirtyOk b.fs
  /-- The records give the memory. -/
  tracked : b.fs.Tracked t N (b.fs.dirty.files b.fs.dirty.seqLive)
  /-- The log has whole blocks. -/
  aligned : b.Aligned
  /-- The log file. -/
  laid : b.Laid

namespace LogFs.Held

variable {b : LogFs} {t : List LogOp} {N : Namespace}

/-- The memory after an operation on names or files. -/
theorem withFs (h : b.Held t N) {op : Fs → Option Fs} {fs' : Fs} {ops : List LogOp}
    {N' : Namespace} (hl : Fs.Logs op b.fs fs' ops)
    (hinv : ∀ logFnode, (b.fs.withT t).Inv logFnode N → (fs'.withT (t ++ ops)).Inv logFnode N') :
    LogFs.Held { b with fs := fs'.withT (b.fs.t ++ ops) } (t ++ ops) N' := by
  obtain ⟨h1, h2, h3, h4, h5, h6⟩ := hl.step.dirty h.dirty
  have hnode : (fs'.nodes.file 1).fnode = b.logNode := hl.step.log
  refine ⟨hl.step.seqLive.trans h.live, ⟨h1, h2, h3, h4, h5, h6⟩, fun logFnode hlog => ?_,
    ⟨h.aligned.1, ?_⟩, h.laid.pos, h.laid.regular, h.laid.queued.append hl.step.plain, ?_⟩
  · obtain ⟨hold, -⟩ := h.tracked logFnode hlog
    obtain ⟨n, hn, -, hv⟩ := hold.replayed
    have hn0 : (Nodes.mounted logFnode).replayOps t = some n := hn
    refine ⟨hinv logFnode hold, fun n' hn' ino hino hone => ?_⟩
    have hops : n.replayOps ops = some n' := by
      have hn1 : (Nodes.mounted logFnode).replayOps (t ++ ops) = some n' := hn'
      rw [Nodes.replayOps_append, hn0] at hn1
      exact hn1
    obtain ⟨hsized, hlogged, hsame⟩ := hl.step.files h.dirty n n' hv
      (h.tracked.fileOk hlog hn0) hops ino hino hone
    exact ⟨hsized, hlogged, fun hd hp => hsame ⟨hd, hp⟩⟩
  · show 4096 ∣ (fs'.nodes.file 1).fnode.allocated
    rw [hnode]
    exact h.aligned.2
  · show (fs'.nodes.file 1).fnode.size = b.pos
    rw [hnode]
    exact h.laid.size

/-- The memory after the beginning of a flush, and its new records. -/
theorem takeSeq (h : b.Held t N) : ∃ ops, b.takeSeq.fs.t = b.fs.t ++ ops ∧
    b.takeSeq.Held (t ++ ops) N ∧
      b.takeSeq.fs.dirty.files b.takeSeq.fs.dirty.seqLive = [] := by
  -- Only the counter and the queue have moved.
  have hcons := b.takeSeq_consumed
  have hlive : b.fs.dirty.seqLive = b.seqLive := h.live
  have hseq : b.takeSeq.fs.dirty.seqLive = b.seqLive + 1 := by rw [hcons.dirty]
  have hstable : b.takeSeq.fs.dirty.seqStable = b.fs.dirty.seqStable := by rw [hcons.dirty]
  have hfiles : b.takeSeq.fs.dirty.files = b.fs.dirty.files := by rw [hcons.dirty]
  have hmap : b.takeSeq.fs.nodes.fileMap = b.fs.nodes.fileMap := hcons.fileMap
  have hnone : b.takeSeq.fs.dirty.files (b.seqLive + 1) = [] := by
    rw [hfiles]
    exact h.dirty.later _ (by omega)
  have hold : ∀ i, (b.takeSeq.fs.nodes.file i).dirtySeq = (b.fs.nodes.file i).dirtySeq ∧
      (b.takeSeq.fs.nodes.file i).deleted = (b.fs.nodes.file i).deleted := by
    intro i
    rw [hcons.file i]
    exact ⟨rfl, rfl⟩
  -- The dirty files are logged.
  have htracked : Fs.Tracked { b.fs with dirty := { b.fs.dirty with seqLive := b.seqLive + 1 } } t N
      (b.fs.dirty.files b.seqLive) := by
    rw [← hlive]
    intro logFnode hlog
    obtain ⟨hinv, hnodes⟩ := h.tracked logFnode hlog
    rw [hlive] at hnodes
    exact ⟨hinv.of_files rfl rfl rfl rfl fun _ => ⟨rfl, rfl⟩, hlive ▸ hnodes⟩
  obtain ⟨ops, ht, hplain, htracked, -⟩ := htracked.consume _ fun ino hino =>
    h.dirty.live ino (by rw [hlive]; exact hino)
  have htracked' : b.takeSeq.fs.Tracked (t ++ ops) N [] := htracked
  have hlaid : b.takeSeq.Laid := by
    refine ⟨h.laid.pos, h.laid.regular, ?_, ?_⟩
    · have hqueued : b.takeSeq.fs.t = b.fs.t ++ ops := ht
      rw [hqueued]
      exact h.laid.queued.append hplain
    · unfold logNode
      rw [hcons.file 1]
      exact h.laid.size
  -- The invariant clause by clause, with the files that were dirty now stable in the queue.
  refine ⟨ops, ht, ⟨hseq, ?_, ?_, ⟨h.aligned.1, ?_⟩, hlaid⟩, by rw [hseq, hnone]⟩
  · constructor
    · intro i hi
      rw [hseq, hnone] at hi
      cases hi
    · intro i hi
      have hbound := h.dirty.bound i (hmap ▸ hi)
      rw [hseq, hnone, (hold i).1]
      simp only [List.not_mem_nil, iff_false]
      omega
    · intro i hi
      have hbound := h.dirty.bound i (hmap ▸ hi)
      rw [hseq, (hold i).1]
      omega
    · intro k hk
      rw [hseq] at hk
      rw [hfiles]
      exact h.dirty.later k (by omega)
    · have := h.dirty.stable
      rw [hseq, hstable]
      omega
    · intro i hi
      rw [(hold i).2]
      exact h.dirty.kept i (hmap ▸ hi)
  · rw [hseq, hnone]
    exact htracked'
  · rw [allocated_takeSeq]
    exact h.aligned.2

/-- Which records are queued does not matter. -/
theorem claimed {b : LogFs} (h : b.takeSeq.Held t N) : b.claimed.Held t N := by
  obtain ⟨h1, h2, h3, h4, h5, h6⟩ := h.dirty
  refine ⟨h.live, ⟨h1, h2, h3, h4, h5, h6⟩, fun logFnode hlog => ?_, h.aligned, h.laid.pos,
    h.laid.regular, fun _ _ => rfl, h.laid.size⟩
  obtain ⟨hinv, hfiles⟩ := h.tracked logFnode hlog
  exact ⟨hinv, hfiles⟩

/-- The files after a flush that succeeds. -/
theorem file_synced (b : LogFs) (length i : ℕ) :
    ∃ size dirtySeq, (b.synced length).fs.nodes.file i = { b.takeSeq.fs.nodes.file i with
        fnode := { (b.takeSeq.fs.nodes.file i).fnode with size := size }, dirtySeq := dirtySeq } ∧
      (size = if i = 1 then max b.takeSeq.logNode.size (b.pos + length)
        else (b.takeSeq.fs.nodes.file i).fnode.size) ∧
      dirtySeq ≤ (b.takeSeq.fs.nodes.file i).dirtySeq := by
  have hwritten : ∀ seq ops, ∃ size, (b.claimed.written length seq ops).fs.nodes.file i =
      { b.takeSeq.fs.nodes.file i with
        fnode := { (b.takeSeq.fs.nodes.file i).fnode with size := size } } ∧
      size = if i = 1 then max b.takeSeq.logNode.size (b.pos + length)
        else (b.takeSeq.fs.nodes.file i).fnode.size := by
    intro seq ops
    have hfile : (b.claimed.written length seq ops).fs.nodes.file i = if i = 1 then
        { b.takeSeq.fs.nodes.file 1 with fnode := { (b.takeSeq.fs.nodes.file 1).fnode with
          size := max (b.takeSeq.fs.nodes.file 1).fnode.size (b.claimed.pos + length) } }
        else b.takeSeq.fs.nodes.file i := Nodes.file_setFile _ _ _ _
    rw [hfile]
    split_ifs with hi
    · exact ⟨_, by rw [hi]; rfl, rfl⟩
    · exact ⟨_, rfl, rfl⟩
  obtain ⟨size, hw, hsize⟩ := hwritten b.seqLive b.takeSeq.fs.t
  by_cases hi : i ∈ (b.claimed.written length b.seqLive b.takeSeq.fs.t).fs.dirty.files b.seqLive
  · refine ⟨size, 0, ?_, hsize, Nat.zero_le _⟩
    refine (if_pos hi).trans ?_
    rw [hw]
  · refine ⟨size, _, ?_, hsize, le_refl _⟩
    refine (if_neg hi).trans ?_
    rw [hw]

/-- The memory after a flush that succeeds. -/
theorem synced {b : LogFs} (h : b.takeSeq.Held t N)
    (hempty : b.takeSeq.fs.dirty.files b.takeSeq.fs.dirty.seqLive = []) {length : ℕ}
    (hlength : 4096 ∣ length) (hpos : 0 < length) :
    (b.synced length).Held t N ∧ (b.synced length).fs.t = [] ∧
      (b.synced length).fs.dirty.files (b.synced length).fs.dirty.seqLive = [] := by
  -- What is dirty from now on has the next number.
  have hcons : b.takeSeq.fs.dirty.seqLive = b.seqLive + 1 := h.live
  have hlive : (b.synced length).fs.dirty.seqLive = b.seqLive + 1 := hcons
  have hother : ∀ k, b.seqLive < k →
      (b.synced length).fs.dirty.files k = b.takeSeq.fs.dirty.files k := fun k hk =>
    Function.update_of_ne hk.ne' _ _
  have hnone : (b.synced length).fs.dirty.files (b.seqLive + 1) = [] := by
    rw [hother _ (Nat.lt_add_one _), ← hcons]
    exact hempty
  -- The blocks on the device end where the log does.
  have hlaid : (b.synced length).Laid := by
    have hpos' : bytes b.disk = b.pos := h.laid.pos
    refine ⟨?_, fun p hp => ?_, fun _ _ => rfl, ?_⟩
    · show bytes (b.disk ++ [_]) = b.pos + length
      rw [bytes_append, hpos']
      rfl
    · rcases List.mem_append.mp hp with hp | hp
      · exact h.laid.regular p hp
      · obtain rfl := List.mem_singleton.mp hp
        refine ⟨hpos, fun len seq ops heq => ?_⟩
        obtain ⟨-, -, rfl⟩ := Piece.txn.inj heq
        exact h.laid.queued
    · obtain ⟨size, dirtySeq, hfile, hsize, -⟩ := file_synced b length 1
      have hold : b.takeSeq.logNode.size = b.pos := h.laid.size
      have hnew : (b.synced length).logNode.size = size := congrArg (fun f => f.fnode.size) hfile
      rw [hnew, hsize, if_pos rfl, hold, max_eq_right (Nat.le_add_right _ _)]
      rfl
  -- The invariant clause by clause, with nothing queued.
  refine ⟨⟨hlive, ⟨?_, ?_, ?_, ?_, ?_, ?_⟩, fun logFnode hlog => ?_, ?_, hlaid⟩, rfl, ?_⟩
  · intro i hi
    rw [hlive, hnone] at hi
    cases hi
  · intro i hi
    obtain ⟨size, dirtySeq, hfile, -, hle⟩ := file_synced b length i
    have hbound := h.dirty.bound i hi
    have hknown := h.dirty.known i hi
    rw [hempty] at hknown
    simp only [List.not_mem_nil, iff_false] at hknown
    rw [hlive, hnone, hfile]
    simp only [List.not_mem_nil, iff_false]
    omega
  · intro i hi
    obtain ⟨size, dirtySeq, hfile, -, hle⟩ := file_synced b length i
    have hbound := h.dirty.bound i hi
    rw [hlive, hfile]
    show dirtySeq ≤ b.seqLive + 1
    omega
  · intro k hk
    rw [hlive] at hk
    rw [hother k (by omega)]
    exact h.dirty.later k (by omega)
  · rw [hlive]
    exact Nat.lt_add_one _
  · intro i hi
    obtain ⟨size, dirtySeq, hfile, -, -⟩ := file_synced b length i
    rw [hfile]
    exact h.dirty.kept i hi
  · obtain ⟨hinv, hold⟩ := h.tracked logFnode hlog
    rw [hempty] at hold
    refine ⟨hinv.of_files rfl rfl rfl rfl fun i => ?_, fun n hn i hi hone => ?_⟩
    · obtain ⟨size, dirtySeq, hfile, -, -⟩ := file_synced b length i
      have hrefs := congrArg File.refs hfile
      have hino := congrArg (fun f => f.fnode.ino) hfile
      exact ⟨hrefs, hino⟩
    · obtain ⟨size, dirtySeq, hfile, hsize, -⟩ := file_synced b length i
      obtain ⟨hsized, hlogged, hsame⟩ := hold n hn i hi hone
      rw [hsize, if_neg hone] at hfile
      rw [hfile]
      exact ⟨hsized, hlogged, fun hd _ => hsame hd List.not_mem_nil⟩
  · obtain ⟨size, dirtySeq, hfile, -, -⟩ := file_synced b length 1
    have hall : (b.synced length).logNode.allocated = b.takeSeq.logNode.allocated :=
      congrArg (fun f => f.fnode.allocated) hfile
    refine ⟨dvd_add h.aligned.1 hlength, ?_⟩
    rw [hall]
    exact h.aligned.2
  · rw [hlive]
    exact hnone

end LogFs.Held

/-- A log without gaps, which has all records but those of `log_.t`. -/
structure LogFs.Intact (b : LogFs) (opss : List (ℕ × List LogOp)) (t : List LogOp) : Prop where
  /-- The transactions are in their order. -/
  disk : b.disk = chain 0 opss
  /-- The next number is free. -/
  seqLive : b.seqLive = opss.length + 1
  /-- All records. -/
  history : t = (opss.map Prod.snd).flatten ++ b.fs.t

/-- A flush that succeeds. -/
theorem LogFs.Intact.synced {b : LogFs} {opss : List (ℕ × List LogOp)} {t ops : List LogOp}
    (h : b.Intact opss t) (ht : b.takeSeq.fs.t = b.fs.t ++ ops) (length : ℕ) :
    (b.synced length).Intact (opss ++ [(length, b.takeSeq.fs.t)]) (t ++ ops) := by
  refine ⟨?_, ?_, ?_⟩
  · change b.disk ++ [.txn length b.seqLive b.takeSeq.fs.t] = _
    rw [chain_append, ← h.disk, h.seqLive, Nat.zero_add]
  · change b.seqLive + 1 = _
    rw [h.seqLive, List.length_append]
    rfl
  · change t ++ ops = _ ++ []
    rw [h.history, ht]
    simp

/-! ## Logs with a gap -/

/-- A log with fewer transactions in their order than numbers were taken. -/
structure LogFs.Gapped (b : LogFs) (opss : List (ℕ × List LogOp)) (rest : List Piece) : Prop where
  /-- The transactions in their order, and what is behind them. -/
  disk : b.disk = chain 0 opss ++ rest
  /-- The next number is not the one that is expected behind them. -/
  seqLive : opss.length + 1 < b.seqLive
  /-- Neither is the number that is behind them. -/
  rest : ∀ p ∈ rest.head?, ∃ length seq ops, p = .txn length seq ops ∧ opss.length + 1 < seq

/-- A log with nothing behind the gap, or with a later transaction. -/
def LogFs.Damaged (b : LogFs) : Prop := ∃ opss rest, b.Gapped opss rest

/-- A log that cannot be read any more. -/
def LogFs.Broken (b : LogFs) : Prop := ∃ opss p rest, b.Gapped opss (p :: rest)

namespace LogFs

variable {b b' : LogFs}

/-- A number that is taken and not written leaves a gap. -/
theorem Intact.damaged {opss : List (ℕ × List LogOp)} {t : List LogOp} (h : b.Intact opss t)
    (hdisk : b'.disk = b.disk) (hseq : b'.seqLive = b.seqLive + 1) : b'.Damaged := by
  refine ⟨opss, [], ?_, ?_, ?_⟩
  · rw [hdisk, h.disk, List.append_nil]
  · rw [hseq, h.seqLive]
    omega
  · simp

/-- Numbers may be taken. -/
theorem Damaged.mono (h : b.Damaged) (hdisk : b'.disk = b.disk) (hseq : b.seqLive ≤ b'.seqLive) :
    b'.Damaged := by
  obtain ⟨opss, rest, h⟩ := h
  exact ⟨opss, rest, hdisk.trans h.disk, h.seqLive.trans_le hseq, h.rest⟩

/-- The next transaction is behind the gap. -/
theorem Damaged.broken (h : b.Damaged) (length : ℕ) (ops : List LogOp)
    (hdisk : b'.disk = b.disk ++ [.txn length b.seqLive ops]) (hseq : b.seqLive ≤ b'.seqLive) :
    b'.Broken := by
  obtain ⟨opss, rest, h⟩ := h
  have happend : b'.disk = chain 0 opss ++ (rest ++ [.txn length b.seqLive ops]) := by
    rw [hdisk, h.disk, List.append_assoc]
  cases rest with
  | nil =>
    refine ⟨opss, _, [], happend, h.seqLive.trans_le hseq, fun p hp => ?_⟩
    obtain rfl := Option.some.inj hp
    exact ⟨_, _, _, rfl, h.seqLive⟩
  | cons p rest =>
    exact ⟨opss, p, rest ++ [Piece.txn length b.seqLive ops], happend, h.seqLive.trans_le hseq,
      h.rest⟩

/-- A log that is broken is damaged. -/
theorem Broken.damaged (h : b.Broken) : b.Damaged := by
  obtain ⟨opss, p, rest, h⟩ := h
  exact ⟨opss, p :: rest, h⟩

/-- Where the superblock covers the log, `_replay` gets to the gap. -/
theorem Broken.readLog (h : b.Broken) (hlaid : b.Laid) {superLog : Fnode}
    (hsuper : b.pos ≤ superLog.size) : b.readLog superLog = .error (-5) := by
  obtain ⟨opss, p, rest, h⟩ := h
  obtain ⟨length, seq, ops, rfl, hseq⟩ := h.rest p rfl
  have hregular := hlaid.regular
  have hpos := hlaid.pos
  rw [h.disk] at hregular hpos
  have hlength := (hregular _ (List.mem_append_right _ List.mem_cons_self)).length
  rw [bytes_append, bytes_cons] at hpos
  unfold LogFs.readLog
  rw [h.disk]
  exact scan_eq_error (fun p hp => hregular p (List.mem_append_left _ hp)) (by omega) hseq length
    ops rest

/-- A mount that finds the given node of the log in the superblock gives the memory: the names, the
files, and the nodes of the files that have not changed since they were signalled. -/
def Recovers (b : LogFs) (superLog : Fnode) : Prop :=
  ∃ ops n, b.readLog superLog = .ok ops ∧
    (Nodes.mounted superLog.decoded).replayOps ops = some n ∧
    n.removeOrphans.view = b.fs.nodes.view ∧
    ∀ ino ∈ b.fs.nodes.fileMap, ino ≠ 1 → (b.fs.nodes.file ino).isDirty = false →
      (b.fs.nodes.file ino).fnode.Same (n.file ino).fnode

/-- A log with a gap in its numbers does not recover, wherever the superblock says that it ends. -/
theorem Broken.not_recovers (h : b.Broken) (hlaid : b.Laid) {superLog : Fnode}
    (hsuper : b.pos ≤ superLog.size) : ¬ b.Recovers superLog := by
  rintro ⟨ops, n, hread, -⟩
  rw [h.readLog hlaid hsuper] at hread
  cases hread

/-- A log that is in order, with nothing queued and no file signalled, and that the superblock
covers. -/
theorem Intact.recovers {opss : List (ℕ × List LogOp)} {t : List LogOp} {N : Namespace}
    (h : b.Intact opss t) (hheld : b.Held t N) (ht : b.fs.t = [])
    (hfiles : b.fs.dirty.files b.fs.dirty.seqLive = []) {superLog : Fnode}
    (hino : superLog.ino = 1) (hsuper : b.pos ≤ superLog.size) : b.Recovers superLog := by
  obtain ⟨-, -, hinos, -⟩ := superLog.decoded_spec
  have hall : t = (opss.map Prod.snd).flatten := by rw [h.history, ht, List.append_nil]
  obtain ⟨hinv, hnodes⟩ := hheld.tracked superLog.decoded (hinos.trans hino)
  obtain ⟨n, hn, hc, hv⟩ := hinv.replayed
  have hv' : n.view = b.fs.nodes.view := hv
  have hn' : (Nodes.mounted superLog.decoded).replayOps (opss.map Prod.snd).flatten = some n :=
    hall ▸ hn
  refine ⟨_, n, ?_, hn', ?_, fun ino hmem hne hd => ?_⟩
  · have hregular := hheld.laid.regular
    have hpos := hheld.laid.pos
    rw [h.disk] at hregular hpos
    unfold LogFs.readLog
    rw [h.disk]
    exact scan_eq_ok hregular (hpos.le.trans hsuper)
  · rw [Nodes.view_removeOrphans (hv' ▸ hinv.valid), hv']
  · refine (hnodes n (hall ▸ hn') ino hmem hne).2.2 hd ?_
    rw [hfiles]
    exact List.not_mem_nil

/-- The node of the log is that of file 1. -/
theorem Held.ino_logNode {t : List LogOp} {N : Namespace} (h : b.Held t N) : b.logNode.ino = 1 := by
  obtain ⟨hinv, -⟩ := h.tracked (Fnode.new 1 0 0) rfl
  exact hinv.inos 1 ((hinv.valid.live 1).mpr (.inl rfl))

end LogFs

/-! ## Runs -/

instance (b : LogFs) (wantSeq : ℕ) : Decidable (b.Flushes wantSeq) :=
  inferInstanceAs (Decidable (_ ∧ _))

/-- The situations that are considered: names as in `NamesFree`, and no flush that extends the
log. -/
def Considered (c : LogConfig) (s : Flushed) : LogAction → Prop
  | .name a => NamesFree s.bluefs.fs a
  | .flush _ env => s.bluefs.takeSeq.HasRunway c ∨ env.alloc = none
  | _ => True

/-- A flush finds enough room, and the devices write it. -/
def Goes (c : LogConfig) (s : Flushed) : LogAction → Prop
  | .flush wantSeq env =>
    s.bluefs.Flushes wantSeq → s.bluefs.takeSeq.HasRunway c ∧ env.writes = true
  | _ => True

instance (c : LogConfig) (s : Flushed) : (a : LogAction) → Decidable (Considered c s a)
  | .writeSuper => inferInstanceAs (Decidable True)
  | .name a => inferInstanceAs (Decidable (NamesFree s.bluefs.fs a))
  | .flush _ env =>
    have : Decidable (env.alloc = none) :=
      decidable_of_iff (env.alloc.isNone = true) Option.isNone_iff_eq_none
    inferInstanceAs (Decidable (_ ∨ _))
  | .flushRange _ _ _ => inferInstanceAs (Decidable True)
  | .truncate _ _ => inferInstanceAs (Decidable True)
  | .fsync _ => inferInstanceAs (Decidable True)

instance (c : LogConfig) (s : Flushed) : (a : LogAction) → Decidable (Goes c s a)
  | .writeSuper => inferInstanceAs (Decidable True)
  | .flush wantSeq _ => inferInstanceAs (Decidable (s.bluefs.Flushes wantSeq → _ ∧ _))
  | .name _ => inferInstanceAs (Decidable True)
  | .flushRange _ _ _ => inferInstanceAs (Decidable True)
  | .truncate _ _ => inferInstanceAs (Decidable True)
  | .fsync _ => inferInstanceAs (Decidable True)

/-- Records were lost, or there is a gap in the numbers. -/
def Flushed.Bad (s : Flushed) : Prop := s.forgot = true ∨ s.bluefs.Damaged

/-- All records are in the log or in `log_.t`. -/
def Flushed.Good (s : Flushed) (t : List LogOp) : Prop :=
  s.forgot = false ∧ ∃ opss, s.bluefs.Intact opss t

/-- An operation on names or files, as a step. -/
theorem Flushed.step_fs {c : LogConfig} {s s' : Flushed} {t : List LogOp} {N : Namespace}
    (h : s.bluefs.Held t N) {a : LogAction} (ha : Considered c s a)
    (hflush : ∀ wantSeq env, a ≠ .flush wantSeq env) (hsuper : a ≠ .writeSuper)
    (hstep : s.step c a = some s') :
    ∃ (fs' : Fs) (ops : List LogOp) (N' : Namespace),
      s' = s.withFs (fs'.withT (s.bluefs.fs.t ++ ops)) ∧
      LogFs.Held { s.bluefs with fs := fs'.withT (s.bluefs.fs.t ++ ops) } (t ++ ops) N' := by
  obtain ⟨hinv, hfiles⟩ := h.tracked (Fnode.new 1 0 0) rfl
  obtain ⟨n, hn, -, -⟩ := hinv.replayed
  have hsized : ∀ ino ∈ s.bluefs.fs.nodes.fileMap, ino ≠ 1 →
      (s.bluefs.fs.nodes.file ino).fnode.Sized := fun ino hino hone => (hfiles n hn ino hino hone).1
  have hstable := h.dirty.stable
  have hinos : ∀ ino ∈ s.bluefs.fs.nodes.fileMap, (s.bluefs.fs.nodes.file ino).fnode.ino = ino :=
    hinv.inos
  -- The operations on files leave the names.
  have hkept : ∀ (op : Fs → Fs) {fs' : Fs} {ops : List LogOp},
      Fs.Logs (fun fs => some (op fs)) s.bluefs.fs fs' ops → Fs.Logs.Keeps s.bluefs.fs fs' ops →
      s.withFs (op s.bluefs.fs) = s' → ∃ (fs' : Fs) (ops : List LogOp) (N' : Namespace),
        s' = s.withFs (fs'.withT (s.bluefs.fs.t ++ ops)) ∧
          LogFs.Held { s.bluefs with fs := fs'.withT (s.bluefs.fs.t ++ ops) } (t ++ ops) N' := by
    intro op fs' ops hl hk hs'
    have hrun : op s.bluefs.fs = fs'.withT (s.bluefs.fs.t ++ ops) :=
      Option.some.inj (hl.run s.bluefs.fs.t)
    refine ⟨fs', ops, N, ?_, h.withFs hl fun logFnode => hk logFnode N t⟩
    rw [← hs', hrun]
  cases a with
  | name a =>
    obtain ⟨fs', ops, hl⟩ := Fs.Logs.name hinv (by omega) hsized ha
    have hrun : s.bluefs.fs.nameStep a = _ := hl.run s.bluefs.fs.t
    obtain ⟨m, hm, rfl⟩ := Option.map_eq_some_iff.mp hstep
    obtain rfl := Option.some.inj (hrun.symm.trans hm)
    refine ⟨fs', ops, N.apply a, rfl, h.withFs hl fun logFnode hold => ?_⟩
    obtain ⟨fs'', hfs'', hinv'⟩ := hold.step (a := a) ha
    obtain rfl := Option.some.inj ((hl.run t).symm.trans hfs'')
    exact hinv'
  | flushRange ino es stop =>
    obtain ⟨hw, hs'⟩ := Option.ite_some_none_eq_some.mp hstep
    obtain ⟨fs', ops, hl, hk⟩ := Fs.Logs.flushRange hinos hw es stop
    exact hkept (fun fs => fs.flushRange ino es stop) hl hk hs'
  | truncate ino offset =>
    obtain ⟨hw, hs'⟩ := Option.ite_some_none_eq_some.mp hstep
    obtain ⟨fs', ops, hl, hk⟩ := Fs.Logs.truncate hinos hw offset
    exact hkept (fun fs => (fs.truncate ino offset).2) hl hk hs'
  | fsync ino =>
    obtain ⟨hw, hs'⟩ := Option.ite_some_none_eq_some.mp hstep
    obtain ⟨fs', ops, hl, hk⟩ := Fs.Logs.fsyncDirty h.dirty hinos hw
    exact hkept (fun fs => fs.fsyncDirty ino) hl hk hs'
  | flush wantSeq env => exact absurd rfl (hflush wantSeq env)
  | writeSuper => exact absurd rfl hsuper

/-- The memory, and a superblock that covers no more of the log than there is. -/
structure Flushed.Held (s : Flushed) (t : List LogOp) (N : Namespace) : Prop where
  /-- The memory. -/
  bluefs : s.bluefs.Held t N
  /-- The superblock. -/
  super : s.superLog.size ≤ s.bluefs.pos

/-- A transaction with its padding has whole blocks, and is not empty. -/
theorem padded_encodedLength (c : LogConfig) (ops : List LogOp) :
    4096 ∣ padded (c.encodedLength ops) ∧ 0 < padded (c.encodedLength ops) := by
  refine ⟨Nat.dvd_mul_left _ _, ?_⟩
  unfold padded LogConfig.encodedLength
  omega

/-- What becomes of the log in a step. -/
theorem Flushed.step_held {c : LogConfig} {s s' : Flushed} {t : List LogOp} {N : Namespace}
    (h : s.Held t N) {a : LogAction} (ha : Considered c s a)
    (hstep : s.step c a = some s') : ∃ t' N', s'.Held t' N' ∧
      (s.Good t → Goes c s a → s'.Good t') ∧ (s.Good t → ¬ Goes c s a → s'.Bad) ∧
      (s.Bad → s'.Bad) := by
  obtain ⟨h, hsuper⟩ := h
  -- A step of another kind leaves the log on the device.
  by_cases hflush : ∀ wantSeq env, a ≠ .flush wantSeq env
  · have hgoes : Goes c s a := by
      cases a with
      | flush wantSeq env => exact absurd rfl (hflush wantSeq env)
      | _ => exact trivial
    by_cases hwrite : a = .writeSuper
    · subst hwrite
      obtain rfl := Option.some.inj hstep
      exact ⟨t, N, ⟨h, h.laid.size.le⟩, fun hgood _ => hgood, fun _ hno => absurd hgoes hno, id⟩
    obtain ⟨fs', ops, N', rfl, hheld⟩ := step_fs h ha hflush hwrite hstep
    refine ⟨_, N', ⟨hheld, hsuper⟩, fun hgood _ => ?_, fun _ hno => absurd hgoes hno,
      fun hbad => ?_⟩
    · obtain ⟨hforgot, opss, hi⟩ := hgood
      refine ⟨hforgot, opss, hi.disk, hi.seqLive, ?_⟩
      rw [hi.history, List.append_assoc]
      rfl
    · exact hbad.imp id fun hd => hd.mono rfl (le_refl _)
  -- A flush: it has nothing to do, writes the queue, or fails.
  · push Not at hflush
    obtain ⟨wantSeq, env, rfl⟩ := hflush
    obtain ⟨r, hr, rfl⟩ := Option.map_eq_some_iff.mp hstep
    have hforgot : ∀ x, s.forgot = true → (s.forgot || x) = true := fun x hx => by rw [hx]; rfl
    by_cases hf : s.bluefs.Flushes wantSeq
    · obtain ⟨ops, ht, hheld, hempty⟩ := h.takeSeq
      rw [LogFs.flushAndSyncLog_eq h.aligned hf ha] at hr
      obtain rfl := Option.some.inj hr
      by_cases hrun : s.bluefs.takeSeq.HasRunway c
      · rw [if_pos hrun]
        cases hw : env.writes with
        | true =>
          -- The transaction is written.
          obtain ⟨hdvd, hpos⟩ := padded_encodedLength c s.bluefs.takeSeq.fs.t
          obtain ⟨hsynced, hnil, -⟩ := hheld.synced hempty hdvd hpos
          refine ⟨_, N, ⟨hsynced, hsuper.trans (Nat.le_add_right _ _)⟩, fun hgood _ => ⟨?_, ?_⟩,
            fun _ hno => ?_, fun hbad => ?_⟩
          · simpa using hgood.1
          · obtain ⟨-, opss, hi⟩ := hgood
            exact ⟨_, hi.synced ht _⟩
          · exact absurd (fun _ => ⟨hrun, hw⟩) hno
          · exact hbad.imp (hforgot _) fun hd =>
              (hd.broken _ s.bluefs.takeSeq.fs.t rfl (Nat.le_succ _)).damaged
        | false =>
          -- The number is gone, and the records with it.
          refine ⟨_, N, ⟨hheld.claimed, hsuper⟩, fun _ hg => ?_, fun hgood _ => ?_, fun hbad => ?_⟩
          · exact absurd (hg hf).2 (by simp [hw])
          · obtain ⟨-, opss, hi⟩ := hgood
            exact .inr (hi.damaged rfl rfl)
          · exact hbad.imp (hforgot _) fun hd => hd.mono rfl (Nat.le_succ _)
      · -- The number is gone.
        rw [if_neg hrun]
        refine ⟨_, N, ⟨hheld, hsuper⟩, fun _ hg => absurd (hg hf).1 hrun, fun hgood _ => ?_,
          fun hbad => ?_⟩
        · obtain ⟨-, opss, hi⟩ := hgood
          exact .inr (hi.damaged rfl rfl)
        · exact hbad.imp (hforgot _) fun hd => hd.mono rfl (Nat.le_succ _)
    · -- There is nothing to do.
      have hsame : r = (0, s.bluefs) := by
        unfold LogFs.flushAndSyncLog at hr
        split_ifs at hr with h1 h2
        · exact (Option.some.inj hr).symm
        · exact absurd ⟨h1, h2⟩ hf
      subst hsame
      refine ⟨t, N, ⟨h, hsuper⟩, fun hgood _ => ⟨by simpa using hgood.1, hgood.2⟩, fun _ hno => ?_,
        fun hbad => hbad.imp (hforgot _) id⟩
      exact absurd (fun hf' => absurd hf' hf) hno

/-- A file system that was just made and mounted: the log has its first transaction, and the
superblock covers it. -/
def Flushed.start (logFnode : Fnode) : Flushed :=
  ⟨⟨Fs.start { logFnode with size := 4096 }, 2, 4096, [.txn 4096 1 [.init]]⟩,
    { logFnode with size := 4096 }, false, false⟩

/-- The node of the log as it is mounted. -/
theorem Flushed.start_held {logFnode : Fnode} (hlog : logFnode.ino = 1)
    (hall : 4096 ∣ logFnode.allocated) :
    (start logFnode).Held [.init] ⟨fun _ => none, 1⟩ ∧ (start logFnode).Good [.init] := by
  obtain ⟨f, hf⟩ : ∃ f : Fnode, f = { logFnode with size := 4096 } := ⟨_, rfl⟩
  have hino : f.ino = 1 := by rw [hf]; exact hlog
  have hone : ∀ ino ∈ (Fs.start f).nodes.fileMap, ino = 1 := fun ino hino =>
    List.mem_singleton.mp hino
  have hfile : (Fs.start f).nodes.file 1 = { File.new 1 0 with fnode := f } := rfl
  have hstart : start logFnode = ⟨⟨Fs.start f, 2, 4096, [.txn 4096 1 [.init]]⟩, f, false, false⟩ := by
    rw [hf]
    rfl
  have hsize : f.size = 4096 := by rw [hf]
  rw [hstart]
  refine ⟨⟨⟨rfl, ⟨fun _ h => absurd h List.not_mem_nil, fun ino hino => ?_, fun ino hino => ?_,
    fun _ _ => rfl, Nat.lt_add_one 1, fun ino hino => ?_⟩, fun L hL => ⟨?_, ?_⟩, ⟨dvd_refl _, ?_⟩,
    rfl, fun p hp => ?_, fun _ _ => rfl, hsize⟩, hsize.le⟩, rfl, [(4096, [.init])], rfl, rfl, rfl⟩
  · obtain rfl := hone ino hino
    show ((Fs.start f).nodes.file 1).dirtySeq = 2 ↔ 1 ∈ []
    rw [hfile]
    simp [File.new]
  · obtain rfl := hone ino hino
    show ((Fs.start f).nodes.file 1).dirtySeq ≤ 2
    rw [hfile]
    exact Nat.zero_le _
  · obtain rfl := hone ino hino
    show ((Fs.start f).nodes.file 1).deleted = false
    rw [hfile]
    rfl
  · -- The node of the log in the superblock does not matter.
    obtain ⟨h1, h2, h3, h4, h5, h6, h7, -⟩ := Fs.Inv.start f hino
    obtain ⟨n, hn, hc, hv⟩ := (Fs.Inv.start L hL).replayed
    have hsame : (Nodes.mounted L).view = (Nodes.mounted f).view := by
      refine View.ext rfl (funext fun ino => ?_) rfl
      change (ite (ino = 1) _ _ : File).refs = (ite (ino = 1) _ _ : File).refs
      split_ifs <;> rfl
    exact ⟨h1, h2, h3, h4, h5, h6, h7, n, hn, hc, hv.trans hsame⟩
  · intro n _ ino hino hne
    exact absurd (hone ino hino) hne
  · show 4096 ∣ ((Fs.start f).nodes.file 1).fnode.allocated
    rw [hfile, hf]
    exact hall
  · obtain rfl := List.mem_singleton.mp hp
    refine ⟨Nat.zero_lt_succ _, fun len seq ops heq => ?_⟩
    obtain ⟨-, -, rfl⟩ := Piece.txn.inj heq
    exact fun _ _ => rfl

/-- What becomes of the log in a run. -/
theorem Flushed.run_held {c : LogConfig} (as : List LogAction) {s s' : Flushed} {t : List LogOp}
    {N : Namespace} (h : s.Held t N)
    (hm : Runs.Meets (Flushed.step c) (Considered c) s as)
    (hs : Runs.exec (Flushed.step c) s as = some s') : ∃ t' N', s'.Held t' N' ∧
      (s.Good t → Runs.Meets (Flushed.step c) (Goes c) s as → s'.Good t') ∧
      (s.Good t → ¬ Runs.Meets (Flushed.step c) (Goes c) s as → s'.Bad) ∧ (s.Bad → s'.Bad) := by
  induction as generalizing s t N with
  | nil =>
    obtain rfl := Option.some.inj hs
    exact ⟨t, N, h, fun hg _ => hg, fun _ hno => absurd trivial hno, id⟩
  | cons a as ih =>
    obtain ⟨m, hstep, hrun⟩ := Runs.exec_cons.mp hs
    obtain ⟨ha, hm⟩ := hm
    obtain ⟨t1, N1, h1, hgood1, hfail1, hbad1⟩ := step_held h ha hstep
    obtain ⟨t', N', h', hgood', hfail', hbad'⟩ := ih h1 (hm m hstep) hrun
    have hmeets : Runs.Meets (Flushed.step c) (Goes c) s (a :: as) ↔
        Goes c s a ∧ Runs.Meets (Flushed.step c) (Goes c) m as := by
      refine and_congr_right fun _ => ⟨fun hall => hall m hstep, fun hrest k hk => ?_⟩
      obtain rfl := Option.some.inj (hstep.symm.trans hk)
      exact hrest
    rw [hmeets]
    refine ⟨t', N', h', fun hg hall => hgood' (hgood1 hg hall.1) hall.2, fun hg hno => ?_,
      fun hb => hbad' (hbad1 hb)⟩
    by_cases hgoes : Goes c s a
    · exact hfail' (hgood1 hg hgoes) fun hrest => hno ⟨hgoes, hrest⟩
    · exact hbad' (hfail1 hg hgoes)

/-- In every run without other defects, once a flush has succeeded, nothing was forgotten and the
log, with the superblock written behind the flush, gives the memory, if and only if every flush before
it has gone well. The flush by itself leaves what a mount reads. -/
theorem flush_recovers_iff (c : LogConfig) (logFnode : Fnode) (hlog : logFnode.ino = 1)
    (hall : 4096 ∣ logFnode.allocated) (as : List LogAction)
    (hm : Runs.Meets (Flushed.step c) (Considered c) (Flushed.start logFnode) as) {s : Flushed}
    (hs : Runs.exec (Flushed.step c) (Flushed.start logFnode) as = some s) {wantSeq : ℕ}
    {env : FlushEnv} (hlast : Considered c s (.flush wantSeq env)) (hf : s.bluefs.Flushes wantSeq)
    {b : LogFs} (hb : s.bluefs.flushAndSyncLog c wantSeq env = some (0, b)) :
    ((s.forgot = false ∧ b.Recovers b.logNode) ↔
      Runs.Meets (Flushed.step c) (Goes c) (Flushed.start logFnode) as) ∧
    b.readLog s.superLog = s.bluefs.readLog s.superLog := by
  obtain ⟨hheld, hgood⟩ := Flushed.start_held hlog hall
  obtain ⟨t, N, ⟨hheld, hsuper⟩, hgo, hfail, -⟩ := Flushed.run_held as hheld hm hs
  -- The last flush has written its transaction.
  have hsynced : b = s.bluefs.synced (padded (c.encodedLength s.bluefs.takeSeq.fs.t)) := by
    rw [LogFs.flushAndSyncLog_eq hheld.aligned hf hlast] at hb
    split_ifs at hb
    · exact (congrArg Prod.snd (Option.some.inj hb)).symm
    · simp at hb
    · simp at hb
  obtain ⟨ops, ht, htaken, hempty⟩ := hheld.takeSeq
  obtain ⟨hdvd, hpos⟩ := padded_encodedLength c s.bluefs.takeSeq.fs.t
  obtain ⟨hheld', hnil, hfiles⟩ := htaken.synced hempty hdvd hpos
  rw [← hsynced] at hheld' hnil hfiles
  refine ⟨⟨?_, fun hall => ?_⟩, ?_⟩
  · rintro ⟨hforgot, hrec⟩
    by_contra hno
    rcases hfail hgood hno with h | h
    · rw [hforgot] at h
      cases h
    · have hbroken : b.Broken := by
        rw [hsynced]
        exact h.broken _ s.bluefs.takeSeq.fs.t rfl (Nat.le_succ _)
      exact hbroken.not_recovers hheld'.laid hheld'.laid.size.ge hrec
  · obtain ⟨hforgot, opss, hi⟩ := hgo hgood hall
    have hi' := hi.synced ht (padded (c.encodedLength s.bluefs.takeSeq.fs.t))
    rw [← hsynced] at hi'
    exact ⟨hforgot, hi'.recovers hheld' hnil hfiles hheld'.ino_logNode hheld'.laid.size.ge⟩
  · rw [hsynced]
    refine scan_append hheld.laid.regular _ false ?_ 0
    rw [Nat.zero_add, hheld.laid.pos]
    exact hsuper

/-- Settings with a runway of a block; every record has 32 bytes. -/
def blockRunway : LogConfig := ⟨4096, 65536, fun ops => 32 * ops.length, rfl⟩

/-- The node of a log with `blocks` blocks. -/
def logOfBlocks (blocks : ℕ) : Fnode :=
  ⟨1, 4096, 0, [⟨1, 0x10000, 4096 * blocks⟩], [0], 4096 * blocks, 4096 * blocks⟩

/-- A file is made, written and synced. -/
def writtenAndSynced : List LogAction :=
  [.name (.mkdir [0x64]), .name (.openForWrite [0x64] [0x61] false 5),
    .flushRange 2 [⟨1, 0x100000, 8192⟩] 100, .fsync 2, .flush 2 ⟨none, true⟩,
    .name (.rename [0x64] [0x61] [0x64] [0x62])]

/-- A file is written and synced, and the last flush goes well. -/
theorem flush_recovers_iff_written :
    ∃ s b, Runs.exec (Flushed.step blockRunway) (Flushed.start (logOfBlocks 16))
        writtenAndSynced = some s ∧
      s.bluefs.flushAndSyncLog blockRunway 0 ⟨none, true⟩ = some (0, b) ∧
      ((s.forgot = false ∧ b.Recovers b.logNode) ↔ Runs.Meets (Flushed.step blockRunway)
        (Goes blockRunway) (Flushed.start (logOfBlocks 16)) writtenAndSynced) ∧
      b.readLog s.superLog = s.bluefs.readLog s.superLog := by
  have hrun : ((Runs.exec (Flushed.step blockRunway) (Flushed.start (logOfBlocks 16))
      writtenAndSynced).bind fun s => (s.bluefs.flushAndSyncLog blockRunway 0 ⟨none, true⟩).map
        fun r => (decide (Considered blockRunway s (.flush 0 ⟨none, true⟩)),
          decide (s.bluefs.Flushes 0), r.1)) = some (true, true, 0) := by decide +kernel
  obtain ⟨s, hs, hrun⟩ := Option.bind_eq_some_iff.mp hrun
  obtain ⟨⟨r, b⟩, hb, hrun⟩ := Option.map_eq_some_iff.mp hrun
  simp only [Prod.mk.injEq, decide_eq_true_eq] at hrun
  obtain ⟨hlast, hf, rfl⟩ := hrun
  exact ⟨s, b, hs, hb, flush_recovers_iff blockRunway (logOfBlocks 16) rfl (by decide)
    writtenAndSynced (by decide +kernel) hs hlast hf hb⟩

/-- A flush finds no space, and the next one that succeeds leaves a log that cannot be read, also
with the superblock written behind it; a device does not write, and the record of a directory is lost;
a directory is made and flushed, and the next mount does not read its record. -/
theorem log_unreadable :
    (∃ s b, Runs.exec (Flushed.step blockRunway) (Flushed.start (logOfBlocks 2))
        [.name (.mkdir [0x64]), .flush 0 ⟨none, true⟩] = some s ∧ s.failed = true ∧
      s.bluefs.flushAndSyncLog blockRunway 0 ⟨some [⟨1, 0x100000, 0x100000⟩], true⟩ =
        some (0, b) ∧ b.readLog b.logNode = .error (-5) ∧ ¬ b.Recovers b.logNode) ∧
    (∃ s, Runs.exec (Flushed.step blockRunway) (Flushed.start (logOfBlocks 16))
        [.name (.mkdir [0x64]), .flush 0 ⟨none, false⟩] = some s ∧ s.failed = true ∧
      (s.bluefs.fs.nodes.dirMap.lookup [0x64]).isSome ∧ s.bluefs.fs.t = [] ∧
      s.bluefs.disk.length = 1) ∧
    ∃ s b, Runs.exec (Flushed.step blockRunway) (Flushed.start (logOfBlocks 16))
        [.name (.mkdir [0x64])] = some s ∧
      s.bluefs.flushAndSyncLog blockRunway 0 ⟨none, true⟩ = some (0, b) ∧
      (b.fs.nodes.dirMap.lookup [0x64]).isSome ∧ b.readLog s.superLog = .ok [.init] := by
  have hgap : ((Runs.exec (Flushed.step blockRunway) (Flushed.start (logOfBlocks 2))
      [.name (.mkdir [0x64]), .flush 0 ⟨none, true⟩]).bind fun s =>
        (s.bluefs.flushAndSyncLog blockRunway 0 ⟨some [⟨1, 0x100000, 0x100000⟩], true⟩).map
          fun r => (s.failed, r.1, match r.2.readLog r.2.logNode with
            | .ok _ => 0
            | .error e => e)) = some (true, 0, -5) := by decide +kernel
  have hlost : ((Runs.exec (Flushed.step blockRunway) (Flushed.start (logOfBlocks 16))
      [.name (.mkdir [0x64]), .flush 0 ⟨none, false⟩]).map fun s => (s.failed,
        (s.bluefs.fs.nodes.dirMap.lookup [0x64]).isSome, s.bluefs.fs.t, s.bluefs.disk.length)) =
      some (true, true, [], 1) := by decide +kernel
  have hunread : ((Runs.exec (Flushed.step blockRunway) (Flushed.start (logOfBlocks 16))
      [.name (.mkdir [0x64])]).bind fun s =>
        (s.bluefs.flushAndSyncLog blockRunway 0 ⟨none, true⟩).map fun r => (r.1,
          (r.2.fs.nodes.dirMap.lookup [0x64]).isSome, match r.2.readLog s.superLog with
            | .ok ops => some ops
            | .error _ => none)) = some (0, true, some [.init]) := by decide +kernel
  -- The runs are evaluated once each.
  obtain ⟨s, hs, hgap⟩ := Option.bind_eq_some_iff.mp hgap
  obtain ⟨⟨r, b⟩, hb, hgap⟩ := Option.map_eq_some_iff.mp hgap
  simp only [Prod.mk.injEq] at hgap
  obtain ⟨hfailed, rfl, hscan⟩ := hgap
  obtain ⟨s', hs', hlost⟩ := Option.map_eq_some_iff.mp hlost
  simp only [Prod.mk.injEq] at hlost
  obtain ⟨u, hu, hunread⟩ := Option.bind_eq_some_iff.mp hunread
  obtain ⟨⟨r, d⟩, hd, hunread⟩ := Option.map_eq_some_iff.mp hunread
  simp only [Prod.mk.injEq] at hunread
  obtain ⟨rfl, hdir, hread⟩ := hunread
  refine ⟨⟨s, b, hs, hfailed, hb, ?_⟩, ⟨s', hs', hlost⟩, u, d, hu, hd, hdir, ?_⟩
  · cases hread : b.readLog b.logNode with
    | ok ops =>
      rw [hread] at hscan
      cases hscan
    | error e =>
      rw [hread] at hscan
      refine ⟨congrArg _ hscan, ?_⟩
      rintro ⟨ops, n, hok, -⟩
      rw [hread] at hok
      cases hok
  · cases hok : d.readLog u.superLog with
    | ok ops =>
      rw [hok] at hread
      exact congrArg _ (Option.some.inj hread)
    | error e =>
      rw [hok] at hread
      cases hread

end CxxLab.Bluefs
