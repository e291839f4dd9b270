import CxxLab.Btier.CrashRuns

/-!
# What the journal overwrites

A journal operation writes one range of the data area and then the superblock. The superblock that
is on the device until then delimits, from `checkpoint_offset` around to `write_offset`, the records
that a recovery needs. `Safe` says of a history of such writes that each of them stays within the
journal and off that range, and that the range always covers everything written since the last
checkpoint. Neither `put` nor `del` looks at the length of what it is going to write: a run is safe
when each entry finds `Clear` space, which `PutBounds` and `DelBounds` say of the state before the
call.
-/

namespace CxxLab.Btier

open Journal

/-! ## The head of the ring -/

/-- What decides where the next entry of the journal goes, and over what. -/
structure Head where
  /-- The size of the data area. -/
  dataSize : ℕ
  /-- Where the last checkpoint starts. -/
  checkpointOffset : ℕ
  /-- The write head. -/
  writeOffset : ℕ
  deriving DecidableEq

/-- An entry of the journal, by its length before padding. -/
inductive Entry where
  /-- A transaction. -/
  | txn (len : ℕ)
  /-- A checkpoint. -/
  | checkpoint (len : ℕ)
  deriving DecidableEq

/-- The length. -/
def Entry.length : Entry → ℕ
  | .txn len => len
  | .checkpoint len => len

/-- An entry takes some space on the device. -/
theorem Journal.padded_pos (len : ℕ) : 0 < padded len := by
  unfold padded
  extract_lets p
  split_ifs with h
  · decide
  · omega

namespace Head

/-- The used bytes: those that the offsets delimit. -/
def used (h : Head) : ℕ :=
  if h.writeOffset ≥ h.checkpointOffset then h.writeOffset - h.checkpointOffset
  else h.dataSize - h.checkpointOffset + h.writeOffset

/-- Where `n` bytes go. -/
def start (h : Head) (n : ℕ) : ℕ := if h.writeOffset + n > h.dataSize then 0 else h.writeOffset

/-- What is left over at the end of the data area when they do not fit there. -/
def skipped (h : Head) (n : ℕ) : ℕ :=
  if h.writeOffset + n > h.dataSize then h.dataSize - h.writeOffset else 0

/-- The write head behind them. -/
def moved (h : Head) (n : ℕ) : ℕ := if h.start n + n ≥ h.dataSize then 0 else h.start n + n

/-- The head after an entry. -/
def after (h : Head) : Entry → Head
  | .txn len => { h with writeOffset := h.moved (padded len) }
  | .checkpoint len =>
    { h with checkpointOffset := h.writeOffset, writeOffset := h.moved (padded len) }

/-- The entry leaves the used bytes alone. A transaction also leaves at least one byte over: equal
offsets delimit nothing. -/
def Clear (h : Head) : Entry → Prop
  | .txn len => h.used + h.skipped (padded len) + padded len < h.dataSize
  | .checkpoint len => h.used + h.skipped (padded len) + padded len ≤ h.dataSize

instance (h : Head) : ∀ op, Decidable (h.Clear op)
  | .txn _ => inferInstanceAs (Decidable (_ < _))
  | .checkpoint _ => inferInstanceAs (Decidable (_ ≤ _))

/-- The entries find clear space, one after the other. -/
def Clears : Head → List Entry → Prop
  | _, [] => True
  | h, op :: ops => h.Clear op ∧ Clears (h.after op) ops

instance decidableClears : ∀ (h : Head) (ops : List Entry), Decidable (h.Clears ops)
  | _, [] => isTrue trivial
  | h, op :: ops =>
    have := decidableClears (h.after op) ops
    inferInstanceAs (Decidable (_ ∧ _))

/-- Entries are clear of the head one after the other. -/
theorem clears_append {h : Head} {ops ops' : List Entry} :
    h.Clears (ops ++ ops') ↔ h.Clears ops ∧ (ops.foldl after h).Clears ops' := by
  induction ops generalizing h with
  | nil => simp [Clears]
  | cons op ops ih => simp only [List.cons_append, Clears, ih, List.foldl_cons, and_assoc]

/-- The byte of the data area is between the offsets. -/
def Delimits (h : Head) (i : ℕ) : Prop :=
  if h.checkpointOffset ≤ h.writeOffset then h.checkpointOffset ≤ i ∧ i < h.writeOffset
  else h.checkpointOffset ≤ i ∧ i < h.dataSize ∨ i < h.writeOffset

instance (h : Head) (i : ℕ) : Decidable (h.Delimits i) :=
  inferInstanceAs (Decidable (if h.checkpointOffset ≤ h.writeOffset then _ else _))

/-- The offsets are in the data area and not equal. -/
structure Ok (h : Head) : Prop where
  /-- The checkpoint starts in the data area. -/
  checkpoint_lt : h.checkpointOffset < h.dataSize
  /-- The write head is in the data area. -/
  write_lt : h.writeOffset < h.dataSize
  /-- Something is used. -/
  ne : h.checkpointOffset ≠ h.writeOffset

section

variable {h : Head} {n : ℕ}

/-- What fits beside the used bytes is in the data area, off the used bytes. -/
theorem Ok.spares (hok : h.Ok) (hc : h.used + h.skipped n + n ≤ h.dataSize) :
    h.start n + n ≤ h.dataSize ∧
      ∀ i, h.start n ≤ i → i < h.start n + n → ¬ h.Delimits i := by
  obtain ⟨h1, h2, h3⟩ := hok
  unfold used skipped at hc
  unfold start Delimits
  constructor
  · split_ifs at hc ⊢ <;> omega
  · intro i hi hi'
    split_ifs at hc hi hi' ⊢ <;> omega

/-- Behind a transaction that leaves a byte over, the offsets delimit what they did before and what
was written. -/
theorem Ok.txn (hok : h.Ok) (hn : 0 < n) (hc : h.used + h.skipped n + n < h.dataSize) :
    Ok { h with writeOffset := h.moved n } ∧
      ∀ i, h.Delimits i ∨ h.start n ≤ i ∧ i < h.start n + n →
        Delimits { h with writeOffset := h.moved n } i := by
  obtain ⟨h1, h2, h3⟩ := hok
  unfold used skipped at hc
  refine ⟨⟨h1, ?_, ?_⟩, fun i hi => ?_⟩
  · show h.moved n < h.dataSize
    unfold moved start
    split_ifs at hc ⊢ <;> omega
  · show h.checkpointOffset ≠ h.moved n
    unfold moved start
    split_ifs at hc ⊢ <;> omega
  · unfold Delimits moved start at *
    dsimp only
    split_ifs at hc hi ⊢ <;> omega

/-- Behind a checkpoint, the offsets delimit what was written. -/
theorem Ok.checkpoint (hok : h.Ok) (hn : 0 < n) (hc : h.used + h.skipped n + n ≤ h.dataSize) :
    Ok { h with checkpointOffset := h.writeOffset, writeOffset := h.moved n } ∧
      ∀ i, h.start n ≤ i → i < h.start n + n →
        Delimits { h with checkpointOffset := h.writeOffset, writeOffset := h.moved n } i := by
  obtain ⟨h1, h2, h3⟩ := hok
  unfold used skipped at hc
  refine ⟨⟨h2, ?_, ?_⟩, fun i hi hi' => ?_⟩
  · show h.moved n < h.dataSize
    unfold moved start
    split_ifs at hc ⊢ <;> omega
  · show h.writeOffset ≠ h.moved n
    unfold moved start
    split_ifs at hc ⊢ <;> omega
  · unfold Delimits moved start at *
    dsimp only
    split_ifs at hc hi hi' ⊢ <;> omega

end

end Head

/-! ## The history of the journal -/

/-- A write of the journal: a range of the device, and the superblock that follows it. -/
structure JournalWrite where
  /-- The start on the device. -/
  offset : ℕ
  /-- The number of bytes. -/
  length : ℕ
  /-- The superblock that is written next. -/
  superblock : JournalSuperBlock
  deriving DecidableEq

/-- The journal's writes in a history: those that a superblock follows at once. -/
def journalHistory : List DevWrite → List JournalWrite
  | .data _ off bs :: .superblock sb :: ws => ⟨off, bs.length, sb⟩ :: journalHistory ws
  | _ :: ws => journalHistory ws
  | [] => []

/-- What is on the device: the superblock, and the ranges that the journal has written since the
last checkpoint and with it. -/
structure DurableJournal where
  /-- The superblock. -/
  superblock : JournalSuperBlock
  /-- The start and the length of each range. -/
  needed : List (ℕ × ℕ)

/-- The device after a write of the journal and its superblock. -/
def DurableJournal.apply (d : DurableJournal) (w : JournalWrite) : DurableJournal where
  superblock := w.superblock
  needed :=
    -- A superblock that names a newer checkpoint makes the older records superfluous.
    if w.superblock.checkpointSeqno = d.superblock.checkpointSeqno then
      (w.offset, w.length) :: d.needed
    else [(w.offset, w.length)]

/-- The head that the superblock says. -/
def DurableJournal.head (d : DurableJournal) (dataSize : ℕ) : Head :=
  ⟨dataSize, d.superblock.checkpointOffset, d.superblock.writeOffset⟩

/-- The offsets of the superblock delimit everything that is needed. -/
def DurableJournal.Covered (dataSize : ℕ) (d : DurableJournal) : Prop :=
  ∀ r ∈ d.needed, ∀ i, r.1 ≤ i → i < r.1 + r.2 →
    kSuperblockSize ≤ i ∧ (d.head dataSize).Delimits (i - kSuperblockSize)

/-- The write is in the journal, behind the superblock, and off what the superblock on the device
delimits. -/
structure JournalWrite.Ok (dataSize : ℕ) (d : DurableJournal) (w : JournalWrite) : Prop where
  /-- It starts behind the superblock. -/
  start : kSuperblockSize ≤ w.offset
  /-- It ends within the journal. -/
  stop : w.offset + w.length ≤ kSuperblockSize + dataSize
  /-- It overwrites nothing that is delimited. -/
  off : ∀ i, w.offset ≤ i → i < w.offset + w.length →
    ¬ (d.head dataSize).Delimits (i - kSuperblockSize)

/-- The history is safe: every write is, and what is needed is delimited throughout. -/
def Safe (dataSize : ℕ) : DurableJournal → List JournalWrite → Prop
  | d, [] => d.Covered dataSize
  | d, w :: ws => d.Covered dataSize ∧ w.Ok dataSize d ∧ Safe dataSize (d.apply w) ws

/-- The last write is safe after those before it. -/
theorem safe_append_single {dataSize : ℕ} {d : DurableJournal} {ws : List JournalWrite}
    {w : JournalWrite} : Safe dataSize d (ws ++ [w]) ↔ Safe dataSize d ws ∧
      w.Ok dataSize (ws.foldl DurableJournal.apply d) ∧
      ((ws ++ [w]).foldl DurableJournal.apply d).Covered dataSize := by
  induction ws generalizing d with
  | nil => simp only [List.nil_append, Safe, List.foldl_nil, List.foldl_cons]
  | cons v ws ih => simp only [List.cons_append, Safe, ih, List.foldl_cons, and_assoc]

/-- In the end of a safe history, what is needed is delimited. -/
theorem Safe.covered {dataSize : ℕ} {d : DurableJournal} {ws : List JournalWrite}
    (h : Safe dataSize d ws) : (ws.foldl DurableJournal.apply d).Covered dataSize := by
  induction ws generalizing d with
  | nil => exact h
  | cons w ws ih => exact ih h.2.2

/-- A write that no superblock follows is not the journal's. -/
theorem journalHistory_data (ws : List DevWrite) (t : Tier) (off : ℕ) (bs : List UInt8) :
    journalHistory (ws ++ [.data t off bs]) = journalHistory ws := by
  fun_induction journalHistory ws with
  | case1 t' off' bs' sb ws ih => simp only [List.cons_append, journalHistory, ih]
  | case2 w ws hw ih =>
    cases ws with
    | nil => cases w <;> rfl
    | cons v ws =>
      rw [List.cons_append, journalHistory, ih]
      intro t' off' bs' sb ws' h1 h2
      cases h2
      exact hw t' off' bs' sb ws h1 rfl
  | case3 => rfl

/-- A write that a superblock follows is. -/
theorem journalHistory_journal (ws : List DevWrite) (t : Tier) (off : ℕ) (bs : List UInt8)
    (sb : JournalSuperBlock) :
    journalHistory (ws ++ [.data t off bs, .superblock sb]) =
      journalHistory ws ++ [⟨off, bs.length, sb⟩] := by
  fun_induction journalHistory ws with
  | case1 t' off' bs' sb' ws ih => simp only [List.cons_append, journalHistory, ih]
  | case2 w ws hw ih =>
    cases ws with
    | nil => cases w <;> rfl
    | cons v ws =>
      rw [List.cons_append, journalHistory, ih]
      intro t' off' bs' sb' ws' h1 h2
      cases h2
      exact hw t' off' bs' sb' ws h1 rfl
  | case3 => rfl

namespace Engine

/-! ## The engine and its history -/

section

variable {env : Env} {d : DurableJournal} {e e' : Engine}

/-- The head of the engine's journal. -/
def head (e : Engine) : Head :=
  ⟨e.journal.dataSize, e.journal.superblock.checkpointOffset, e.journal.writeOffset⟩

/-- The history of the engine since `d` was on the device is safe, and the journal in memory is the
one on the device. -/
structure Tracked (env : Env) (d : DurableJournal) (e : Engine) : Prop where
  /-- The history is safe. -/
  safe : Safe e.journal.dataSize d (journalHistory e.log)
  /-- The superblock on the device is the one in memory. -/
  super : ((journalHistory e.log).foldl DurableJournal.apply d).superblock = e.journal.superblock
  /-- It has the write head. -/
  head_eq : e.journal.superblock.writeOffset = e.journal.writeOffset
  /-- The journal is between two transactions. -/
  ready : JournalReady env e.journal
  /-- The data area is on the device. -/
  capacity : e.journal.dataSize ≤ e.journal.dev.capacity
  /-- The offsets are in the data area. -/
  ok : e.head.Ok

/-- What happens in memory does not matter. -/
theorem Tracked.memory (h : Tracked env d e) (hj : e'.journal = e.journal) (hl : e'.log = e.log) :
    Tracked env d e' ∧ e'.head = e.head := by
  have hhead : e'.head = e.head := by
    unfold Engine.head
    rw [hj]
  refine ⟨⟨?_, ?_, ?_, ?_, ?_, ?_⟩, hhead⟩
  · rw [hj, hl]
    exact h.safe
  · rw [hj, hl]
    exact h.super
  · rw [hj]
    exact h.head_eq
  · rw [hj]
    exact h.ready
  · rw [hj]
    exact h.capacity
  · rw [hhead]
    exact h.ok

/-- A write of a device is one in the history, and leaves the sizes alone. -/
theorem devWrite_log {t : Tier} {off : ℕ} {bs : List UInt8}
    (hw : e.devWrite env t off bs = some e') :
    e'.log = e.log ++ [.data t off bs] ∧ e'.journal.dev.capacity = e.journal.dev.capacity := by
  obtain ⟨hlog, hdev⟩ := devWrite_devices hw
  refine ⟨hlog, ?_⟩
  have hfast : e'.journal.dev = (e.devices.apply (.data t off bs)).fast := by
    rw [← hdev]
    rfl
  rw [hfast]
  by_cases ht : t = .fast <;> simp [Devices.apply, devices, ht]

/-- A write of the engine is not the journal's. -/
theorem Tracked.devWrite (h : Tracked env d e) {t : Tier} {off : ℕ} {bs : List UInt8}
    (hw : e.devWrite env t off bs = some e') : Tracked env d e' ∧ e'.head = e.head := by
  have hj := devWrite_journal hw
  obtain ⟨hlog, hcap⟩ := devWrite_log hw
  have hhist : journalHistory e'.log = journalHistory e.log := by
    rw [hlog, journalHistory_data]
  have hhead : e'.head = e.head := by
    unfold Engine.head
    rw [hj]
  refine ⟨⟨?_, ?_, ?_, ⟨?_, ?_⟩, ?_, ?_⟩, hhead⟩
  · rw [hhist, hj]
    exact h.safe
  · rw [hhist, hj]
    exact h.super
  · rw [hj]
    exact h.head_eq
  · rw [hj]
    exact h.ready.dataSize
  · rw [hj]
    exact h.ready.idle
  · rw [hcap, hj]
    exact h.capacity
  · rw [hhead]
    exact h.ok

/-- What a journal operation writes, and which superblock follows it. -/
structure Issued (e e' : Engine) (bl : List UInt8) : Prop where
  /-- The bytes are written. -/
  wrote : Wrote e.journal e'.journal bl
  /-- There are some. -/
  pos : 0 < bl.length
  /-- The journal is between two transactions. -/
  idle : ∀ id, e'.journal.activeTxns id = none
  /-- The superblock has the write head. -/
  head_eq : e'.journal.superblock.writeOffset = e'.journal.writeOffset
  /-- The write and its superblock are in the history. -/
  log : e'.log = e.log ++ [.data .fast (kSuperblockSize +
      e.journal.writeStart (padded bl.length)) (pad bl), .superblock e'.journal.superblock]

/-- The write of an entry that fits beside the used bytes is in order. -/
theorem Issued.write_ok {bl : List UInt8} (hi : Issued e e' bl) (h : Tracked env d e)
    (hc : e.head.used + e.head.skipped (padded bl.length) + padded bl.length ≤ e.head.dataSize) :
    JournalWrite.Ok e.journal.dataSize ((journalHistory e.log).foldl DurableJournal.apply d)
      ⟨kSuperblockSize + e.journal.writeStart (padded bl.length), (pad bl).length,
        e'.journal.superblock⟩ := by
  obtain ⟨hle, hoff⟩ := h.ok.spares hc
  have hhead : ((journalHistory e.log).foldl DurableJournal.apply d).head e.journal.dataSize = e.head := by
    unfold DurableJournal.head Engine.head
    rw [h.super, h.head_eq]
  have hlen := length_pad hi.pos
  have hstart : e.head.start (padded bl.length) = e.journal.writeStart (padded bl.length) := rfl
  have hsize : e.head.dataSize = e.journal.dataSize := rfl
  rw [hstart] at hle hoff
  rw [hsize] at hle
  refine ⟨Nat.le_add_right _ _, ?_, ?_⟩
  · simp only [hlen]
    omega
  · intro i h1 h2
    rw [hhead]
    simp only [hlen] at h1 h2
    exact hoff _ (by omega) (by omega)

/-- The superblock that follows an entry. -/
def Entry.superblock (j : Journal) (head : ℕ) : Entry → JournalSuperBlock
  | .txn _ => { j.superblock with writeOffset := head }
  | .checkpoint _ => { j.superblock with
      checkpointOffset := j.writeOffset
      writeOffset := head
      checkpointSeqno := j.superblock.checkpointSeqno + 1 }

/-- The head after an entry, as the superblock says it. -/
theorem Issued.head_after {bl : List UInt8} (hi : Issued e e' bl) {op : Entry}
    (hop : op.length = bl.length)
    (hsuper : e'.journal.superblock = Entry.superblock e.journal e'.journal.writeOffset op) :
    e'.head = e.head.after op := by
  have hmoved : e'.journal.writeOffset = e.head.moved (padded bl.length) := hi.wrote.head
  unfold Engine.head
  rw [hsuper, hi.wrote.dataSize, hmoved, ← hop]
  cases op <;> rfl

/-- Everything that is needed is delimited again behind an entry that finds clear space. -/
theorem Issued.covered {bl : List UInt8} (hi : Issued e e' bl) (h : Tracked env d e) {op : Entry}
    (hop : op.length = bl.length) (hc : e.head.Clear op)
    (hsuper : e'.journal.superblock = Entry.superblock e.journal e'.journal.writeOffset op)
    {D : DurableJournal} (hD : D = (journalHistory e.log).foldl DurableJournal.apply d)
    {w : JournalWrite} (hw : w = ⟨kSuperblockSize + e.head.start (padded bl.length),
      padded bl.length, e'.journal.superblock⟩) :
    e'.head.Ok ∧ (D.apply w).Covered e.journal.dataSize := by
  have hpos := padded_pos bl.length
  have hcov := h.safe.covered
  rw [← hD] at hcov
  -- The head before and after the entry.
  have hD' : D.head e.journal.dataSize = e.head := by
    unfold DurableJournal.head Engine.head
    rw [hD, h.super, h.head_eq]
  have hnew : (D.apply w).head e.journal.dataSize = e'.head := by
    unfold DurableJournal.head Engine.head DurableJournal.apply
    simp only [hw]
    rw [hi.head_eq, hi.wrote.dataSize]
  have hseq : w.superblock.checkpointSeqno = e'.journal.superblock.checkpointSeqno := by rw [hw]
  have hDseq : D.superblock.checkpointSeqno = e.journal.superblock.checkpointSeqno := by
    rw [hD, h.super]
  have hafter := hi.head_after hop hsuper
  unfold DurableJournal.Covered
  rw [hnew]
  -- A transaction needs what was needed before, a checkpoint only itself.
  cases op with
  | txn len =>
    obtain rfl : len = bl.length := hop
    obtain ⟨hok, hdel⟩ := h.ok.txn hpos hc
    change ∀ i, _ → (e.head.after (.txn bl.length)).Delimits i at hdel
    rw [← hafter] at hdel
    refine ⟨hafter ▸ hok, fun r hr i h1 h2 => ?_⟩
    have hsame : w.superblock.checkpointSeqno = D.superblock.checkpointSeqno := by
      rw [hseq, hDseq, hsuper]
      rfl
    rw [DurableJournal.apply, if_pos hsame] at hr
    rcases List.mem_cons.mp hr with rfl | hr
    · simp only [hw] at h1 h2
      exact ⟨by omega, hdel _ (.inr ⟨by omega, by omega⟩)⟩
    · obtain ⟨hk, hdl⟩ := hcov r hr i h1 h2
      rw [hD'] at hdl
      exact ⟨hk, hdel _ (.inl hdl)⟩
  | checkpoint len =>
    obtain rfl : len = bl.length := hop
    obtain ⟨hok, hdel⟩ := h.ok.checkpoint hpos hc
    change ∀ i, _ → _ → (e.head.after (.checkpoint bl.length)).Delimits i at hdel
    rw [← hafter] at hdel
    refine ⟨hafter ▸ hok, fun r hr i h1 h2 => ?_⟩
    have hother : w.superblock.checkpointSeqno ≠ D.superblock.checkpointSeqno := by
      rw [hseq, hDseq, hsuper]
      simp [Entry.superblock]
    rw [DurableJournal.apply, if_neg hother] at hr
    obtain rfl := List.mem_singleton.mp hr
    simp only [hw] at h1 h2
    exact ⟨by omega, hdel _ (by omega) (by omega)⟩

/-- An entry that finds clear space keeps the history safe. -/
theorem Issued.tracked {bl : List UInt8} (hi : Issued e e' bl) (h : Tracked env d e) (op : Entry)
    (hop : op.length = bl.length) (hc : e.head.Clear op)
    (hsuper : e'.journal.superblock = Entry.superblock e.journal e'.journal.writeOffset op) :
    Tracked env d e' ∧ e'.head = e.head.after op := by
  have hsize : e'.journal.dataSize = e.journal.dataSize := hi.wrote.dataSize
  have hlen := length_pad hi.pos
  have hroom : e.head.used + e.head.skipped (padded bl.length) + padded bl.length ≤
      e.head.dataSize := by
    rw [← hop]
    cases op with
    | txn len => exact le_of_lt hc
    | checkpoint len => exact hc
  have hwrite := hi.write_ok h hroom
  rw [hlen] at hwrite
  have hhist : journalHistory e'.log = journalHistory e.log ++ [⟨kSuperblockSize +
      e.journal.writeStart (padded bl.length), padded bl.length, e'.journal.superblock⟩] := by
    rw [hi.log, journalHistory_journal, hlen]
  obtain ⟨hok, hcovered⟩ := hi.covered h hop hc hsuper rfl rfl
  refine ⟨⟨?_, ?_, hi.head_eq, ⟨?_, hi.idle⟩, ?_, hok⟩, hi.head_after hop hsuper⟩
  · rw [hhist, hsize, safe_append_single, List.foldl_append]
    exact ⟨h.safe, hwrite, hcovered⟩
  · rw [hhist, List.foldl_append]
    rfl
  · rw [hsize]
    exact h.ready.dataSize
  · rw [hsize, hi.wrote.capacity]
    exact h.capacity

/-- A transaction that finds clear space is committed. -/
theorem Tracked.journalTxn (h : Tracked env d e) (rs : List JournalRecord)
    (hc : e.head.Clear (.txn (22 + (serializeRecords rs).length))) :
    ∃ e', e.journalTxn rs = (.ok, e') ∧ Tracked env d e' ∧
      e'.head = e.head.after (.txn (22 + (serializeRecords rs).length)) ∧
      e' = { e with journal := e'.journal, log := e'.log } := by
  have hlen := length_txnOf e.journal rs
  have hle : padded (txnOf e.journal rs).length ≤ e.journal.dataSize := by
    rw [hlen]
    exact le_trans (Nat.le_add_left _ _) (le_of_lt hc)
  obtain ⟨j1, -, hcommit, hwrote, hidle, hsuper⟩ := commit_openTxn h.ready.idle h.capacity hle
  have hi : Issued e { e with
      journal := j1.afterCommit
      log := e.log ++ [.data .fast (kSuperblockSize +
        e.journal.writeStart (padded (txnOf e.journal rs).length)) (pad (txnOf e.journal rs)),
        .superblock j1.afterCommit.superblock] } (txnOf e.journal rs) :=
    ⟨hwrote, by omega, hidle, by rw [hsuper], rfl⟩
  obtain ⟨ht, hhead⟩ := hi.tracked h (.txn (22 + (serializeRecords rs).length)) hlen.symm hc
    hsuper
  exact ⟨_, journalTxn_ok h.ready hcommit, ht, hhead, rfl⟩

/-- A checkpoint that finds clear space is written. -/
theorem Tracked.checkpoint (henv : env.Lawful) (h : Tracked env d e)
    (hc : e.head.Clear (.checkpoint (31 + e.stateLength))) :
    Tracked env d (e.checkpoint env) ∧
      (e.checkpoint env).head = e.head.after (.checkpoint (31 + e.stateLength)) ∧
      e.checkpoint env =
        { e with journal := (e.checkpoint env).journal, log := (e.checkpoint env).log } := by
  obtain ⟨bl, hbl⟩ : ∃ b, b = checkpointBytes (serializeRecords (e.buildCheckpointState env)) :=
    ⟨_, rfl⟩
  have hlen0 : bl.length = 31 + e.stateLength := by
    rw [hbl, checkpointBytes, length_frame, length_serializeRecord, ← length_buildCheckpointState henv]
    rfl
  have hle : padded bl.length ≤ e.journal.dataSize := by
    rw [hlen0]
    exact le_trans (Nat.le_add_left _ _) hc
  obtain ⟨j1, hw1, -, -, hchk, hwrote⟩ := checkpoint_ok h.capacity hbl hle
  obtain ⟨-, -, -, hactive, hsb⟩ := padAndWrite_frame hw1
  have hi : Issued e { e with
      journal := afterCheckpoint e.journal.writeOffset j1
      log := e.log ++ [.data .fast (kSuperblockSize + e.journal.writeStart (padded bl.length))
        (pad bl), .superblock (afterCheckpoint e.journal.writeOffset j1).superblock] } bl :=
    ⟨hwrote, by omega, fun id => by
      show j1.activeTxns id = none
      rw [hactive]
      exact h.ready.idle id, rfl, rfl⟩
  obtain ⟨ht, hhead⟩ := hi.tracked h (.checkpoint (31 + e.stateLength)) hlen0.symm hc (by
    show JournalSuperBlock.mk _ _ _ _ = JournalSuperBlock.mk _ _ _ _
    rw [hsb]
    rfl)
  rw [hchk]
  exact ⟨ht, hhead, rfl⟩

/-! ## The extents that a call makes -/

/-- The names of new extents are fresh. -/
structure Fresh (e : Engine) : Prop where
  /-- The extents are older. -/
  entries : ∀ id ∈ e.entries.keys, id.toNat < e.nextExtentId.toNat
  /-- Only older extents have keys. -/
  keys : ∀ id, e.nextExtentId.toNat ≤ id.toNat → e.reverseIndex id = []

/-- `e'` comes after `e` in a call that has not touched the key map: the history is safe, and the
names of new extents are fresh. -/
structure Follows (env : Env) (d : DurableJournal) (e e' : Engine) : Prop where
  /-- The history is safe. -/
  tracked : Tracked env d e'
  /-- The names of new extents are fresh. -/
  fresh : Fresh e'
  /-- The key map. -/
  keyMap : e'.keyMap = e.keyMap
  /-- The reverse index. -/
  reverseIndex : e'.reverseIndex = e.reverseIndex

/-- One part of a call after another. -/
theorem Follows.trans {e1 e2 : Engine} (h1 : Follows env d e e1) (h2 : Follows env d e1 e2) :
    Follows env d e e2 :=
  ⟨h2.tracked, h2.fresh, h2.keyMap.trans h1.keyMap, h2.reverseIndex.trans h1.reverseIndex⟩

/-- The next name is not in use. -/
theorem Fresh.lookup_next (h : Fresh e) : e.entries.lookup e.nextExtentId = none :=
  AList.lookup_eq_none.mpr fun hmem => lt_irrefl _ (h.entries _ hmem)

/-- Names stay fresh while no extent is added and no key is moved. -/
theorem Fresh.congr (h : Fresh e) (hk : ∀ id ∈ e'.entries.keys, id ∈ e.entries.keys)
    (hn : e'.nextExtentId = e.nextExtentId) (hr : e'.reverseIndex = e.reverseIndex) : Fresh e' := by
  refine ⟨fun id hid => ?_, fun id hid => ?_⟩
  · rw [hn]
    exact h.entries id (hk id hid)
  · rw [hn] at hid
    rw [hr]
    exact h.keys id hid

/-- A journal operation follows. -/
theorem Follows.journal (hf : Fresh e) (ht : Tracked env d e')
    (h : e' = { e with journal := e'.journal, log := e'.log }) : Follows env d e e' :=
  ⟨ht, hf.congr (by rw [h]; exact fun _ hid => hid) (by rw [h]) (by rw [h]), by rw [h], by rw [h]⟩

/-- No extent comes from freeing one. -/
theorem mem_keys_freeExtent {id a : UInt64} (h : a ∈ (e.freeExtent id).entries.keys) :
    a ∈ e.entries.keys := by
  rw [freeExtent_frame e id, AList.keys_erase] at h
  exact List.mem_of_mem_erase h

/-- An extent goes. -/
theorem Follows.freeExtent (ht : Tracked env d e) (hf : Fresh e) (id : UInt64) :
    Follows env d e (e.freeExtent id) := by
  have h := freeExtent_frame e id
  obtain ⟨ht', -⟩ := ht.memory (by rw [h]) (by rw [h] : (e.freeExtent id).log = e.log)
  exact ⟨ht', hf.congr (fun _ hid => mem_keys_freeExtent hid) (by rw [h]) (by rw [h]), by rw [h],
    by rw [h]⟩

/-- `append_slot` and `mark_dead_slot` change one entry. -/
theorem appendSlot_frame (e : Engine) (id : UInt64) (size : UInt32) :
    (e.appendSlot id size).2 = { e with
      entries := (e.appendSlot id size).2.entries
      freeLists := (e.appendSlot id size).2.freeLists } ∧
      (e.appendSlot id size).2.entries.keys.Perm e.entries.keys := by
  unfold appendSlot
  cases hx : e.entries.lookup id with
  | none => exact ⟨rfl, .refl _⟩
  | some x =>
    dsimp only
    split_ifs
    · exact ⟨rfl, .refl _⟩
    · exact ⟨rfl, keys_insert_perm hx⟩

/-- Marking a slot dead leaves the extents. -/
theorem markDeadSlot_keys (e : Engine) (id : UInt64) (length : UInt32) :
    (e.markDeadSlot id length).entries.keys.Perm e.entries.keys := by
  unfold markDeadSlot
  cases hx : e.entries.lookup id with
  | none => exact .refl _
  | some x => exact keys_insert_perm hx

/-- Taking a slot writes nothing to the journal. -/
theorem Follows.appendSlot (ht : Tracked env d e) (hf : Fresh e) (id : UInt64) (size : UInt32) :
    Follows env d e (e.appendSlot id size).2 ∧ (e.appendSlot id size).2.head = e.head ∧
      (e.appendSlot id size).2.stateLength = e.stateLength := by
  obtain ⟨h, hk⟩ := appendSlot_frame e id size
  obtain ⟨ht', hhead⟩ := ht.memory (by rw [h]) (by rw [h] : (e.appendSlot id size).2.log = e.log)
  exact ⟨⟨ht', hf.congr (fun _ hid => hk.mem_iff.mp hid) (by rw [h]) (by rw [h]), by rw [h],
    by rw [h]⟩, hhead, stateLength_congr hk (by rw [h])⟩

/-- Marking a slot dead writes nothing to the journal. -/
theorem Follows.markDeadSlot (ht : Tracked env d e) (hf : Fresh e) (id : UInt64) (length : UInt32) :
    Follows env d e (e.markDeadSlot id length) := by
  have h := markDeadSlot_frame e id length
  obtain ⟨ht', -⟩ := ht.memory (by rw [h]) (by rw [h] : (e.markDeadSlot id length).log = e.log)
  exact ⟨ht', hf.congr (fun _ hid => (markDeadSlot_keys e id length).mem_iff.mp hid) (by rw [h])
    (by rw [h]), by rw [h], by rw [h]⟩

/-- A device write follows. -/
theorem Follows.devWrite (ht : Tracked env d e) (hf : Fresh e) {t : Tier} {off : ℕ}
    {bs : List UInt8} (hw : e.devWrite env t off bs = some e') :
    Follows env d e e' ∧ e'.head = e.head ∧ e'.stateLength = e.stateLength := by
  obtain ⟨ht', hhead⟩ := ht.devWrite hw
  have h := (devWrite_frame hw).1
  exact ⟨⟨ht', hf.congr (by rw [h]; exact fun _ hid => hid) (by rw [h]) (by rw [h]), by rw [h],
    by rw [h]⟩, hhead, stateLength_congr (by rw [h]) (by rw [h])⟩

/-- What `allocate_extent` does to the history: nothing. When it succeeds, there is a new extent. -/
theorem Follows.allocateExtent (henv : env.Lawful) (ht : Tracked env d e) (hf : Fresh e)
    (hnext : e.nextExtentId.toNat + 1 < 2 ^ 64) {t : Tier} {size : ℕ}
    {r : Option (UInt64 × DiskLocation)} (hr : e.allocateExtent env t size = (r, e')) :
    Follows env d e e' ∧ e'.head = e.head ∧
      (r = none ∧ (e.allocateRaw env t size).1 = none ∨
        ∃ loc, r = some (e.nextExtentId, loc) ∧ (e.allocateRaw env t size).1 = some loc ∧
          e'.nextExtentId.toNat = e.nextExtentId.toNat + 1 ∧
          e'.entries = e.entries.insert e.nextExtentId { location := loc }) := by
  have hframe := (took_allocateRaw henv e t size).1.frame
  unfold Engine.allocateExtent at hr
  -- No space, or an extent with an empty entry.
  cases hraw : e.allocateRaw env t size with
  | mk l e1 =>
    rw [hraw] at hr hframe
    replace hframe : e1 = { e with allocCalls := e1.allocCalls, free := e1.free } := hframe
    obtain ⟨ht1, hhead1⟩ := ht.memory (by rw [hframe]) (by rw [hframe] : e1.log = e.log)
    have hf1 : Fresh e1 := hf.congr (by rw [hframe]; exact fun _ hid => hid) (by rw [hframe])
      (by rw [hframe])
    cases l with
    | none =>
      obtain ⟨rfl, rfl⟩ := Prod.mk.inj hr
      exact ⟨⟨ht1, hf1, by rw [hframe], by rw [hframe]⟩, hhead1, .inl ⟨rfl, rfl⟩⟩
    | some loc =>
      obtain ⟨e2, he2⟩ : ∃ e2, e2 = { e1 with
        nextExtentId := e1.nextExtentId + 1
        entries := e1.entries.insert e1.nextExtentId { location := loc }
        freeLists := Function.update e1.freeLists loc.tier
          (freeInsert (loc.length - headerSize, e1.nextExtentId) (e1.freeLists loc.tier)) } :=
        ⟨_, rfl⟩
      simp only [← he2] at hr
      obtain ⟨rfl, rfl⟩ := Prod.mk.inj hr
      have hn1 : e1.nextExtentId = e.nextExtentId := by rw [hframe]
      have hn2 : e2.nextExtentId.toNat = e.nextExtentId.toNat + 1 := by
        rw [he2, hn1]
        simp only [UInt64.toNat_add]
        exact Nat.mod_eq_of_lt hnext
      obtain ⟨ht2, hhead2⟩ := ht1.memory (by rw [he2]) (by rw [he2] : e2.log = e1.log)
      have hent2 : e2.entries = e.entries.insert e.nextExtentId { location := loc } := by
        rw [he2, hframe]
      have hf2 : Fresh e2 := by
        refine ⟨fun id hid => ?_, fun id hid => ?_⟩
        · rw [hn2]
          rw [hent2, AList.keys_insert] at hid
          rcases List.mem_cons.mp hid with rfl | hid
          · omega
          · have := hf.entries id (List.mem_of_mem_erase hid)
            omega
        · rw [show e2.reverseIndex = e.reverseIndex by rw [he2, hframe]]
          exact hf.keys id (by omega)
      have h02 : Follows env d e e2 := ⟨ht2, hf2, by rw [he2, hframe], by rw [he2, hframe]⟩
      unfold writeExtentHeader
      cases hw : e2.devWrite env loc.tier loc.offset.toNat (headerBytes e1.nextExtentId loc.length) with
      | none =>
        exact ⟨h02, hhead2.trans hhead1, .inr ⟨loc, by rw [hn1], rfl, hn2, hent2⟩⟩
      | some e3 =>
        obtain ⟨h23, hhead3, -⟩ := Follows.devWrite ht2 hf2 hw
        have h3 := (devWrite_frame hw).1
        refine ⟨h02.trans h23, (hhead3.trans hhead2).trans hhead1, .inr ⟨loc, by rw [hn1], rfl, ?_, ?_⟩⟩
        · rw [show (some e3).getD e2 = e3 from rfl, h3]
          exact hn2
        · rw [show (some e3).getD e2 = e3 from rfl, h3]
          exact hent2

/-- How many extents `put_write_data` makes, when no allocation fails: one for a large value; one
for a small value that finds no room, and another one when it does not fit in that; and one when
the slot of the extent that was found cannot be had. -/
def extentTxns (env : Env) (e : Engine) (value : Value) : ℕ :=
  let size := UInt32.ofNat value.length
  if size.toNat ≥ env.largeValueThreshold then 1
  else
    let id := e.findExtentWithSpace .fast size
    if id = noExtent then
      match (e.allocateRaw env .fast env.extentSize).1 with
      | none => 1
      | some loc => if size > loc.length - headerSize then 2 else 1
    else if (e.appendSlot id size).1 = noSlot then 1 else 0

/-- How many extents a value needs depends on the extent map and the allocators. -/
theorem extentTxns_congr (hent : e'.entries = e.entries) (hlists : e'.freeLists = e.freeLists)
    (hcalls : e'.allocCalls = e.allocCalls) (hfree : e'.free = e.free) (value : Value) :
    e'.extentTxns env value = e.extentTxns env value := by
  have hfind : e'.findExtentWithSpace .fast (UInt32.ofNat value.length) =
      e.findExtentWithSpace .fast (UInt32.ofNat value.length) := by
    unfold findExtentWithSpace
    rw [hent, hlists]
  have hslot : ∀ id size, (e'.appendSlot id size).1 = (e.appendSlot id size).1 := by
    intro id size
    unfold Engine.appendSlot
    rw [hent]
    cases e.entries.lookup id with
    | none => rfl
    | some x =>
      dsimp only
      split_ifs <;> rfl
  unfold extentTxns
  simp only [hfind, hslot, allocateRaw_congr hfree hcalls]

/-- The transactions of `n` new extents. -/
def extentEntries (n : ℕ) : List Entry := List.replicate n (.txn extentTxnLength)

/-- What `put_write_data` did when it made `n` extents. -/
structure WroteData (env : Env) (d : DurableJournal) (e e' : Engine) (ctx : PutWriteResult) (n : ℕ) :
    Prop where
  /-- The history is safe. -/
  follows : Follows env d e e'
  /-- A transaction for each extent. -/
  head : e'.head = (extentEntries n).foldl Head.after e.head
  /-- One of the extents stays. -/
  length : e'.stateLength = e.stateLength + if n = 0 then 0 else 30
  /-- The value goes to an extent with a name that is taken. -/
  target : ctx.target.toNat < e'.nextExtentId.toNat

/-- The transaction of a new extent. -/
theorem length_extentNew (id : UInt64) (loc : DiskLocation) :
    22 + (serializeRecords [{ op := .extentNew, extentId := id, extentLoc := loc }]).length =
      extentTxnLength := by
  simp [serializeRecords, length_serializeRecord, serializeFields, putDiskLocation, extentTxnLength]

/-- `put_allocate_new_extent`, when its transaction finds clear space. -/
theorem Follows.putAllocateNewExtent (henv : env.Lawful) (ht : Tracked env d e) (hf : Fresh e)
    (hnext : e.nextExtentId.toNat + 1 < 2 ^ 64) (hc : e.head.Clear (.txn extentTxnLength)) {t : Tier}
    {size : ℕ} {st : Status} {id : UInt64} {loc : DiskLocation}
    (hr : e.putAllocateNewExtent env t size = (st, id, loc, e')) :
    Follows env d e e' ∧ (st = .enospc ∧ (e.allocateRaw env t size).1 = none ∨
      st = .ok ∧ id = e.nextExtentId ∧ (e.allocateRaw env t size).1 = some loc ∧
        e'.nextExtentId.toNat = e.nextExtentId.toNat + 1 ∧
        e'.entries = e.entries.insert e.nextExtentId { location := loc } ∧
        e'.head = e.head.after (.txn extentTxnLength)) := by
  unfold Engine.putAllocateNewExtent at hr
  cases ha : e.allocateExtent env t size with
  | mk r e1 =>
    obtain ⟨h1, hhead1, hcases⟩ := Follows.allocateExtent henv ht hf hnext ha
    rw [ha] at hr
    rcases hcases with ⟨rfl, hnone⟩ | ⟨loc', rfl, hsome, hnext1, hent1⟩
    · simp only [Prod.mk.injEq] at hr
      obtain ⟨rfl, -, -, rfl⟩ := hr
      exact ⟨h1, .inl ⟨rfl, hnone⟩⟩
    · simp only [putPreTransactionExtent] at hr
      have hlen := length_extentNew e.nextExtentId loc'
      obtain ⟨e2, he2, ht2, hhead2, hframe2⟩ := h1.tracked.journalTxn
        [{ op := .extentNew, extentId := e.nextExtentId, extentLoc := loc' }]
        (by rw [hlen, hhead1]; exact hc)
      rw [he2] at hr
      simp only [Prod.mk.injEq] at hr
      obtain ⟨rfl, rfl, rfl, rfl⟩ := hr
      refine ⟨h1.trans (.journal h1.fresh ht2 hframe2), .inr ⟨rfl, rfl, hsome, ?_, ?_, ?_⟩⟩
      · rw [hframe2]
        exact hnext1
      · rw [hframe2]
        exact hent1
      · rw [hhead2, hlen, hhead1]

/-- The data write of `put_write_data`. -/
theorem Follows.putWriteSlot (ht : Tracked env d e) (hf : Fresh e) {value : Value}
    {ctx ctx' : PutWriteResult} {st : Status} (hr : e.putWriteSlot env value ctx = (st, ctx', e')) :
    Follows env d e e' ∧ (st = .ok → ctx' = ctx ∧ e'.head = e.head ∧
      e'.stateLength = e.stateLength ∧ e'.nextExtentId = e.nextExtentId) := by
  unfold Engine.putWriteSlot at hr
  split at hr
  · rename_i e1 hw
    simp only [Prod.mk.injEq] at hr
    obtain ⟨rfl, rfl, rfl⟩ := hr
    obtain ⟨h1, hhead, hlen⟩ := Follows.devWrite ht hf hw
    exact ⟨h1, fun _ => ⟨rfl, hhead, hlen, by rw [(devWrite_frame hw).1]⟩⟩
  · simp only [Prod.mk.injEq] at hr
    obtain ⟨rfl, rfl, rfl⟩ := hr
    refine ⟨?_, by simp⟩
    split_ifs
    · exact .freeExtent ht hf _
    · exact .markDeadSlot ht hf _ _

/-- A fresh extent and a slot in it. -/
theorem Follows.putNewExtent (henv : env.Lawful) (ht : Tracked env d e) (hf : Fresh e)
    (hnext : e.nextExtentId.toNat + 1 < 2 ^ 64) (hc : e.head.Clear (.txn extentTxnLength))
    {value : Value} {size : ℕ} {st : Status} {ctx : PutWriteResult}
    (hr : e.putNewExtent env value size = (st, ctx, e')) :
    Follows env d e e' ∧ (st = .ok → WroteData env d e e' ctx 1) := by
  unfold Engine.putNewExtent at hr
  cases ha : e.putAllocateNewExtent env .fast size with
  | mk st1 r1 =>
    obtain ⟨id, loc, e1⟩ := r1
    obtain ⟨h1, hcases⟩ := Follows.putAllocateNewExtent henv ht hf hnext hc ha
    rw [ha] at hr
    rcases hcases with ⟨rfl, -⟩ | ⟨rfl, rfl, -, hnext1, hent1, hhead1⟩
    · simp only [Prod.mk.injEq] at hr
      obtain ⟨rfl, rfl, rfl⟩ := hr
      exact ⟨h1, by simp⟩
    · have hlen1 : e1.stateLength = e.stateLength + 30 :=
        stateLength_insert hf.lookup_next hent1 (by rw [h1.reverseIndex, hf.keys _ (le_refl _)])
          h1.reverseIndex
      obtain ⟨h2, hhead2, hlen2⟩ := Follows.appendSlot h1.tracked h1.fresh e.nextExtentId
        (UInt32.ofNat value.length)
      have hnext2 := congrArg Engine.nextExtentId
        (appendSlot_frame e1 e.nextExtentId (UInt32.ofNat value.length)).1
      dsimp only at hr
      split_ifs at hr with hslot
      · simp only [Prod.mk.injEq] at hr
        obtain ⟨rfl, rfl, rfl⟩ := hr
        exact ⟨(h1.trans h2).trans (.freeExtent h2.tracked h2.fresh _), by simp⟩
      · obtain ⟨h3, hok⟩ := Follows.putWriteSlot h2.tracked h2.fresh hr
        refine ⟨(h1.trans h2).trans h3, fun hst => ?_⟩
        obtain ⟨rfl, hhead3, hlen3, hnext3⟩ := hok hst
        refine ⟨(h1.trans h2).trans h3, ?_, ?_, ?_⟩
        · rw [hhead3, hhead2, hhead1]
          rfl
        · rw [hlen3, hlen2, hlen1]
          simp
        · rw [hnext3, hnext2, hnext1]
          exact Nat.lt_succ_self _

/-- A slot in an extent without keys: there is one when the value fits. -/
theorem appendSlot_fresh {id : UInt64} {loc : DiskLocation}
    (hx : e.entries.lookup id = some { location := loc }) (size : UInt32) :
    ((e.appendSlot id size).1 = noSlot ↔ size > loc.length - headerSize) ∧
      ((e.appendSlot id size).1 = noSlot → (e.appendSlot id size).2 = e) := by
  unfold Engine.appendSlot
  rw [hx]
  simp only [ExtentEntry.capacity, UInt32.zero_add, Bool.false_eq_true, false_or]
  split_ifs with h
  · simp [h]
  · have hslot : ¬ ((0 : UInt32) = noSlot) := by decide
    simp only [h, hslot, false_implies, and_self]

/-- `put_write_data` with an extent that was found. -/
theorem Follows.putFound (henv : env.Lawful) (ht : Tracked env d e) (hf : Fresh e)
    (hnext : e.nextExtentId.toNat + 1 < 2 ^ 64) {value : Value} {id : UInt64} {size : UInt32}
    {n : ℕ} (hn : n = if (e.appendSlot id size).1 = noSlot then 1 else 0)
    (hc : e.head.Clears (extentEntries n)) {st : Status} {ctx : PutWriteResult}
    (hr : (match e.entries.lookup id with
      | none => (.eio, ⟨id, 0, {}, false⟩, e)
      | some x =>
        match e.appendSlot id size with
        | (offset, e) =>
          if offset = noSlot then e.putNewExtent env value env.extentSize
          else e.putWriteSlot env value ⟨id, offset, x.location, false⟩) = (st, ctx, e')) :
    Follows env d e e' ∧ (st = .ok → WroteData env d e e' ctx n) := by
  cases hx : e.entries.lookup id with
  | none =>
    rw [hx] at hr
    simp only [Prod.mk.injEq] at hr
    obtain ⟨rfl, rfl, rfl⟩ := hr
    exact ⟨⟨ht, hf, rfl, rfl⟩, by simp⟩
  | some x =>
    rw [hx] at hr
    obtain ⟨h2, hhead2, hlen2⟩ := Follows.appendSlot ht hf id size
    have hframe2 := (appendSlot_frame e id size).1
    dsimp only at hr
    split_ifs at hr hn with hslot
    · subst hn
      obtain ⟨h3, hok⟩ := Follows.putNewExtent henv h2.tracked h2.fresh
        (by rw [hframe2]; exact hnext) (by rw [hhead2]; exact hc.1) hr
      refine ⟨h2.trans h3, fun hst => ?_⟩
      obtain ⟨-, hhead3, hlen3, htarget⟩ := hok hst
      refine ⟨h2.trans h3, ?_, ?_, htarget⟩
      · rw [hhead3, hhead2]
      · rw [hlen3, hlen2]
    · subst hn
      obtain ⟨h3, hok⟩ := Follows.putWriteSlot h2.tracked h2.fresh hr
      refine ⟨h2.trans h3, fun hst => ?_⟩
      obtain ⟨rfl, hhead3, hlen3, hnext3⟩ := hok hst
      refine ⟨h2.trans h3, ?_, ?_, ?_⟩
      · rw [hhead3, hhead2]
        rfl
      · rw [hlen3, hlen2]
        simp
      · rw [hnext3, hframe2]
        exact hf.entries _ (AList.mem_keys.mp (AList.lookup_isSome.mp (by rw [hx]; rfl)))

/-- `put_write_data`, when the transactions of its extents find clear space. -/
theorem Follows.putWriteData (henv : env.Lawful) (ht : Tracked env d e) (hf : Fresh e)
    (hnext : e.nextExtentId.toNat + 2 < 2 ^ 64) {value : Value}
    (hc : e.head.Clears (extentEntries (e.extentTxns env value))) {st : Status}
    {ctx : PutWriteResult} (hr : e.putWriteData env value = (st, ctx, e')) :
    Follows env d e e' ∧ (st = .ok → WroteData env d e e' ctx (e.extentTxns env value)) := by
  -- As many transactions as the value needs new extents.
  obtain ⟨n, hn⟩ : ∃ n, n = e.extentTxns env value := ⟨_, rfl⟩
  rw [← hn] at hc ⊢
  unfold extentTxns at hn
  unfold Engine.putWriteData at hr
  dsimp only at hr hn
  split_ifs at hn with hlarge hfound hslot
  · -- A large value gets its own extent.
    rw [if_pos hlarge] at hr
    subst hn
    exact Follows.putNewExtent henv ht hf (by omega) hc.1 hr
  · -- No extent has room.
    rw [if_neg hlarge, if_pos hfound] at hr
    -- At least one extent is made.
    have hpos : 0 < n := by
      subst hn
      split
      · decide
      · split_ifs <;> decide
    obtain ⟨m, rfl⟩ : ∃ m, n = m + 1 := ⟨n - 1, by omega⟩
    cases ha : e.putAllocateNewExtent env .fast env.extentSize with
    | mk st1 r1 =>
      obtain ⟨id, loc, e1⟩ := r1
      obtain ⟨h1, hcases⟩ := Follows.putAllocateNewExtent henv ht hf (by omega) hc.1 ha
      rw [ha] at hr
      rcases hcases with ⟨rfl, -⟩ | ⟨rfl, rfl, hraw, hnext1, hent1, hhead1⟩
      · simp only [Prod.mk.injEq] at hr
        obtain ⟨rfl, rfl, rfl⟩ := hr
        exact ⟨h1, by simp⟩
      · rw [hraw] at hn
        have hx1 : e1.entries.lookup e.nextExtentId = some { location := loc } := by
          rw [hent1, AList.lookup_insert]
        have hslot := appendSlot_fresh hx1 (UInt32.ofNat value.length)
        obtain ⟨h2, hhead2, hlen2⟩ := Follows.appendSlot h1.tracked h1.fresh e.nextExtentId
          (UInt32.ofNat value.length)
        obtain ⟨e2, he2⟩ : ∃ e2, e2 = (e1.appendSlot e.nextExtentId (UInt32.ofNat value.length)).2 :=
          ⟨_, rfl⟩
        have hframe2 := (appendSlot_frame e1 e.nextExtentId (UInt32.ofNat value.length)).1
        dsimp only at hr hn
        rw [← he2] at h2 hhead2 hlen2 hframe2 hr
        split_ifs at hr with hfull
        · -- The value does not fit in the extent, which goes again.
          rw [if_pos (hslot.1.mp hfull)] at hn
          obtain rfl : m = 1 := by omega
          obtain rfl : e2 = e1 := he2.trans (hslot.2 hfull)
          have h3 := Follows.freeExtent h1.tracked h1.fresh e.nextExtentId
          have hframe3 := freeExtent_frame e2 e.nextExtentId
          have hhead3 : (e2.freeExtent e.nextExtentId).head = e2.head := by
            rw [hframe3]
            rfl
          have hlen3 := stateLength_freeExtent_insert hf.lookup_next hent1 h1.reverseIndex
          have hc2 : e2.head.Clear (.txn extentTxnLength) := by
            rw [hhead1]
            exact hc.2.1
          obtain ⟨h4, hok⟩ := Follows.putNewExtent henv h3.tracked h3.fresh
            (by rw [hframe3]; show e2.nextExtentId.toNat + 1 < _; omega)
            (by rw [hhead3]; exact hc2) hr
          refine ⟨(h1.trans h3).trans h4, fun hst => ?_⟩
          obtain ⟨-, hhead4, hlen4, htarget⟩ := hok hst
          refine ⟨(h1.trans h3).trans h4, ?_, ?_, htarget⟩
          · rw [hhead4, hhead3, hhead1]
            rfl
          · rw [hlen4, hlen3]
            simp
        · rw [if_neg fun h => hfull (hslot.1.mpr h)] at hn
          obtain rfl : m = 0 := by omega
          have hlen1 : e1.stateLength = e.stateLength + 30 :=
            stateLength_insert hf.lookup_next hent1
              (by rw [h1.reverseIndex, hf.keys _ (le_refl _)]) h1.reverseIndex
          obtain ⟨h3, hok⟩ := Follows.putWriteSlot h2.tracked h2.fresh hr
          refine ⟨(h1.trans h2).trans h3, fun hst => ?_⟩
          obtain ⟨rfl, hhead3, hlen3, hnext3⟩ := hok hst
          refine ⟨(h1.trans h2).trans h3, ?_, ?_, ?_⟩
          · rw [hhead3, hhead2, hhead1]
            rfl
          · rw [hlen3, hlen2, hlen1]
            simp
          · rw [hnext3, hframe2]
            show e.nextExtentId.toNat < e1.nextExtentId.toNat
            omega
  · -- An extent has room, but its slot cannot be had.
    rw [if_neg hlarge, if_neg hfound] at hr
    exact Follows.putFound henv ht hf (by omega) (by rw [if_pos hslot]; exact hn) hc hr
  · -- An extent has room.
    rw [if_neg hlarge, if_neg hfound] at hr
    exact Follows.putFound henv ht hf (by omega) (by rw [if_neg hslot]; exact hn) hc hr

/-! ## Put and del -/

/-- The entries that a `put` writes: a checkpoint when the journal is nearly full, a transaction for
each new extent and one for the key, and a checkpoint when they have filled the journal. -/
def putEntries (env : Env) (e : Engine) (k : Key) (value : Value) : List Entry :=
  let n := e.extentTxns env value
  let first := if env.isNearFull e.head.used e.head.dataSize then
    [Entry.checkpoint (31 + e.stateLength)] else []
  let txns := first ++ extentEntries n ++ [Entry.txn (e.putTxnLength k)]
  let h := txns.foldl Head.after e.head
  txns ++ if env.needsCheckpoint h.used h.dataSize then
    [Entry.checkpoint (31 + (e.stateLength + if n = 0 then 0 else 30))] else []

/-- The condition under which a `put` overwrites nothing that is needed. -/
structure PutBounds (env : Env) (e : Engine) (k : Key) (value : Value) : Prop where
  /-- There are names for two more extents. -/
  next : e.nextExtentId.toNat + 2 < 2 ^ 64
  /-- The entries find clear space. -/
  clear : e.head.Clears (e.putEntries env k value)

instance (env : Env) (e : Engine) (k : Key) (value : Value) : Decidable (PutBounds env e k value) :=
  decidable_of_iff (e.nextExtentId.toNat + 2 < 2 ^ 64 ∧ e.head.Clears (e.putEntries env k value))
    ⟨fun h => ⟨h.1, h.2⟩, fun h => ⟨h.next, h.clear⟩⟩

/-- The condition under which a `del` overwrites nothing that is needed. -/
def DelBounds (e : Engine) (k : Key) : Prop :=
  (e.keyMap k).isSome → e.head.Clear (.txn (k.length + 56))

instance (e : Engine) (k : Key) : Decidable (DelBounds e k) := inferInstanceAs (Decidable (_ → _))

/-- The history is safe, and the names of new extents are fresh. -/
def Guarded (env : Env) (d : DurableJournal) (e : Engine) : Prop := Tracked env d e ∧ Fresh e

/-- The guard is what the parts of a call keep. -/
theorem Follows.guarded (h : Follows env d e e') : Guarded env d e' := ⟨h.tracked, h.fresh⟩

/-- What happens to the key map leaves the names fresh when it adds no key to a new extent. -/
theorem Guarded.keys (h : Guarded env d e)
    (hf : e' = { e with keyMap := e'.keyMap, reverseIndex := e'.reverseIndex })
    (hr : ∀ id, e.nextExtentId.toNat ≤ id.toNat → e'.reverseIndex id = []) : Guarded env d e' := by
  refine ⟨(h.1.memory (by rw [hf]) (by rw [hf])).1, fun id hid => ?_, fun id hid => ?_⟩
  · rw [show e'.entries = e.entries by rw [hf]] at hid
    rw [show e'.nextExtentId = e.nextExtentId by rw [hf]]
    exact h.2.entries id hid
  · rw [show e'.nextExtentId = e.nextExtentId by rw [hf]] at hid
    exact hr id hid

/-- A key that is put at an extent with a used name keeps the guard. -/
theorem Guarded.keyPut (h : Guarded env d e) (k : Key) {loc : KeyLocation}
    (hloc : loc.extentId.toNat < e.nextExtentId.toNat) : Guarded env d (e.keyPut k loc) := by
  refine h.keys rfl fun id hid => ?_
  have hne : id ≠ loc.extentId := by
    rintro rfl
    omega
  unfold Engine.keyPut
  simp only
  rw [Function.update_of_ne hne]
  cases e.keyMap k with
  | none => exact h.2.keys id hid
  | some old =>
    dsimp only
    split_ifs
    · unfold Function.update
      split_ifs with hold
      · subst hold
        dsimp only
        rw [h.2.keys _ hid]
        rfl
      · exact h.2.keys id hid
    · exact h.2.keys id hid

/-- So does one that is erased. -/
theorem Guarded.keyErase (h : Guarded env d e) (k : Key) : Guarded env d (e.keyErase k) := by
  refine h.keys (keyErase_frame e k) fun id hid => ?_
  unfold Engine.keyErase
  cases e.keyMap k with
  | none => exact h.2.keys id hid
  | some old =>
    dsimp only
    unfold Function.update
    split_ifs with hold
    · subst hold
      dsimp only
      rw [h.2.keys _ hid]
      rfl
    · exact h.2.keys id hid

/-- So does a slot that is retired. -/
theorem Guarded.retireSlot (h : Guarded env d e) (old : KeyLocation) :
    Guarded env d (e.retireSlot old) := by
  have h1 := Follows.markDeadSlot h.1 h.2 old.extentId old.length
  unfold Engine.retireSlot
  dsimp only
  split_ifs
  · exact (Follows.freeExtent h1.tracked h1.fresh _).guarded
  · exact h1.guarded

/-- The checkpoint of a `put`, when the journal is full enough. -/
theorem Follows.checkpointIf (henv : env.Lawful) (ht : Tracked env d e) (hf : Fresh e)
    (full : ℕ → ℕ → Bool) {ops : List Entry}
    (hops : ops = if full e.head.used e.head.dataSize then [.checkpoint (31 + e.stateLength)] else [])
    (hc : e.head.Clears ops) :
    Follows env d e (e.checkpointIf env full) ∧
      (e.checkpointIf env full).head = ops.foldl Head.after e.head ∧
      e.checkpointIf env full = { e with
        journal := (e.checkpointIf env full).journal, log := (e.checkpointIf env full).log } := by
  unfold Engine.checkpointIf
  change _ = if full e.journal.getUsedBytes e.journal.dataSize = true then _ else _ at hops
  split_ifs at hops ⊢
  · subst hops
    obtain ⟨ht', hhead, hframe⟩ := ht.checkpoint henv hc.1
    exact ⟨.journal hf ht' hframe, hhead, hframe⟩
  · subst hops
    exact ⟨⟨ht, hf, rfl, rfl⟩, rfl, rfl⟩

/-- A `put` that meets its condition keeps the history safe. -/
theorem Guarded.put (henv : env.Lawful) (h : Guarded env d e) {k : Key} {value : Value}
    (hok : PutBounds env e k value) {st : Status} (hr : e.put env k value = (st, e')) :
    Guarded env d e' := by
  -- The condition speaks of the entries of all phases, one behind the other.
  obtain ⟨ht, hf⟩ := h
  have hclear := hok.clear
  unfold putEntries at hclear
  dsimp only at hclear
  obtain ⟨n, hn⟩ : ∃ n, n = e.extentTxns env value := ⟨_, rfl⟩
  obtain ⟨first, hfirst⟩ : ∃ ops, ops = if env.isNearFull e.head.used e.head.dataSize then
    [Entry.checkpoint (31 + e.stateLength)] else [] := ⟨_, rfl⟩
  rw [← hn, ← hfirst, Head.clears_append, Head.clears_append, Head.clears_append] at hclear
  obtain ⟨⟨⟨hc0, hc1⟩, hc2⟩, hc3⟩ := hclear
  obtain ⟨h0, hhead0, hframe0⟩ := Follows.checkpointIf henv ht hf _ hfirst hc0
  obtain ⟨e0, he0⟩ : ∃ e0, e0 = e.checkpointIf env env.isNearFull := ⟨_, rfl⟩
  rw [← he0] at h0 hhead0 hframe0
  unfold Engine.put at hr
  dsimp only at hr
  rw [← he0] at hr
  -- The first phase changes nothing that the second one looks at.
  have hn0 : e0.extentTxns env value = n := by
    rw [hn]
    exact extentTxns_congr (by rw [hframe0]) (by rw [hframe0]) (by rw [hframe0]) (by rw [hframe0]) _
  have hlen0 : e0.stateLength = e.stateLength := stateLength_congr (by rw [hframe0]) (by rw [hframe0])
  -- The second phase writes the transactions of the extents.
  cases hw : e0.putWriteData env value with
  | mk st1 r1 =>
    obtain ⟨ctx, e1⟩ := r1
    obtain ⟨h1, hdata⟩ := Follows.putWriteData henv h0.tracked h0.fresh
      (by rw [hframe0]; exact hok.next) (by rw [hn0, hhead0]; exact hc1) hw
    rw [hn0] at hdata
    rw [hw] at hr
    -- The third writes that of the key.
    cases st1 with
    | ok =>
      obtain ⟨-, hhead1, hlen1, htarget⟩ := hdata rfl
      dsimp only at hr
      obtain ⟨rs, hrs⟩ : ∃ rs, rs = putRecords k (e0.keyMap k)
        ⟨ctx.target, ctx.offset, UInt32.ofNat value.length⟩ := ⟨_, rfl⟩
      have hrslen : 22 + (serializeRecords rs).length = e.putTxnLength k := by
        unfold putTxnLength
        rw [hrs, length_putRecords_eq, h0.keyMap]
      obtain ⟨e2, he2, ht2, hhead2, hframe2⟩ := h1.tracked.journalTxn rs (by
        rw [hrslen, hhead1, hhead0, ← List.foldl_append]
        exact hc2.1)
      rw [← hrs, he2] at hr
      obtain ⟨rfl, rfl⟩ := Prod.mk.inj hr
      have h2 : Follows env d e1 e2 := .journal h1.fresh ht2 hframe2
      have hlen2 : e2.stateLength = e.stateLength + if n = 0 then 0 else 30 := by
        rw [stateLength_congr (by rw [hframe2]) (by rw [hframe2] : e2.reverseIndex = e1.reverseIndex),
          hlen1, hlen0]
      have hheads : e2.head = (first ++ extentEntries n ++ [Entry.txn (e.putTxnLength k)]).foldl
          Head.after e.head := by
        rw [hhead2, hrslen, hhead1, hhead0, List.foldl_append, List.foldl_append]
        rfl
      obtain ⟨h3, -, hframe3⟩ := Follows.checkpointIf henv ht2 h2.fresh
        env.needsCheckpoint rfl (by rw [hlen2, hheads]; exact hc3)
      have hput : Guarded env d ((e2.checkpointIf env env.needsCheckpoint).keyPut k
          ⟨ctx.target, ctx.offset, UInt32.ofNat value.length⟩) := by
        refine h3.guarded.keyPut k ?_
        rw [hframe3, hframe2]
        exact htarget
      unfold putCommitMemoryState
      cases e0.keyMap k with
      | none => exact hput
      | some old => exact hput.retireSlot old
    | _ =>
      obtain ⟨rfl, rfl⟩ := Prod.mk.inj hr
      exact h1.guarded

/-- A `del` that meets its condition keeps the history safe. -/
theorem Guarded.del (h : Guarded env d e) {k : Key} (hok : DelBounds e k) {st : Status}
    (hr : e.del k = (st, e')) : Guarded env d e' := by
  unfold Engine.del at hr
  cases hk : e.keyMap k with
  | none =>
    simp only [hk, Prod.mk.injEq] at hr
    obtain ⟨rfl, rfl⟩ := hr
    exact h
  | some kl =>
    simp only [hk] at hr
    obtain ⟨rs, hrs⟩ : ∃ rs : List JournalRecord, rs = [{ op := .keyDel, key := k },
      { op := .markDead, extentId := kl.extentId, deadLength := kl.length }] := ⟨_, rfl⟩
    have hlen : 22 + (serializeRecords rs).length = k.length + 56 := by
      rw [hrs]
      simp [serializeRecords, length_serializeRecord, serializeFields, putString]
      omega
    obtain ⟨e1, he1, ht1, -, hframe1⟩ := h.1.journalTxn rs
      (by rw [hlen]; exact hok (by rw [hk]; rfl))
    rw [← hrs, he1] at hr
    obtain ⟨rfl, rfl⟩ := Prod.mk.inj hr
    exact ((Follows.journal h.2 ht1 hframe1).guarded.keyErase k).retireSlot kl

/-! ## Runs -/

/-- A fresh engine's history is safe: the first checkpoint is all that is needed. -/
def initJournal (env : Env) (dev : Device) : DurableJournal where
  superblock := ((Journal.create dev env.journalSize).checkpoint []).2.superblock
  needed := [(kSuperblockSize, kTxnAlignment)]

/-- A fresh engine is guarded. -/
theorem guarded_init {dev : Device} (hstart : StartOk env dev) (slow : ℕ → UInt8) :
    Guarded env (initJournal env dev) (init env dev slow) := by
  obtain ⟨j, hj⟩ : ∃ j, j = Journal.create dev env.journalSize := ⟨_, rfl⟩
  obtain ⟨bl, hbl⟩ : ∃ b, b = Journal.checkpointBytes (serializeRecords []) := ⟨_, rfl⟩
  obtain ⟨⟨hds, hdev, hcap, hw0⟩, j1, hw1, hcp, hwrote, hinit⟩ := init_checkpoint hstart hj hbl
  have hroom := hstart.room
  have hle := hstart.journal_le
  have hcap' := hstart.capacity
  have hpad : Journal.padded bl.length = kTxnAlignment := by rw [hbl, length_emptyCheckpoint]; rfl
  obtain ⟨j2, hj2⟩ : ∃ j2, j2 = Journal.afterCheckpoint j.writeOffset j1 := ⟨_, rfl⟩
  have hcpo : j2.superblock.checkpointOffset = 0 := by rw [hj2, hw0]; rfl
  have hwo : j2.superblock.writeOffset = j2.writeOffset := by rw [hj2]; rfl
  have hidle : ∀ id, j2.activeTxns id = none := by
    intro id
    rw [hj2, show (Journal.afterCheckpoint j.writeOffset j1).activeTxns = j1.activeTxns from rfl,
      (padAndWrite_frame hw1).2.2.2.1, hj]
    unfold Journal.create Journal.readSuperblock
    split_ifs <;> rfl
  rw [← hj2] at hwrote hinit hcp
  have hsize := hwrote.dataSize
  have hhead : j2.writeOffset = kTxnAlignment := by
    have hstart0 : j.writeStart (Journal.padded bl.length) = 0 := by
      unfold Journal.writeStart
      rw [hw0, hpad, if_neg (by omega)]
    rw [hwrote.head, hstart0, hpad, if_neg (by omega), Nat.zero_add]
  have hd : (initJournal env dev).superblock = j2.superblock := by
    unfold initJournal
    rw [← hj, hcp]
  have hpos : 0 < kTxnAlignment := by decide
  rw [hinit]
  refine ⟨⟨?_, hd, hwo, ⟨?_, hidle⟩, ?_, ⟨?_, ?_, ?_⟩⟩, by simp [opened], fun _ _ => rfl⟩
  · -- The offsets delimit the first checkpoint.
    show DurableJournal.Covered j2.dataSize (initJournal env dev)
    intro r hr i h1 h2
    obtain rfl := List.mem_singleton.mp hr
    dsimp only at h1 h2
    refine ⟨h1, ?_⟩
    unfold Head.Delimits DurableJournal.head
    simp only [hd, hcpo, hwo, hhead]
    rw [if_pos (Nat.zero_le _)]
    omega
  · show j2.dataSize + kSuperblockSize = env.journalSize
    omega
  · show j2.dataSize ≤ j2.dev.capacity
    rw [hsize, hwrote.capacity]
    omega
  · show j2.superblock.checkpointOffset < j2.dataSize
    omega
  · show j2.writeOffset < j2.dataSize
    omega
  · show j2.superblock.checkpointOffset ≠ j2.writeOffset
    omega

/-- The conditions of the calls of a run of `put` and `del`. -/
def BoundsOk (env : Env) (e : Engine) : Action → Prop
  | .put k value _ => PutBounds env e k value
  | .del k _ => DelBounds e k
  | _ => False

instance (env : Env) (e : Engine) : ∀ a, Decidable (BoundsOk env e a)
  | .put k value _ => inferInstanceAs (Decidable (PutBounds env e k value))
  | .del k _ => inferInstanceAs (Decidable (DelBounds e k))
  | .processDeferredFree => isFalse id
  | .migrateTier _ => isFalse id
  | .compact _ => isFalse id
  | .checkpoint => isFalse id

/-- Every call that meets the condition keeps the guard. -/
theorem guarded_step (henv : env.Lawful) {a : Action} (h : Guarded env d e) (hok : BoundsOk env e a)
    (hs : step env e a = some e') : Guarded env d e' := by
  cases a with
  | put k value st =>
    cases hr : e.put env k value with
    | mk st' e1 =>
      simp only [step, hr, Option.ite_none_right_eq_some] at hs
      exact Option.some.inj hs.2 ▸ h.put henv hok hr
  | del k st =>
    cases hr : e.del k with
    | mk st' e1 =>
      simp only [step, hr, Option.ite_none_right_eq_some] at hs
      exact Option.some.inj hs.2 ▸ h.del hok hr
  | _ => exact hok.elim

end

/-- In every run of `put` and `del` in which each entry of the journal finds clear space, every
write of the journal lies in the journal, behind the superblock, and off the bytes that the
superblock on the device delimits at that time; and these are always all that was written since the
last checkpoint. -/
theorem journal_overwrites_nothing (env : Env) (henv : env.Lawful) (dev : Device)
    (hstart : StartOk env dev) (slow : ℕ → UInt8) (as : List Action) (e : Engine)
    (hm : Runs.Meets (step env) (BoundsOk env) (init env dev slow) as)
    (hs : Runs.exec (step env) (init env dev slow) as = some e) :
    Safe (env.journalSize - kSuperblockSize) (initJournal env dev) (journalHistory e.log) := by
  have hguard : Guarded env (initJournal env dev) e :=
    Runs.exec_invariant
      (fun _ _ _ h hok hs => guarded_step henv h hok hs) as _ e (guarded_init hstart slow) hm hs
  have hsize := hguard.1.ready.dataSize
  have hsafe := hguard.1.safe
  rwa [show e.journal.dataSize = env.journalSize - kSuperblockSize by omega] at hsafe

/-! ## A small engine -/

/-- A key is put, another one, and the first is deleted. -/
def putPutDel : List Action := [.put [97] [6] .ok, .put [98] [4] .ok, .del [97] .ok]

/-- The conditions are met by a run that writes four entries. -/
theorem journal_overwrites_nothing_putPutDel :
    ∃ e, Runs.exec (step longJournalEnv) (init longJournalEnv (blankDevice 15) fun _ => 0)
        putPutDel = some e ∧ (journalHistory e.log).length = 4 ∧
      Safe 40960 (initJournal longJournalEnv (blankDevice 15)) (journalHistory e.log) := by
  have hrun : (Runs.exec (step longJournalEnv) (init longJournalEnv (blankDevice 15) fun _ => 0)
      putPutDel).map (fun e => (journalHistory e.log).length) = some 4 := by decide +kernel
  have hm : Runs.Meets (step longJournalEnv) (BoundsOk longJournalEnv)
      (init longJournalEnv (blankDevice 15) fun _ => 0) putPutDel := by decide +kernel
  obtain ⟨e, he, hlen⟩ := Option.map_eq_some_iff.mp hrun
  exact ⟨e, he, hlen, journal_overwrites_nothing longJournalEnv
    ⟨smallEnv_lawful.free, smallEnv_lawful.blocks, smallEnv_lawful.keys, smallEnv_lawful.ids⟩
    (blankDevice 15) ⟨by decide, by decide, by decide, by decide, by decide⟩ (fun _ => 0) putPutDel
    e hm he⟩

/-- The small engine with a journal of five blocks. -/
def fiveBlockEnv : Env := { smallEnv with journalSize := 20480 }

/-- A key of 4100 bytes. -/
def longKey : Key := List.replicate 4100 97

/-- The first put leaves one block of the data area free. The transaction of the second one needs
two: it starts over at the checkpoint, which the superblock on the device still names. -/
theorem longKey_overwrites_checkpoint :
    ∃ e, fiveBlockEnv.Lawful ∧ StartOk fiveBlockEnv (blankDevice 15) ∧
      Runs.exec (step fiveBlockEnv) (init fiveBlockEnv (blankDevice 15) fun _ => 0)
        [.put [97] [6] .ok, .put longKey [4] .ok] = some e ∧
      ¬ Safe (fiveBlockEnv.journalSize - kSuperblockSize) (initJournal fiveBlockEnv (blankDevice 15))
        (journalHistory e.log) := by
  have hrun : (Runs.exec (step fiveBlockEnv) (init fiveBlockEnv (blankDevice 15) fun _ => 0)
      [.put [97] [6] .ok, .put longKey [4] .ok]).map (fun e => (journalHistory e.log).map fun w =>
        (w.offset, w.length, w.superblock.checkpointOffset, w.superblock.writeOffset)) =
      some [(8192, 4096, 0, 8192), (12288, 4096, 0, 12288), (4096, 8192, 0, 8192)] := by
    decide +kernel
  obtain ⟨e, he, hmap⟩ := Option.map_eq_some_iff.mp hrun
  refine ⟨e, ⟨smallEnv_lawful.free, smallEnv_lawful.blocks, smallEnv_lawful.keys,
    smallEnv_lawful.ids⟩, ⟨by decide, by decide, by decide, by decide, by decide⟩, he, ?_⟩
  have hlen3 : (journalHistory e.log).length = 3 := by simpa using congrArg List.length hmap
  obtain ⟨w1, w2, w3, hist⟩ := List.length_eq_three.mp hlen3
  rw [hist] at hmap ⊢
  simp only [List.map_cons, List.map_nil, List.cons.injEq, Prod.mk.injEq, and_true] at hmap
  obtain ⟨-, ⟨-, -, hcp, hwo⟩, hoff, hlen, -, -⟩ := hmap
  rintro ⟨-, -, -, -, -, hok, -⟩
  -- The first byte of the third write is the first byte of the checkpoint.
  refine hok.off 4096 (by omega) (by omega) ?_
  unfold Head.Delimits DurableJournal.head DurableJournal.apply
  simp only [hcp, hwo]
  decide

end Engine

end CxxLab.Btier
