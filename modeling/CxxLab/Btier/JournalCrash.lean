import CxxLab.Btier.Recovery

/-!
# The journal under crashes

A journal operation writes its bytes and then the superblock. Until the superblock is written,
recovery finds what it found before, whatever part of the bytes has arrived: they lie outside of
what the old superblock covers. `Room` says of a list of transactions that each of them finds such
a place when its turn comes.
-/

namespace CxxLab.Btier

open Journal

namespace Journal

/-- The used bytes are those of the segments. -/
theorem Holds.getUsedBytes_eq {j : Journal} {gs : List Segment}
    (h : Holds j.dev.data j.dataSize j.superblock.checkpointOffset j.writeOffset gs) :
    j.getUsedBytes = (gs.flatMap Segment.bytes).length := by
  unfold getUsedBytes
  exact h.distance

/-- Bytes where a transaction is going to be do not change what recovery finds. -/
theorem replays_torn {j : Journal} {l : Ledger} (h : Replays j l) {len : ℕ}
    (hf : j.Fits j.getUsedBytes len) {bs : List UInt8} (hbs : bs.length ≤ padded len) :
    Replays { j with dev := { j.dev with
      data := Ring.splice j.dev.data (j.writeStart (padded len)) bs } } l := by
  obtain ⟨gs, hgs, hlog⟩ := h.ring
  rw [hgs.getUsedBytes_eq] at hf
  obtain ⟨-, -, -, -, -, hstart, -⟩ := exists_blanks hf hgs.head hgs.aligned
  have hroom := hf.room
  refine ⟨h.size, h.magic, h.dev, h.head, h.next, h.active, h.serialized, gs, ?_, hlog⟩
  refine ⟨hgs.cp_lt, hgs.used_lt, hgs.head, hgs.aligned, ?_, hgs.valid⟩
  show Ring.ringRead (Ring.splice j.dev.data (j.writeStart (padded len)) bs) j.dataSize _ _ = _
  rw [Ring.ringRead_splice_of_le _ hstart (Nat.le_add_right _ _) (by omega)]
  exact hgs.read

/-- A checkpoint that fits beside the log fits. -/
theorem Fits.mono {j : Journal} {used used' len : ℕ} (h : j.Fits used len) (hle : used' ≤ used) :
    j.Fits used' len :=
  ⟨h.small, by have := h.room; omega, h.blocks, h.blank⟩

/-- What a journal operation that wrote `bl` did to the journal. -/
structure Wrote (j j' : Journal) (bl : List UInt8) : Prop where
  /-- The bytes on the device. -/
  data : j'.dev.data = Ring.splice j.dev.data (j.writeStart (padded bl.length)) (pad bl)
  /-- The superblock on the device is the one in memory. -/
  super : j'.dev.superblock = j'.superblock
  /-- The size of the device. -/
  capacity : j'.dev.capacity = j.dev.capacity
  /-- The size of the journal. -/
  devSize : j'.devSize = j.devSize
  /-- The size of the data area. -/
  dataSize : j'.dataSize = j.dataSize
  /-- The write head. -/
  head : j'.writeOffset = if j.writeStart (padded bl.length) + padded bl.length ≥ j.dataSize then 0
    else j.writeStart (padded bl.length) + padded bl.length

/-- A write that fits succeeds. -/
theorem padAndWrite_ok {j : Journal} {bl : List UInt8} (hpos : 0 < bl.length)
    (hcap : j.dataSize ≤ j.dev.capacity) (hle : padded bl.length ≤ j.dataSize) :
    ∃ j1, j.padAndWrite bl = (true, j1) ∧ Wrote j (afterCommit j1) bl ∧
      Wrote j (afterCheckpoint j.writeOffset j1) bl := by
  have hlen := length_pad hpos
  have hend : j.writeStart (padded bl.length) + padded bl.length ≤ j.dataSize :=
    Engine.writeStart_add_le hle
  obtain ⟨b, hb⟩ : ∃ b, b = pad bl := ⟨_, rfl⟩
  obtain ⟨n, hn⟩ : ∃ n, n = padded bl.length := ⟨_, rfl⟩
  rw [← hb, ← hn] at hlen
  rw [← hn] at hend
  have hwrite : j.dev.write (j.writeStart n) b =
      some { j.dev with data := Ring.splice j.dev.data (j.writeStart n) b } := by
    unfold Device.write
    rw [if_pos (by omega)]
  refine ⟨{ j with
    dev := { j.dev with data := Ring.splice j.dev.data (j.writeStart n) b }
    writeOffset := if j.writeStart n + n ≥ j.dataSize then 0 else j.writeStart n + n }, ?_, ?_, ?_⟩
  · unfold padAndWrite writeAt
    rw [← hb, hlen, hwrite]
  · exact ⟨by rw [← hn, ← hb]; rfl, rfl, rfl, rfl, rfl, by rw [← hn]; rfl⟩
  · exact ⟨by rw [← hn, ← hb]; rfl, rfl, rfl, rfl, rfl, by rw [← hn]; rfl⟩

/-! ## Room for several transactions -/

/-- The journal after a transaction of `len` bytes, as far as the next one depends on it. -/
def advance (j : Journal) (len : ℕ) : Journal :=
  { j with writeOffset := if j.writeStart (padded len) + padded len ≥ j.dataSize then 0
      else j.writeStart (padded len) + padded len }

/-- The used bytes after transactions of the given lengths. -/
def usedAfter : Journal → ℕ → List ℕ → ℕ
  | _, used, [] => used
  | j, used, len :: lens =>
    usedAfter (j.advance len) (used + j.skipped (padded len) + padded len) lens

/-- Transactions of the given lengths fit, one after the other. -/
def Room : Journal → ℕ → List ℕ → Prop
  | _, _, [] => True
  | j, used, len :: lens =>
    j.Fits used len ∧ Room (j.advance len) (used + j.skipped (padded len) + padded len) lens

instance decidableRoom : ∀ (j : Journal) (used : ℕ) (lens : List ℕ), Decidable (j.Room used lens)
  | _, _, [] => isTrue trivial
  | j, used, len :: lens =>
    have := decidableRoom (j.advance len) (used + j.skipped (padded len) + padded len) lens
    inferInstanceAs (Decidable (_ ∧ _))

/-- Room for all is room for the first ones. -/
theorem Room.left {j : Journal} {used : ℕ} {lens lens' : List ℕ} (h : j.Room used (lens ++ lens')) :
    j.Room used lens := by
  induction lens generalizing j used with
  | nil => trivial
  | cons len lens ih => exact ⟨h.1, ih h.2⟩

/-- The journals look the same to the next transactions behind `used` bytes: the write head is the
same, and so are the bytes behind it in the data area. Once the head has gone around the end, the
bytes behind it do not matter: there is no room to go around again. -/
structure SameHead (j j' : Journal) (used : ℕ) : Prop where
  /-- The size of the data area. -/
  dataSize : j'.dataSize = j.dataSize
  /-- The write head. -/
  head : j'.writeOffset = j.writeOffset
  /-- The bytes behind the write head. -/
  data : used < j.writeOffset → ∀ i, j.writeOffset ≤ i → i < j.dataSize →
    j'.dev.data i = j.dev.data i

/-- What fits in one fits in the other. -/
theorem SameHead.fits {j j' : Journal} {used len : ℕ} (h : SameHead j j' used)
    (hf : j.Fits used len) : j'.Fits used len := by
  have hroom := hf.room
  refine ⟨by rw [h.dataSize]; exact hf.small, ?_, ?_, ?_⟩
  · unfold skipped
    rw [h.dataSize, h.head]
    exact hroom
  · rw [h.dataSize, h.head]
    exact hf.blocks
  · rw [h.dataSize, h.head]
    intro hwrap b hb hle
    have hlt : used < j.writeOffset := by
      rw [skipped, if_pos hwrap] at hroom
      omega
    have hin : b * kTxnAlignment < j.dataSize := by
      calc b * kTxnAlignment < j.dataSize / kTxnAlignment * kTxnAlignment :=
            Nat.mul_lt_mul_of_pos_right hb (by decide)
        _ ≤ j.dataSize := Nat.div_mul_le_self _ _
    rw [h.data hlt _ hle hin]
    exact hf.blank hwrap b hb hle

/-- The next transaction leaves them looking the same. -/
theorem SameHead.advance {j j' : Journal} {used len : ℕ} (h : SameHead j j' used)
    (hf : j.Fits used len) : SameHead (j.advance len) (j'.advance len)
      (used + j.skipped (padded len) + padded len) := by
  have hstart : j'.writeStart (padded len) = j.writeStart (padded len) := by
    unfold writeStart
    rw [h.dataSize, h.head]
  have hroom := hf.room
  refine ⟨h.dataSize, ?_, ?_⟩
  · unfold Journal.advance
    simp only [hstart, h.dataSize]
  · intro hlt i hi hin
    unfold Journal.advance at hlt hi hin ⊢
    simp only at hlt hi hin ⊢
    unfold writeStart skipped at *
    split_ifs at hlt hi hroom with hwrap
    all_goals first | omega | exact h.data (by omega) i (by omega) hin

/-- Room in one is room in the other. -/
theorem SameHead.room {j j' : Journal} {used : ℕ} {lens : List ℕ} (h : SameHead j j' used)
    (hr : j.Room used lens) : j'.Room used lens ∧ j'.usedAfter used lens = j.usedAfter used lens := by
  induction lens generalizing j j' used with
  | nil => exact ⟨trivial, rfl⟩
  | cons len lens ih =>
    obtain ⟨hf, hrest⟩ := hr
    have hskip : j'.skipped (padded len) = j.skipped (padded len) := by
      unfold skipped
      rw [h.dataSize, h.head]
    obtain ⟨h1, h2⟩ := ih (h.advance hf) hrest
    refine ⟨⟨h.fits hf, by rw [hskip]; exact h1⟩, ?_⟩
    unfold usedAfter
    rw [hskip]
    exact h2

/-- A transaction that was written leaves the journal that `advance` says. -/
theorem Wrote.sameHead {j j' : Journal} {bl : List UInt8} {used : ℕ} (h : Wrote j j' bl)
    (hpos : 0 < bl.length) (hf : j.Fits used bl.length) :
    SameHead (j.advance bl.length) j'
      (used + j.skipped (padded bl.length) + padded bl.length) := by
  have hlen := length_pad hpos
  have hroom := hf.room
  refine ⟨h.dataSize, h.head, ?_⟩
  intro hlt i hi _
  rw [h.data]
  obtain ⟨n, hn⟩ : ∃ n, n = padded bl.length := ⟨_, rfl⟩
  unfold Journal.advance at hlt hi ⊢
  simp only [← hn] at hlt hi hlen hroom ⊢
  unfold Ring.splice
  rw [if_neg]
  rw [hlen]
  split_ifs at hlt hi <;> omega

end Journal

namespace Engine

/-! ## The journal operations of the engine -/

/-- What a record says does not depend on its transaction. -/
theorem View.apply_txn (V : View) (r : JournalRecord) (id : UInt64) :
    V.apply { r with txnId := id } = V.apply r := by
  unfold View.apply
  cases r.op <;> rfl

/-- What a record says is in the fields that are stored. -/
theorem View.apply_stored (V : View) (r : JournalRecord) : V.apply r.stored = V.apply r := by
  unfold View.apply JournalRecord.stored
  cases hop : r.op <;> rfl

/-- What records say when they come back from the journal. -/
theorem View.foldl_stored (V : View) (rs : List JournalRecord) :
    (rs.map JournalRecord.stored).foldl View.apply V = rs.foldl View.apply V := by
  induction rs generalizing V with
  | nil => rfl
  | cons r rs ih => rw [List.map_cons, List.foldl_cons, List.foldl_cons, View.apply_stored, ih]

/-- What records say when they are in a transaction. -/
theorem View.foldl_txn (V : View) (rs : List JournalRecord) (id : UInt64) :
    (rs.map fun r => { r with txnId := id }).foldl View.apply V = rs.foldl View.apply V := by
  induction rs generalizing V with
  | nil => rfl
  | cons r rs ih => rw [List.map_cons, List.foldl_cons, List.foldl_cons, View.apply_txn, ih]

/-- The journal carries records that say `V`. -/
def Carries (j : Journal) (V : View) : Prop := ∃ l, Replays j l ∧ View.after l.log = V

/-- What a journal operation that wrote `bl` did to the engine. -/
structure Committed (env : Env) (e e' : Engine) (bl : List UInt8) (V V' : View) : Prop where
  /-- The bytes fit in the data area. -/
  le : padded bl.length ≤ e.journal.dataSize
  /-- Only the journal and the history change. -/
  frame : e' = { e with
    journal := e'.journal
    log := e.log ++ [.data .fast (kSuperblockSize + e.journal.writeStart (padded bl.length)) (pad bl),
      .superblock e'.journal.superblock] }
  /-- The bytes were written. -/
  wrote : Wrote e.journal e'.journal bl
  /-- The journal is between two transactions. -/
  ready : JournalReady env e'.journal
  /-- The journal says more. -/
  carries : Carries e'.journal V'
  /-- Until the superblock is written, it says what it said before. -/
  before : ∀ bs : List UInt8, bs.length ≤ padded bl.length → Carries { e.journal with
    dev := { e.journal.dev with
      data := Ring.splice e.journal.dev.data (e.journal.writeStart (padded bl.length)) bs } } V

/-- The records of a transaction, as they are appended. -/
def txnRecords (j : Journal) (rs : List JournalRecord) : List JournalRecord :=
  rs.map fun r => { r with txnId := j.nextTxnId }

/-- The bytes of a transaction. -/
def txnOf (j : Journal) (rs : List JournalRecord) : List UInt8 :=
  txnBytes j.nextTxnId (serializeRecords (txnRecords j rs))

/-- The journal with the records of a transaction appended. -/
def openTxn (j : Journal) (rs : List JournalRecord) : Journal :=
  { j with
    nextTxnId := j.nextTxnId + 1
    activeTxns := Function.update j.activeTxns j.nextTxnId
      (some ⟨txnRecords j rs, serializeRecords (txnRecords j rs)⟩) }

/-- The framing of a transaction has 22 bytes. -/
theorem length_txnOf (j : Journal) (rs : List JournalRecord) :
    (txnOf j rs).length = 22 + (serializeRecords rs).length := by
  rw [txnOf, txnBytes, length_frame, txnRecords, length_serializeRecords_txn]
  rfl

/-- Beginning a transaction and appending its records. -/
theorem appendAll_beginTxn {j : Journal} (hidle : ∀ id, j.activeTxns id = none)
    (rs : List JournalRecord) :
    rs.foldl (fun j' r => (j'.append j.nextTxnId r).2) j.beginTxn = openTxn j rs := by
  obtain ⟨id, hid⟩ : ∃ i, i = j.nextTxnId := ⟨_, rfl⟩
  have hbegin : j.beginTxn.activeTxns id = some ⟨[], []⟩ := by
    unfold beginTxn
    rw [← hid, hidle]
    exact Function.update_self ..
  rw [← hid, appendAll_eq id rs _ ⟨[], []⟩ hbegin]
  unfold openTxn txnRecords beginTxn
  rw [← hid, hidle]
  simp only [List.nil_append, Function.update_idem]

/-- A transaction that fits in the data area is written. -/
theorem commit_openTxn {j : Journal} (hidle : ∀ id, j.activeTxns id = none)
    (hcap : j.dataSize ≤ j.dev.capacity) {rs : List JournalRecord}
    (hle : padded (txnOf j rs).length ≤ j.dataSize) :
    ∃ j1, { j with nextTxnId := j.nextTxnId + 1 }.padAndWrite (txnOf j rs) = (true, j1) ∧
      (openTxn j rs).commitTxn j.nextTxnId = (.ok, j1.afterCommit) ∧
      Wrote j j1.afterCommit (txnOf j rs) ∧ (∀ id, j1.afterCommit.activeTxns id = none) ∧
      j1.afterCommit.superblock = { j.superblock with writeOffset := j1.afterCommit.writeOffset } := by
  obtain ⟨j0, hj0⟩ : ∃ j0 : Journal, j0 = { j with nextTxnId := j.nextTxnId + 1 } := ⟨_, rfl⟩
  have hlen := length_txnOf j rs
  obtain ⟨j1, hw1, hwrote, -⟩ := padAndWrite_ok (show 0 < (txnOf j rs).length by omega)
    (show j0.dataSize ≤ j0.dev.capacity by rw [hj0]; exact hcap)
    (show padded (txnOf j rs).length ≤ j0.dataSize by rw [hj0]; exact hle)
  have hj : { openTxn j rs with
      activeTxns := Function.update (openTxn j rs).activeTxns j.nextTxnId none } = j0 := by
    rw [hj0]
    unfold openTxn
    simp only [Function.update_idem]
    rw [Function.update_eq_self_iff.mpr (hidle _).symm]
  obtain ⟨-, -, -, hactive, hsuper⟩ := padAndWrite_frame hw1
  refine ⟨j1, by rw [← hj0]; exact hw1, ?_, ?_, fun id => ?_, ?_⟩
  · have hact : (openTxn j rs).activeTxns j.nextTxnId =
        some ⟨txnRecords j rs, serializeRecords (txnRecords j rs)⟩ := Function.update_self ..
    unfold commitTxn
    rw [hact]
    simp only
    rw [hj, show txnBytes j.nextTxnId (serializeRecords (txnRecords j rs)) = txnOf j rs from rfl, hw1]
    rfl
  · rw [hj0] at hwrote
    exact ⟨hwrote.data, hwrote.super, hwrote.capacity, hwrote.devSize, hwrote.dataSize, hwrote.head⟩
  · rw [show j1.afterCommit.activeTxns = j1.activeTxns from rfl, hactive, hj0]
    exact hidle id
  · show { j1.superblock with writeOffset := j1.writeOffset } = _
    rw [hsuper, hj0]
    rfl

/-- A transaction of the engine that fits in the data area. -/
theorem journalTxn_ok {env : Env} {e : Engine} (hj : JournalReady env e.journal)
    {rs : List JournalRecord} {j1 : Journal}
    (hcommit : (openTxn e.journal rs).commitTxn e.journal.nextTxnId = (.ok, j1)) :
    e.journalTxn rs = (.ok, { e with
      journal := j1
      log := e.log ++ [.data .fast (kSuperblockSize +
        e.journal.writeStart (padded (txnOf e.journal rs).length)) (pad (txnOf e.journal rs)),
        .superblock j1.superblock] }) := by
  have hact : (openTxn e.journal rs).activeTxns e.journal.nextTxnId =
      some ⟨txnRecords e.journal rs, serializeRecords (txnRecords e.journal rs)⟩ :=
    Function.update_self ..
  have hlen := length_txnOf e.journal rs
  unfold journalTxn
  simp only [appendAll_beginTxn hj.idle, hact, Option.map_some, Option.getD_some, hcommit,
    journalWrites, if_true]
  rw [show txnBytes e.journal.nextTxnId (serializeRecords (txnRecords e.journal rs)) =
    txnOf e.journal rs from rfl, length_pad (by omega)]
  rfl

/-- A transaction that fits is committed. -/
theorem journalTxn_committed {env : Env} {e : Engine} {V : View} (hcarries : Carries e.journal V)
    (hj : JournalReady env e.journal) (hcap : e.journal.dataSize ≤ e.journal.dev.capacity)
    {rs : List JournalRecord} (hrs : ∀ r ∈ rs, r.Storable)
    (hf : e.journal.Fits e.journal.getUsedBytes (22 + (serializeRecords rs).length)) :
    ∃ e' bl, e.journalTxn rs = (.ok, e') ∧ bl.length = 22 + (serializeRecords rs).length ∧
      Committed env e e' bl V (rs.foldl View.apply V) ∧
      e'.journal.getUsedBytes = e.journal.getUsedBytes +
        e.journal.skipped (padded bl.length) + padded bl.length := by
  -- What the journal carries now is what a replay of it gives.
  obtain ⟨l, hl, hV⟩ := hcarries
  obtain ⟨id, hid⟩ : ∃ i, i = e.journal.nextTxnId := ⟨_, rfl⟩
  obtain ⟨rs', hrs'⟩ : ∃ r : List JournalRecord, r = txnRecords e.journal rs := ⟨_, rfl⟩
  have hlen := length_txnOf e.journal rs
  have hroom := hf.room
  rw [← hlen] at hf hroom
  have hpad : padded (txnOf e.journal rs).length ≤ e.journal.dataSize := by omega
  obtain ⟨j1, hw1, hcommit, hwrote, hactive, -⟩ := commit_openTxn hj.idle hcap hpad
  have htxn := journalTxn_ok hj hcommit
  obtain ⟨bl, hbl⟩ : ∃ b, b = txnOf e.journal rs := ⟨_, rfl⟩
  rw [← hbl] at hf hroom hpad hlen hwrote hw1 htxn
  -- Beginning and filling the transaction puts it into the state of the replay.
  have hrep : Replays (openTxn e.journal rs) ⟨l.nextTxnId + 1, Function.update l.active id
      (some (rs'.map JournalRecord.stored)), l.log⟩ := by
    unfold openTxn
    rw [← hid, ← hrs']
    refine ⟨hl.size, hl.magic, hl.dev, hl.head, by rw [hl.next, ← hid], fun x => ?_,
      fun x tb htb => ?_, hl.ring⟩
    · by_cases hx : x = id
      · subst hx
        simp
      · simp only [Function.update_of_ne hx]
        exact hl.active x
    · by_cases hx : x = id
      · subst hx
        simp only [Function.update_self, Option.some.injEq] at htb
        rw [← htb]
      · simp only [Function.update_of_ne hx] at htb
        exact hl.serialized x tb htb
  -- Its records are those of the transaction.
  have hact : (openTxn e.journal rs).activeTxns id = some ⟨rs', serializeRecords rs'⟩ := by
    rw [hid, hrs']
    exact Function.update_self ..
  have hstorable : ∀ r ∈ rs', r.Storable := by
    intro r hr
    rw [hrs'] at hr
    obtain ⟨r0, hr0, rfl⟩ := List.mem_map.mp hr
    exact ⟨(hrs r0 hr0).op, (hrs r0 hr0).key, (hrs r0 hr0).tier⟩
  have hentry : entryBytes false id rs' = bl := by rw [hbl, hid, hrs']; rfl
  have hok : JournalOk (openTxn e.journal rs) (.commitTxn id) := by
    simp only [JournalOk, hact]
    refine ⟨hstorable, ?_⟩
    rw [show txnBytes id (serializeRecords rs') = bl from hentry]
    exact ⟨hf.small, hf.room, hf.blocks, hf.blank⟩
  -- The commit adds them to what is replayed.
  have hrep' := hrep.commitTxn hok (hid ▸ hcommit)
  refine ⟨_, bl, htxn, hlen, ?_, ?_⟩
  · refine ⟨hpad, rfl, hwrote, ⟨?_, hactive⟩, ⟨_, hrep', ?_⟩, ?_⟩
    · rw [hwrote.dataSize]
      exact hj.dataSize
    · show View.after (l.log ++ (Function.update l.active id
        (some (rs'.map JournalRecord.stored)) id).getD []) = _
      rw [Function.update_self, Option.getD_some]
      unfold View.after
      rw [List.foldl_append, View.foldl_stored, hrs']
      unfold txnRecords
      rw [View.foldl_txn, ← hV]
      rfl
    · intro bs hbs
      exact ⟨l, replays_torn hl hf hbs, hV⟩
  -- The entry lies behind the others in the ring.
  · obtain ⟨gs, hgs, -⟩ := hl.ring
    have hused := hgs.getUsedBytes_eq
    rw [hused] at hf
    obtain ⟨j0, hj0'⟩ : ∃ j0 : Journal, j0 = { e.journal with
      nextTxnId := e.journal.nextTxnId + 1 } := ⟨_, rfl⟩
    have hgs0 : Journal.Holds j0.dev.data j0.dataSize e.journal.superblock.checkpointOffset j0.writeOffset
        gs := by
      rw [hj0']
      exact hgs
    have hf0 : j0.Fits (gs.flatMap Segment.bytes).length (entryBytes false id rs').length := by
      rw [hentry, hj0']
      exact ⟨hf.small, hf.room, hf.blocks, hf.blank⟩
    rw [← hj0', ← hentry] at hw1
    obtain ⟨gs', hgs', -, hlen'⟩ := hgs0.write hf0 hstorable hw1
    have hgs1 : Journal.Holds j1.afterCommit.dev.data j1.afterCommit.dataSize
        j1.afterCommit.superblock.checkpointOffset j1.afterCommit.writeOffset gs' := by
      rw [show j1.afterCommit.superblock.checkpointOffset = j1.superblock.checkpointOffset from rfl,
        show j1.afterCommit.dataSize = j1.dataSize from rfl, (padAndWrite_frame hw1).2.1,
        (padAndWrite_frame hw1).2.2.2.2, hj0']
      rw [hj0'] at hgs'
      exact hgs'
    rw [hgs1.getUsedBytes_eq, hlen', hentry, hused, hj0']
    rfl

/-- A checkpoint that fits in the data area is written. -/
theorem checkpoint_ok {env : Env} {e : Engine} {bl : List UInt8}
    (hcap : e.journal.dataSize ≤ e.journal.dev.capacity)
    (hbl : bl = checkpointBytes (serializeRecords (e.buildCheckpointState env)))
    (hle : padded bl.length ≤ e.journal.dataSize) :
    ∃ j1, e.journal.padAndWrite bl = (true, j1) ∧
      bl.length = 31 + (serializeRecords (e.buildCheckpointState env)).length ∧
      e.journal.checkpoint (e.buildCheckpointState env) =
        (.ok, afterCheckpoint e.journal.writeOffset j1) ∧
      e.checkpoint env = { e with
        journal := afterCheckpoint e.journal.writeOffset j1
        log := e.log ++ [.data .fast (kSuperblockSize + e.journal.writeStart (padded bl.length))
          (pad bl), .superblock (afterCheckpoint e.journal.writeOffset j1).superblock] } ∧
      Wrote e.journal (afterCheckpoint e.journal.writeOffset j1) bl := by
  have hlen : bl.length = 31 + (serializeRecords (e.buildCheckpointState env)).length := by
    rw [hbl, checkpointBytes, length_frame, length_serializeRecord]
    rfl
  obtain ⟨j1, hw1, -, hwrote⟩ := padAndWrite_ok (show 0 < bl.length by omega) hcap hle
  have hcp : e.journal.checkpoint (e.buildCheckpointState env) =
      (.ok, afterCheckpoint e.journal.writeOffset j1) := by
    unfold Journal.checkpoint
    rw [← hbl, hw1]
    rfl
  refine ⟨j1, hw1, hlen, hcp, ?_, hwrote⟩
  unfold Engine.checkpoint
  simp only [hcp, ← hbl, journalWrites, if_true]
  rw [length_pad (by omega)]

/-- A checkpoint that fits beside the log is written. -/
theorem checkpoint_committed {env : Env} {e : Engine} {V : View} (hcarries : Carries e.journal V)
    (hj : JournalReady env e.journal) (hcap : e.journal.dataSize ≤ e.journal.dev.capacity)
    (hrs : ∀ r ∈ e.buildCheckpointState env, r.Storable)
    (hf : e.journal.Fits e.journal.getUsedBytes
      (31 + (serializeRecords (e.buildCheckpointState env)).length)) :
    ∃ bl, bl.length = 31 + (serializeRecords (e.buildCheckpointState env)).length ∧
      Committed env e (e.checkpoint env) bl V (View.after (e.buildCheckpointState env)) ∧
      (e.checkpoint env).journal.getUsedBytes =
        e.journal.skipped (padded bl.length) + padded bl.length := by
  obtain ⟨l, hl, hV⟩ := hcarries
  obtain ⟨rs, hrs'⟩ : ∃ rs, rs = e.buildCheckpointState env := ⟨_, rfl⟩
  obtain ⟨bl, hbl⟩ : ∃ b, b = checkpointBytes (serializeRecords (e.buildCheckpointState env)) :=
    ⟨_, rfl⟩
  have hlen0 : bl.length = 31 + (serializeRecords (e.buildCheckpointState env)).length := by
    rw [hbl, checkpointBytes, length_frame, length_serializeRecord]
    rfl
  have hroom := hf.room
  rw [← hlen0] at hf hroom
  -- The checkpoint is written from the head on.
  obtain ⟨j1, hw1, hlen, hcp, hchk, hwrote⟩ := checkpoint_ok hcap hbl (by omega)
  rw [← hrs'] at hrs hbl hlen hcp
  have hok : JournalOk e.journal (.checkpoint rs) := by
    refine ⟨hrs, ?_⟩
    rw [← hbl]
    exact hf.mono (Nat.zero_le _)
  have hrep := hl.checkpoint hok hcp
  -- And alone it is what the ring holds.
  obtain ⟨gs, hgs, -⟩ := hl.ring
  have hentry : entryBytes true 0 rs = bl := hbl.symm
  have hf0 : e.journal.Fits (([] : List Segment).flatMap Segment.bytes).length
      (entryBytes true 0 rs).length := by
    rw [hentry]
    exact hf.mono (Nat.zero_le _)
  obtain ⟨gs', hgs', -, hlen'⟩ := (holds_nil e.journal.dev.data hgs.head_lt hgs.aligned).write
    hf0 hrs (hentry.symm ▸ hw1)
  have hgs1 : Journal.Holds (afterCheckpoint e.journal.writeOffset j1).dev.data
      (afterCheckpoint e.journal.writeOffset j1).dataSize
      (afterCheckpoint e.journal.writeOffset j1).superblock.checkpointOffset
      (afterCheckpoint e.journal.writeOffset j1).writeOffset gs' := by
    rw [show (afterCheckpoint e.journal.writeOffset j1).dataSize = j1.dataSize from rfl,
      (padAndWrite_frame hw1).2.1]
    exact hgs'
  have hused := hgs1.getUsedBytes_eq
  rw [hlen', hentry] at hused
  rw [hchk, ← hrs']
  -- Whatever of it a crash leaves, the replay finds the log or the checkpoint.
  refine ⟨bl, hlen, ?_, by rw [hused]; simp⟩
  refine ⟨by omega, rfl, hwrote, ⟨?_, fun i => ?_⟩, ⟨_, hrep, ?_⟩, ?_⟩
  · exact (hwrote.dataSize.symm ▸ hj.dataSize : _)
  · show j1.activeTxns i = none
    rw [(padAndWrite_frame hw1).2.2.2.1]
    exact hj.idle i
  · show View.after (rs.map JournalRecord.stored) = _
    unfold View.after
    exact View.foldl_stored _ _
  · intro bs hbs
    exact ⟨l, replays_torn hl hf hbs, hV⟩

end Engine

end CxxLab.Btier
