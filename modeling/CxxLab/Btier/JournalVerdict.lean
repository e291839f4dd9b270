import CxxLab.Btier.JournalReplay

/-!
# The verdict of a commit

`commit_txn` writes and flushes the transaction, moves the head and writes and flushes the
superblock. Its caller is told of a failure of the first two; the outcome of the superblock is not
looked at, and the head in memory stays behind a transaction whose flush has failed. `Verdicts` is
the journal beside the ledger of what callers were told: an error, that nothing is committed, and 0,
that everything is. `recover_verdicts` is for every run, with any failures, in which nothing is
committed while the head in memory is ahead of the superblock, and the superblock is written.
-/

namespace CxxLab.Btier

open Codec Journal

/-- What goes wrong with the bytes of a transaction; what is then in their place is `left`. -/
inductive DataFault where
  /-- Nothing. -/
  | none
  /-- The write fails. -/
  | write (left : ℕ → UInt8)
  /-- The flush fails. -/
  | flush (left : ℕ → UInt8)

/-- Nothing goes wrong. -/
def DataFault.isNone : DataFault → Bool
  | .none => true
  | _ => false

/-- What goes wrong in a commit. -/
structure Faults where
  /-- The transaction. -/
  data : DataFault
  /-- Where the write or the flush of the superblock fails, what is then in its place. -/
  superblock : Option JournalSuperBlock

namespace Journal

/-! ## Commits that fail -/

/-- The device with some of its bytes replaced. -/
def scribble (dev : Device) (start n : ℕ) (left : ℕ → UInt8) : Device :=
  { dev with data := fun i => if start ≤ i ∧ i < start + n then left i else dev.data i }

/-- `writeAt` with what goes wrong. -/
def writeAtWith (f : DataFault) (j : Journal) (start : ℕ) (bl : List UInt8) : Bool × Journal :=
  match j.dev.write start bl with
  | none => (false, { j with writeOffset := start })
  | some dev =>
    let stop := start + bl.length
    let head := if stop ≥ j.dataSize then 0 else stop
    match f with
    | .none => (true, { j with dev := dev, writeOffset := head })
    | .write left =>
      (false, { j with dev := scribble j.dev start bl.length left, writeOffset := start })
    | .flush left =>
      (false, { j with dev := scribble j.dev start bl.length left, writeOffset := head })

/-- `pad_and_write` with what goes wrong. -/
def padAndWriteWith (f : DataFault) (j : Journal) (bl : List UInt8) : Bool × Journal :=
  j.writeAtWith f (j.writeStart (pad bl).length) (pad bl)

/-- The superblock of `commit_txn`, with what is there if it is not written. -/
def afterCommitWith (sb : Option JournalSuperBlock) (j : Journal) : Journal :=
  match sb with
  | none => j.afterCommit
  | some sb =>
    { j with
      superblock := { j.superblock with writeOffset := j.writeOffset }
      dev := { j.dev with superblock := sb } }

/-- `commit_txn` with what goes wrong. -/
def commitTxnWith (f : Faults) (j : Journal) (id : UInt64) : Status × Journal :=
  match j.activeTxns id with
  | none => (.enoent, j)
  | some tb =>
    afterWrite (afterCommitWith f.superblock)
      ({ j with activeTxns := Function.update j.activeTxns id none }.padAndWriteWith f.data
        (txnBytes id tb.serialized))

/-- Where nothing goes wrong, this is `commitTxn`. -/
theorem commitTxnWith_none (j : Journal) (id : UInt64) :
    j.commitTxnWith ⟨.none, none⟩ id = j.commitTxn id := by
  unfold commitTxnWith Journal.commitTxn
  cases j.activeTxns id with
  | none => rfl
  | some tb =>
    dsimp only
    unfold padAndWriteWith padAndWrite writeAtWith writeAt
    dsimp only
    cases j.dev.write _ _ <;> rfl

/-! ## Where a transaction goes -/

/-- Both heads are at `head`. -/
def settle (j : Journal) (head : ℕ) : Journal :=
  let sb := { j.superblock with writeOffset := head }
  { j with writeOffset := head, superblock := sb, dev := { j.dev with superblock := sb } }

/-- From `start` on, recovery goes on behind what it has: that is the head of the superblock, or the
beginning of the area, with whole blocks up to its end that start with a zero byte. -/
def Joins (j : Journal) (start : ℕ) : Prop :=
  start = j.superblock.writeOffset ∨
    start = 0 ∧ 0 < j.superblock.checkpointOffset ∧
      j.superblock.checkpointOffset ≤ j.superblock.writeOffset ∧ kTxnAlignment ∣ j.dataSize ∧
      ∀ b < j.dataSize / kTxnAlignment, j.superblock.writeOffset ≤ b * kTxnAlignment →
        j.dev.data (b * kTxnAlignment) = 0

instance (j : Journal) (start : ℕ) : Decidable (j.Joins start) :=
  inferInstanceAs (Decidable (_ ∨ _ ∧ _ ∧ _ ∧ _ ∧ _))

/-- No byte that recovery needs is among the `n` from `start` on. -/
def Clear (j : Journal) (start n : ℕ) : Prop :=
  let cp := j.superblock.checkpointOffset
  let w := j.superblock.writeOffset
  cp = w ∨ cp < w ∧ (start + n ≤ cp ∨ w ≤ start) ∨ w < cp ∧ w ≤ start ∧ start + n ≤ cp

instance (j : Journal) (start n : ℕ) : Decidable (j.Clear start n) :=
  inferInstanceAs (Decidable (_ ∨ _ ∧ _ ∨ _ ∧ _ ∧ _))

/-- The tail of the area that begins with the head is added, as blocks to be skipped. -/
theorem Holds.blank {data : ℕ → UInt8} {n cp w : ℕ} {gs : List Segment}
    (h : Holds data n cp w gs) (hcp : 0 < cp) (hle : cp ≤ w) (hn : kTxnAlignment ∣ n)
    (hzero : ∀ b < n / kTxnAlignment, w ≤ b * kTxnAlignment → data (b * kTxnAlignment) = 0) :
    ∃ gs', Holds data n cp 0 gs' ∧ gs'.flatMap Segment.records = gs.flatMap Segment.records := by
  obtain ⟨u, hu⟩ : ∃ u, u = (gs.flatMap Segment.bytes).length := ⟨_, rfl⟩
  have hdist := h.distance
  have hlt := h.head_lt
  have hcplt := h.cp_lt
  rw [if_pos hle, ← hu] at hdist
  have hwn : w < n := by omega
  obtain ⟨c, hc⟩ := hn
  obtain ⟨d, hd⟩ := h.aligned
  have hm : (c - d) * kTxnAlignment = n - w := by
    rw [Nat.sub_mul, hc, hd, Nat.mul_comm c, Nat.mul_comm d]
  have hblocks : ∀ b < c - d, data (w + b * kTxnAlignment) = 0 := by
    intro b hb
    have hidx : w + b * kTxnAlignment = (d + b) * kTxnAlignment := by
      rw [hd, Nat.add_mul, Nat.mul_comm d]
    rw [hidx]
    refine hzero (d + b) ?_ ?_
    · rw [hc, Nat.mul_div_cancel_left _ (by decide : 0 < kTxnAlignment)]
      omega
    · rw [← hidx]
      omega
  obtain ⟨hv, hr⟩ := blanks_valid hblocks
  have hbytes := flatMap_blanks data (n := n) (show w + (c - d) * kTxnAlignment ≤ n by omega)
  have hall : ((gs ++ blanks data w (c - d)).flatMap Segment.bytes).length = n - cp := by
    rw [List.flatMap_append, List.length_append, hbytes, Ring.length_ringRead, hm, ← hu]
    omega
  refine ⟨gs ++ blanks data w (c - d), ⟨h.cp_lt, by omega, ?_, dvd_zero _, ?_, ?_⟩, ?_⟩
  · rw [hall, Nat.add_sub_cancel' (by omega), Nat.mod_self]
  · rw [hall, List.flatMap_append, hbytes, show n - cp = u + (n - w) by omega, Ring.ringRead_add,
      hu, h.read, ← hu, hm, show cp + u = w by omega]
  · intro g hg
    exact (List.mem_append.mp hg).elim (h.valid g) (hv g)
  · rw [List.flatMap_append, hr, List.append_nil]

/-- A ring holds what it held when no byte of it was replaced. -/
theorem Holds.scribble {j : Journal} {gs : List Segment}
    (h : Holds j.dev.data j.dataSize j.superblock.checkpointOffset j.superblock.writeOffset gs)
    {start n : ℕ} (hclear : j.Clear start n) (left : ℕ → UInt8) :
    Holds (Journal.scribble j.dev start n left).data j.dataSize j.superblock.checkpointOffset
      j.superblock.writeOffset gs := by
  refine ⟨h.cp_lt, h.used_lt, h.head, h.aligned, ?_, h.valid⟩
  refine Eq.trans (List.map_congr_left fun i hi => ?_) h.read
  have hi : i < (gs.flatMap Segment.bytes).length := List.mem_range.mp hi
  have hdist := h.distance
  have hused := h.used_lt
  have hcp := h.cp_lt
  have hlt := h.head_lt
  have hn : 0 < j.dataSize := by omega
  obtain ⟨w, hw⟩ : ∃ w, w = j.superblock.writeOffset := ⟨_, rfl⟩
  obtain ⟨cp, hcp'⟩ : ∃ cp, cp = j.superblock.checkpointOffset := ⟨_, rfl⟩
  unfold Clear at hclear
  rw [← hw, ← hcp'] at hdist hclear
  rw [← hw] at hlt
  rw [← hcp'] at hcp ⊢
  dsimp only at hclear
  refine if_neg fun hin => ?_
  -- The cell is in the part of the area from `cp` on, or in the part before the head.
  rcases Nat.lt_or_ge (cp + i) j.dataSize with hlow | hhigh
  · rw [Nat.mod_eq_of_lt hlow] at hin
    split_ifs at hdist <;> omega
  · rw [Nat.mod_eq_sub_mod hhigh, Nat.mod_eq_of_lt (by omega)] at hin
    split_ifs at hdist <;> omega

end Journal

/-! ## What callers were told -/

/-- A commit that did not happen: the transaction is closed. -/
def Ledger.abort (l : Ledger) (id : UInt64) : Ledger :=
  { l with active := Function.update l.active id none }

/-- A new start: no transaction is open. -/
def Ledger.restart (l : Ledger) : Ledger := { l with nextTxnId := 1, active := fun _ => none }

/-- A journal, and the ledger of what its callers were told. -/
structure Verdicts where
  /-- The journal. -/
  journal : Journal
  /-- What callers were told. -/
  ledger : Ledger

namespace Verdicts

/-- What happens to a journal. -/
inductive Event where
  /-- `begin_txn`. -/
  | beginTxn
  /-- `append`. -/
  | append (id : UInt64) (r : JournalRecord)
  /-- `commit_txn`. -/
  | commitTxn (id : UInt64) (f : Faults)
  /-- `checkpoint`, which goes through. -/
  | checkpoint (fullState : List JournalRecord)
  /-- `recover`. -/
  | recover
  /-- Another journal is made on the device. -/
  | restart

/-- One event: the ledger has a transaction when its caller was told 0. -/
def step (s : Verdicts) : Event → Option Verdicts
  | .beginTxn => some ⟨s.journal.beginTxn, s.ledger.step .beginTxn⟩
  | .append id r =>
    let (st, j) := s.journal.append id r
    some ⟨j, if st = .ok then s.ledger.step (.append id r) else s.ledger⟩
  | .commitTxn id f =>
    let (st, j) := s.journal.commitTxnWith f id
    some ⟨j, if st = .ok then s.ledger.step (.commitTxn id) else s.ledger.abort id⟩
  | .checkpoint fullState =>
    (returned (s.journal.checkpoint fullState)).map fun j =>
      ⟨j, s.ledger.step (.checkpoint fullState)⟩
  | .recover => some ⟨s.journal.readSuperblock, s.ledger⟩
  | .restart => some ⟨create s.journal.dev s.journal.devSize, s.ledger.restart⟩

/-- A commit whose transaction is written and flushed continues what recovery reads, as `JournalOk`
asks for, and its superblock is written; one that fails replaces no byte that recovery needs. -/
def CommitOk (j : Journal) (id : UInt64) (f : Faults) (tb : TxnBuffer) : Prop :=
  let n := padded (txnBytes id tb.serialized).length
  let start := j.writeStart n
  if f.data.isNone = true ∧ start + n ≤ j.dev.capacity then
    f.superblock = none ∧ j.Joins start ∧ JournalOk (j.settle start) (.commitTxn id)
  else j.Clear start n

instance (j : Journal) (id : UInt64) (f : Faults) (tb : TxnBuffer) :
    Decidable (CommitOk j id f tb) := by
  unfold CommitOk
  infer_instance

/-- The runs in which verdicts hold. -/
def Sound (s : Verdicts) : Event → Prop
  | .commitTxn id f => ∀ tb ∈ s.journal.activeTxns id, CommitOk s.journal id f tb
  | .checkpoint fullState => JournalOk s.journal (.checkpoint fullState)
  | _ => True

instance (s : Verdicts) : ∀ e, Decidable (Sound s e)
  | .commitTxn id f =>
    inferInstanceAs (Decidable (∀ tb ∈ s.journal.activeTxns id, CommitOk s.journal id f tb))
  | .checkpoint fullState =>
    inferInstanceAs (Decidable (JournalOk s.journal (.checkpoint fullState)))
  | .beginTxn | .append .. | .recover | .restart => inferInstanceAs (Decidable True)

/-- The journal on the device carries the ledger; the head in memory may be elsewhere. -/
structure Kept (s : Verdicts) : Prop where
  /-- With both heads at the one of the superblock. -/
  replays : Replays (s.journal.settle s.journal.superblock.writeOffset) s.ledger
  /-- The superblock on the device is the one in memory. -/
  dev : s.journal.dev.superblock = s.journal.superblock
  /-- The head in memory is in the area. -/
  head_lt : s.journal.writeOffset < max s.journal.dataSize 1
  /-- It is at a block boundary. -/
  aligned : kTxnAlignment ∣ s.journal.writeOffset

/-- A journal with its heads where the superblock has them is settled. -/
theorem settle_self {j : Journal} (hdev : j.dev.superblock = j.superblock)
    (hhead : j.superblock.writeOffset = j.writeOffset) :
    j.settle j.superblock.writeOffset = j := by
  obtain ⟨devSize, dataSize, nextTxnId, activeTxns, superblock, writeOffset, dev⟩ := j
  obtain ⟨sb, data, capacity⟩ := dev
  dsimp only at hdev hhead
  subst hdev hhead
  rfl

/-- A journal that replays its ledger keeps it. -/
theorem kept_of_replays {j : Journal} {l : Ledger} (h : Replays j l) : Kept ⟨j, l⟩ := by
  obtain ⟨gs, hgs, -⟩ := h.ring
  refine ⟨?_, h.dev, hgs.head_lt, hgs.aligned⟩
  dsimp only
  rw [settle_self h.dev h.head]
  exact h

/-- With both heads at a place that joins, the journal carries the ledger as well. -/
theorem Kept.settled {j : Journal} {l : Ledger} (h : Kept ⟨j, l⟩) {start : ℕ}
    (hstart : j.Joins start) : Replays (j.settle start) l := by
  have hr := h.replays
  refine ⟨hr.size, hr.magic, rfl, rfl, hr.next, hr.active, hr.serialized, ?_⟩
  obtain ⟨gs, hgs, hlog⟩ := hr.ring
  rcases hstart with rfl | ⟨rfl, hcp, hle, hn, hzero⟩
  · exact ⟨gs, hgs, hlog⟩
  · obtain ⟨gs', hgs', hrec⟩ := hgs.blank hcp hle hn hzero
    exact ⟨gs', hgs', hrec.trans hlog⟩

/-- A write that goes through. -/
theorem writeAt_of_le {j : Journal} {start : ℕ} {bl : List UInt8}
    (h : start + bl.length ≤ j.dev.capacity) : j.writeAt start bl = (true, { j with
      dev := { j.dev with data := Ring.splice j.dev.data start bl }
      writeOffset := if start + bl.length ≥ j.dataSize then 0 else start + bl.length }) := by
  have hwrite : j.dev.write start bl =
      some { j.dev with data := Ring.splice j.dev.data start bl } := if_pos h
  unfold writeAt
  rw [hwrite]

/-- Where nothing goes wrong, this is `writeAt`. -/
theorem writeAtWith_none (j : Journal) (start : ℕ) (bl : List UInt8) :
    j.writeAtWith .none start bl = j.writeAt start bl := by
  unfold writeAtWith writeAt
  cases j.dev.write start bl <;> rfl

/-- A transaction has bytes. -/
theorem length_txnBytes_pos (id : UInt64) (body : List UInt8) :
    0 < (txnBytes id body).length := by
  have := nine_le_length_serializeRecord { op := .txnBegin, txnId := id }
  unfold txnBytes Journal.frame
  simp only [List.length_append]
  omega

/-- A padded transaction has whole blocks. -/
theorem length_pad_txnBytes (id : UInt64) (body : List UInt8) :
    (pad (txnBytes id body)).length = padded (txnBytes id body).length :=
  length_pad (length_txnBytes_pos id body)

/-- A commit that goes through is one of the journal with both heads where it begins. -/
theorem commitTxnWith_eq {j : Journal} {id : UInt64} {f : Faults} {tb : TxnBuffer}
    (htb : j.activeTxns id = some tb) {n start : ℕ}
    (hn : n = padded (txnBytes id tb.serialized).length) (hstart : start = j.writeStart n)
    (hdata : f.data.isNone = true) (hsb : f.superblock = none)
    (hcap : start + n ≤ j.dev.capacity) :
    ∃ j', j.commitTxnWith f id = (.ok, j') ∧ (j.settle start).commitTxn id = (.ok, j') := by
  obtain ⟨data, superblock⟩ := f
  dsimp only at hdata hsb
  obtain rfl : data = .none := by
    cases data with
    | none => rfl
    | write left => cases hdata
    | flush left => cases hdata
  subst hsb
  obtain ⟨bl, hbl⟩ : ∃ bl, bl = pad (txnBytes id tb.serialized) := ⟨_, rfl⟩
  have hlen : bl.length = n := by rw [hbl, hn, length_pad_txnBytes]
  -- With both heads there the entry would begin at the same place.
  have hagain : (j.settle start).writeStart n = start := by
    have hsame : (j.settle start).writeStart n = if start + n > j.dataSize then 0 else start := rfl
    rw [hsame]
    split_ifs with hover
    · rw [hstart]
      unfold writeStart at hstart ⊢
      split_ifs at hstart ⊢ with h0
      · rfl
      · omega
    · rfl
  obtain ⟨j0, hj0⟩ : ∃ j0 : Journal, j0 =
    { j with activeTxns := Function.update j.activeTxns id none } := ⟨_, rfl⟩
  obtain ⟨j1, hj1⟩ : ∃ j1 : Journal, j1 =
    { (j.settle start) with activeTxns := Function.update j.activeTxns id none } := ⟨_, rfl⟩
  have hwrite : j0.padAndWriteWith .none (txnBytes id tb.serialized) = (true, { j0 with
      dev := { j0.dev with data := Ring.splice j0.dev.data start bl }
      writeOffset := if start + n ≥ j0.dataSize then 0 else start + n }) := by
    have h0 : j0.writeStart n = start := by
      rw [hj0]
      exact hstart.symm
    unfold padAndWriteWith
    rw [← hbl, writeAtWith_none, hlen, h0, writeAt_of_le (by rw [hlen, hj0]; exact hcap), hlen]
  -- Both write the same bytes to the same place.
  have hwrite' : j1.padAndWrite (txnBytes id tb.serialized) = (true, { j1 with
      dev := { j1.dev with data := Ring.splice j1.dev.data start bl }
      writeOffset := if start + n ≥ j1.dataSize then 0 else start + n }) := by
    have h1 : j1.writeStart n = start := by
      rw [hj1]
      exact hagain
    unfold padAndWrite
    rw [← hbl, hlen, h1, writeAt_of_le (by rw [hlen, hj1]; exact hcap), hlen]
  unfold commitTxnWith Journal.commitTxn
  rw [htb, show (j.settle start).activeTxns id = some tb from htb]
  dsimp only
  have hopen : (j.settle start).activeTxns = j.activeTxns := rfl
  rw [← hj0, hwrite, hopen, ← hj1, hwrite']
  exact ⟨_, rfl, by rw [hj0, hj1]; rfl⟩

/-- A commit that fails closes the transaction, may replace the bytes where it was to go, and leaves
the head there or behind it. -/
theorem commitTxnWith_fails {j : Journal} {id : UInt64} {f : Faults} {tb : TxnBuffer}
    (htb : j.activeTxns id = some tb) {n start : ℕ}
    (hn : n = padded (txnBytes id tb.serialized).length) (hstart : start = j.writeStart n)
    (hfail : ¬(f.data.isNone = true ∧ start + n ≤ j.dev.capacity)) :
    ∃ dev head, j.commitTxnWith f id = (.eio, { j with
        activeTxns := Function.update j.activeTxns id none, dev := dev, writeOffset := head }) ∧
      (dev = j.dev ∨ ∃ left, dev = scribble j.dev start n left) ∧
      (head = start ∨ head = if start + n ≥ j.dataSize then 0 else start + n) := by
  obtain ⟨bl, hbl⟩ : ∃ bl, bl = pad (txnBytes id tb.serialized) := ⟨_, rfl⟩
  have hlen : bl.length = n := by rw [hbl, hn, length_pad_txnBytes]
  obtain ⟨j0, hj0⟩ : ∃ j0 : Journal, j0 =
    { j with activeTxns := Function.update j.activeTxns id none } := ⟨_, rfl⟩
  have hpad : j0.padAndWriteWith f.data (txnBytes id tb.serialized) =
      j0.writeAtWith f.data start bl := by
    unfold padAndWriteWith
    rw [← hbl, hlen, hstart, hj0]
    rfl
  have hcommit : j.commitTxnWith f id =
      afterWrite (afterCommitWith f.superblock) (j0.writeAtWith f.data start bl) := by
    unfold commitTxnWith
    rw [htb, ← hpad, hj0]
  rw [hcommit]
  by_cases hcap : start + n ≤ j.dev.capacity
  · have hwrite : j0.dev.write start bl =
        some { j0.dev with data := Ring.splice j0.dev.data start bl } :=
      if_pos (by rw [hlen, hj0]; exact hcap)
    unfold writeAtWith
    rw [hwrite, hlen, hj0]
    cases hf : f.data with
    | none => exact absurd ⟨by rw [hf]; rfl, hcap⟩ hfail
    | write left => exact ⟨scribble j.dev start n left, start, rfl, .inr ⟨left, rfl⟩, .inl rfl⟩
    | flush left => exact ⟨scribble j.dev start n left, _, rfl, .inr ⟨left, rfl⟩, .inr rfl⟩
  · have hwrite : j0.dev.write start bl = none := if_neg (by rw [hlen, hj0]; exact hcap)
    unfold writeAtWith
    rw [hwrite, hj0]
    exact ⟨j.dev, start, rfl, .inl rfl, .inl rfl⟩

/-- The head behind a transaction is in the area, at a block boundary. -/
theorem head_bounds {j : Journal} (hlt : j.writeOffset < max j.dataSize 1)
    (ha : kTxnAlignment ∣ j.writeOffset) {n head : ℕ} (hn : kTxnAlignment ∣ n)
    (hhead : head = j.writeStart n ∨
      head = if j.writeStart n + n ≥ j.dataSize then 0 else j.writeStart n + n) :
    head < max j.dataSize 1 ∧ kTxnAlignment ∣ head := by
  have hstart : j.writeStart n < max j.dataSize 1 ∧ kTxnAlignment ∣ j.writeStart n := by
    unfold writeStart
    split_ifs
    · exact ⟨by omega, dvd_zero _⟩
    · exact ⟨hlt, ha⟩
  rcases hhead with rfl | rfl
  · exact hstart
  · split_ifs
    · exact ⟨by omega, dvd_zero _⟩
    · exact ⟨by omega, hstart.2.add hn⟩

/-- A commit that fails keeps what is on the device, and the ledger closes the transaction. -/
theorem Kept.aborts {j : Journal} {l : Ledger} (h : Kept ⟨j, l⟩) {id : UInt64} {f : Faults}
    {tb : TxnBuffer} (htb : j.activeTxns id = some tb) {n : ℕ}
    (hn : n = padded (txnBytes id tb.serialized).length)
    (hfail : ¬(f.data.isNone = true ∧ j.writeStart n + n ≤ j.dev.capacity))
    (hclear : j.Clear (j.writeStart n) n) :
    ∃ j', j.commitTxnWith f id = (.eio, j') ∧ Kept ⟨j', l.abort id⟩ := by
  obtain ⟨dev, head, hcommit, hdev, hhead⟩ := commitTxnWith_fails htb hn rfl hfail
  have hpos : 0 < (txnBytes id tb.serialized).length := length_txnBytes_pos id tb.serialized
  obtain ⟨hlt, ha⟩ := head_bounds h.head_lt h.aligned (hn ▸ (padded_spec hpos).1) hhead
  have hr := h.replays
  obtain ⟨gs, hgs, hlog⟩ := hr.ring
  have hsuper : dev.superblock = j.superblock := by
    rcases hdev with rfl | ⟨left, rfl⟩ <;> exact h.dev
  have hring : Holds dev.data j.dataSize j.superblock.checkpointOffset j.superblock.writeOffset
      gs := by
    rcases hdev with rfl | ⟨left, rfl⟩
    · exact hgs
    · exact Holds.scribble hgs hclear left
  refine ⟨_, hcommit, ⟨hr.size, hr.magic, rfl, rfl, hr.next, ?_, ?_, gs, hring, hlog⟩, hsuper, hlt,
    ha⟩
  · intro x
    change Function.update l.active id none x = (Function.update j.activeTxns id none x).map _
    by_cases hx : x = id
    · rw [hx, Function.update_self, Function.update_self]
      rfl
    · rw [Function.update_of_ne hx, Function.update_of_ne hx]
      exact hr.active x
  · intro x tb' htb'
    change Function.update j.activeTxns id none x = some tb' at htb'
    by_cases hx : x = id
    · rw [hx, Function.update_self] at htb'
      cases htb'
    · rw [Function.update_of_ne hx] at htb'
      exact hr.serialized x tb' htb'

/-- A commit that goes through is in the ledger. -/
theorem Kept.commits {j : Journal} {l : Ledger} (h : Kept ⟨j, l⟩) {id : UInt64} {f : Faults}
    {tb : TxnBuffer} (htb : j.activeTxns id = some tb) {n : ℕ}
    (hn : n = padded (txnBytes id tb.serialized).length) (hdata : f.data.isNone = true)
    (hcap : j.writeStart n + n ≤ j.dev.capacity) (hsb : f.superblock = none)
    (hjoins : j.Joins (j.writeStart n))
    (hok : JournalOk (j.settle (j.writeStart n)) (.commitTxn id)) :
    ∃ j', j.commitTxnWith f id = (.ok, j') ∧ Kept ⟨j', l.step (.commitTxn id)⟩ := by
  obtain ⟨j', hwith, hplain⟩ := commitTxnWith_eq htb hn rfl hdata hsb hcap
  exact ⟨j', hwith, kept_of_replays ((h.settled hjoins).commitTxn hok hplain)⟩

/-- A checkpoint replaces the log, wherever the head in memory is. -/
theorem Kept.checkpoint {j j' : Journal} {l : Ledger} (h : Kept ⟨j, l⟩)
    {fullState : List JournalRecord} (hok : JournalOk j (.checkpoint fullState))
    (hs : j.checkpoint fullState = (.ok, j')) : Kept ⟨j', l.step (.checkpoint fullState)⟩ := by
  obtain ⟨sb, hsb⟩ : ∃ sb : JournalSuperBlock, sb = { j.superblock with
    checkpointOffset := j.writeOffset, writeOffset := j.writeOffset } := ⟨_, rfl⟩
  -- What is in the ring no longer counts: the journal with an empty one does the same.
  obtain ⟨j0, hj0⟩ : ∃ j0 : Journal, j0 =
    { j with superblock := sb, dev := { j.dev with superblock := sb } } := ⟨_, rfl⟩
  have hr := h.replays
  have h0 : Replays j0 { l with log := [] } := by
    rw [hj0, hsb]
    exact ⟨hr.size, hr.magic, rfl, rfl, hr.next, hr.active, hr.serialized, [],
      holds_nil _ h.head_lt h.aligned, rfl⟩
  have hsame : j0.checkpoint fullState = (.ok, j') := by
    rw [hj0, hsb]
    unfold Journal.checkpoint padAndWrite writeAt Device.write at hs ⊢
    dsimp only [writeStart] at hs ⊢
    -- Where the write is off the device, there was no success.
    split_ifs at hs ⊢ <;> first | exact hs | cases congrArg Prod.fst hs
  have hok0 : JournalOk j0 (.checkpoint fullState) := by
    rw [hj0]
    exact ⟨hok.1, ⟨hok.2.small, hok.2.room, hok.2.blocks, hok.2.blank⟩⟩
  exact kept_of_replays (h0.checkpoint hok0 hsame)

/-- The superblock is read back from the device. -/
theorem readSuperblock_eq {j : Journal} (hdev : j.dev.superblock = j.superblock)
    (hmagic : j.superblock.magic = superBlockMagic) :
    j.readSuperblock = j.settle j.superblock.writeOffset := by
  obtain ⟨devSize, dataSize, nextTxnId, activeTxns, superblock, writeOffset, dev⟩ := j
  obtain ⟨sb, data, capacity⟩ := dev
  dsimp only at hdev hmagic
  subst hdev
  exact if_neg (by simpa using hmagic)

/-- One event keeps what the journal carries. -/
theorem Kept.step {s s' : Verdicts} {e : Event} (h : Kept s) (hok : Sound s e)
    (hs : step s e = some s') : Kept s' := by
  obtain ⟨j, l⟩ := s
  have hr : Replays (j.settle j.superblock.writeOffset) l := h.replays
  -- One case for each event, with the verdicts that the condition allows.
  cases e with
  | beginTxn =>
    obtain rfl := Option.some.inj hs
    exact ⟨replays_step (c := .beginTxn) hr trivial rfl, h.dev, h.head_lt, h.aligned⟩
  | append id r =>
    cases htb : j.activeTxns id with
    | none =>
      have happ : j.append id r = (.enoent, j) := by
        unfold Journal.append
        rw [htb]
      simp only [Verdicts.step, happ, reduceCtorEq, if_false, Option.some.injEq] at hs
      exact hs ▸ h
    | some tb =>
      obtain ⟨j', happ, hset⟩ : ∃ j', j.append id r = (.ok, j') ∧
          (j.settle j.superblock.writeOffset).append id r =
            (.ok, j'.settle j.superblock.writeOffset) ∧ j'.superblock = j.superblock ∧
          j'.dev = j.dev ∧ j'.writeOffset = j.writeOffset ∧ j'.dataSize = j.dataSize := by
        unfold Journal.append
        rw [show (j.settle j.superblock.writeOffset).activeTxns id = some tb from htb, htb]
        exact ⟨_, rfl, rfl, rfl, rfl, rfl, rfl⟩
      obtain ⟨hset, hsuper, hdev, hhead, hsize⟩ := hset
      simp only [Verdicts.step, happ, if_true, Option.some.injEq] at hs
      subst hs
      refine ⟨?_, by rw [hdev, hsuper]; exact h.dev, by rw [hhead, hsize]; exact h.head_lt,
        by rw [hhead]; exact h.aligned⟩
      dsimp only
      rw [hsuper]
      exact replays_step (c := .append id r) hr trivial (congrArg returned hset)
  | commitTxn id f =>
    -- A transaction that is open commits, or is given up.
    cases htb : j.activeTxns id with
    | none =>
      have hcommit : j.commitTxnWith f id = (.enoent, j) := by
        unfold commitTxnWith
        rw [htb]
      have hnone : l.active id = none := by
        rw [hr.active id, show (j.settle _).activeTxns id = none from htb]
        rfl
      have habort : l.abort id = l := by
        unfold Ledger.abort
        rw [← hnone, Function.update_eq_self]
      simp only [Verdicts.step, hcommit, reduceCtorEq, if_false, Option.some.injEq, habort] at hs
      exact hs ▸ h
    | some tb =>
      have hc : CommitOk j id f tb := hok tb htb
      unfold CommitOk at hc
      dsimp only at hc
      split_ifs at hc with hdata
      · obtain ⟨j', hcommit, hkept⟩ := h.commits htb rfl hdata.1 hdata.2 hc.1 hc.2.1 hc.2.2
        simp only [Verdicts.step, hcommit, if_true, Option.some.injEq] at hs
        exact hs ▸ hkept
      · obtain ⟨j', hcommit, hkept⟩ := h.aborts htb rfl hdata hc
        simp only [Verdicts.step, hcommit, reduceCtorEq, if_false, Option.some.injEq] at hs
        exact hs ▸ hkept
  -- A checkpoint that fits replaces all that was carried.
  | checkpoint fullState =>
    obtain ⟨j', hj', rfl⟩ := Option.map_eq_some_iff.mp hs
    exact h.checkpoint hok (returned_eq hj')
  | recover =>
    obtain rfl := Option.some.inj hs
    rw [readSuperblock_eq h.dev hr.magic]
    exact kept_of_replays hr
  | restart =>
    obtain rfl := Option.some.inj hs
    -- The memory is lost, so the journal is what the device has.
    obtain ⟨j', hj', hj''⟩ : ∃ j', create j.dev j.devSize = j' ∧ j' =
        { (j.settle j.superblock.writeOffset) with
          nextTxnId := 1, activeTxns := fun _ => none } := by
      refine ⟨_, rfl, ?_⟩
      have hmagic : j.dev.superblock.magic = superBlockMagic := h.dev ▸ hr.magic
      have hsize : j.dataSize = j.devSize - kSuperblockSize := hr.size
      unfold create readSuperblock
      rw [if_neg (by simpa using hmagic)]
      dsimp only [settle]
      have hdev : j.dev.superblock = j.superblock := h.dev
      rw [← hsize, ← hdev]
    rw [hj', hj'']
    exact kept_of_replays ⟨hr.size, hr.magic, rfl, rfl, rfl, fun _ => rfl, by simp, hr.ring⟩

/-! ## Recovery -/

/-- What is read of the ring depends on the device alone. -/
theorem readRange_congr {j j' : Journal} (hdev : j.dev.data = j'.dev.data)
    (hsize : j.dataSize = j'.dataSize) (fuel remaining pos : ℕ) :
    j.readRange fuel remaining pos = j'.readRange fuel remaining pos := by
  induction fuel generalizing remaining pos with
  | zero => rfl
  | succ fuel ih =>
    have hread : ∀ n, j.dev.read pos n = j'.dev.read pos n := fun n => by
      unfold Device.read
      rw [hdev]
    unfold readRange
    simp only [hsize, hread, ih]

/-- Recovery looks at the device and the size only. -/
theorem recover_congr {j j' : Journal} (hdev : j.dev = j'.dev) (hsize : j.dataSize = j'.dataSize) :
    j.recover = j'.recover := by
  obtain ⟨hsb, hw, hd, hn⟩ : j.readSuperblock.superblock = j'.readSuperblock.superblock ∧
      j.readSuperblock.writeOffset = j'.readSuperblock.writeOffset ∧
      j.readSuperblock.dev = j'.readSuperblock.dev ∧
      j.readSuperblock.dataSize = j'.readSuperblock.dataSize := by
    unfold readSuperblock writeSuperblock
    rw [hdev]
    split_ifs <;> exact ⟨rfl, rfl, rfl, hsize⟩
  unfold Journal.recover
  simp only [hsb, hw, hd, hn, readRange_congr (congrArg Device.data hd) hn]

/-- Recovery returns the ledger's log, on this and on a restarted journal. -/
theorem Kept.recover {s : Verdicts} (h : Kept s) :
    s.journal.recover = some s.ledger.log ∧
      (create s.journal.dev s.journal.devSize).recover = some s.ledger.log := by
  obtain ⟨j, l⟩ := s
  have hr : Replays (j.settle j.superblock.writeOffset) l := h.replays
  have hdev : (j.settle j.superblock.writeOffset).dev = j.dev := by
    have hsb : j.dev.superblock = j.superblock := h.dev
    obtain ⟨devSize, dataSize, nextTxnId, activeTxns, superblock, writeOffset, dev⟩ := j
    obtain ⟨sb, data, capacity⟩ := dev
    obtain rfl : sb = superblock := hsb
    rfl
  have hlog : (create j.dev j.devSize).recover = some l.log := hdev ▸ hr.recover
  refine ⟨?_, hlog⟩
  have hmagic : j.dev.superblock.magic = superBlockMagic := by
    rw [show j.dev.superblock = j.superblock from h.dev]
    exact hr.magic
  have hsize : j.dataSize = j.devSize - kSuperblockSize := hr.size
  refine (recover_congr ?_ ?_).trans hlog
  all_goals
    unfold create readSuperblock
    rw [if_neg (by simpa using hmagic)]
  exact hsize

/-- A journal on a device, of which nobody was told anything yet. -/
def init (dev : Device) (devSize : ℕ) : Verdicts := ⟨create dev devSize, Ledger.init⟩

/-- In a run in which nothing is committed while the head in memory is not the one of the superblock
(or goes on from it), superblocks of committed transactions are written, and failing commits replace
no byte that is needed, recovery returns, at any time, on this and on a restarted journal, the
records of the last checkpoint and of exactly the transactions whose commit returned 0 since. -/
theorem recover_verdicts (dev : Device) (devSize : ℕ) (events : List Event) (s : Verdicts)
    (hdev : dev.superblock.magic ≠ superBlockMagic)
    (hm : Runs.Meets step Sound (init dev devSize) events)
    (hs : Runs.exec step (init dev devSize) events = some s) :
    s.journal.recover = some s.ledger.log ∧
      (create s.journal.dev s.journal.devSize).recover = some s.ledger.log :=
  (Runs.exec_invariant (fun _ _ _ (h : Kept _) hok hs => h.step hok hs) events _ s
    (kept_of_replays (replays_create hdev)) hm hs).recover

/-- A transaction that frees one extent, with what goes wrong in its commit. -/
def freeExtentWith (id e : UInt64) (f : Faults) : List Event :=
  [.beginTxn, .append id { op := .extentFree, extentId := e }, .commitTxn id f]

/-- What the transaction that frees extent 10 leaves on the device. -/
def freedTen (i : ℕ) : UInt8 :=
  (txnBytes 1 (serializeRecord { op := .extentFree, txnId := 1, extentId := 10 })).getD i 0

/-- A flush that fails after the bytes are on the device, a recovery, and a commit that goes
through. -/
def failedRecovered : List Event :=
  freeExtentWith 1 10 ⟨.flush freedTen, none⟩ ++ [.recover] ++ freeExtentWith 2 20 ⟨.none, none⟩

/-- After a recovery, the bytes of the commit that failed are overwritten. -/
theorem recover_verdicts_failedRecovered :
    ∃ s, Runs.exec step (init (blankDevice 4) 20480) failedRecovered = some s ∧
      s.journal.recover = some [{ op := .extentFree, txnId := 2, extentId := 20 }] := by
  have hrun : (Runs.exec step (init (blankDevice 4) 20480) failedRecovered).isSome := by
    decide +kernel
  obtain ⟨s, hs⟩ := Option.isSome_iff_exists.mp hrun
  have hlog := recover_verdicts (blankDevice 4) 20480 failedRecovered s (by decide)
    (by decide +kernel) hs
  have hledger : (Runs.exec step (init (blankDevice 4) 20480) failedRecovered).map
      (fun s => s.ledger.log) = some [{ op := .extentFree, txnId := 2, extentId := 20 }] := by
    decide +kernel
  rw [hs, Option.map_some, Option.some.injEq] at hledger
  exact ⟨s, hs, hledger ▸ hlog.1⟩

/-- The same without the recovery: the head is behind the bytes of the first transaction, and the
superblock of the second commit takes them in. And a commit whose superblock is not written. -/
theorem failed_commit_recovered :
    (∃ s, Runs.exec step (init (blankDevice 4) 20480)
        (freeExtentWith 1 10 ⟨.flush freedTen, none⟩ ++ freeExtentWith 2 20 ⟨.none, none⟩) =
          some s ∧
      s.ledger.log = [{ op := .extentFree, txnId := 2, extentId := 20 }] ∧
      s.journal.recover = some [{ op := .extentFree, txnId := 1, extentId := 10 },
        { op := .extentFree, txnId := 2, extentId := 20 }]) ∧
    ∃ s, Runs.exec step (init (blankDevice 4) 20480)
        (freeExtentWith 1 10 ⟨.none, some { magic := superBlockMagic }⟩) = some s ∧
      s.ledger.log = [{ op := .extentFree, txnId := 1, extentId := 10 }] ∧
      s.journal.recover = some [] := by
  have hfirst : (Runs.exec step (init (blankDevice 4) 20480)
      (freeExtentWith 1 10 ⟨.flush freedTen, none⟩ ++ freeExtentWith 2 20 ⟨.none, none⟩)).map
        (fun s => (s.ledger.log, s.journal.recover)) =
      some ([{ op := .extentFree, txnId := 2, extentId := 20 }],
        some [{ op := .extentFree, txnId := 1, extentId := 10 },
          { op := .extentFree, txnId := 2, extentId := 20 }]) := by
    decide +kernel
  have hsecond : (Runs.exec step (init (blankDevice 4) 20480)
      (freeExtentWith 1 10 ⟨.none, some { magic := superBlockMagic }⟩)).map
        (fun s => (s.ledger.log, s.journal.recover)) =
      some ([{ op := .extentFree, txnId := 1, extentId := 10 }], some []) := by
    decide +kernel
  obtain ⟨s, hs, heq⟩ := Option.map_eq_some_iff.mp hfirst
  obtain ⟨t, ht, heq'⟩ := Option.map_eq_some_iff.mp hsecond
  exact ⟨⟨s, hs, congrArg Prod.fst heq, congrArg Prod.snd heq⟩, t, ht, congrArg Prod.fst heq',
    congrArg Prod.snd heq'⟩

end Verdicts

end CxxLab.Btier
