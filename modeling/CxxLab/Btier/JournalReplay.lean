import CxxLab.Btier.Journal
import CxxLab.Lib.Runs

/-!
# Journal replay

What the journal is for: after any calls, `recover` returns the records of the last checkpoint
followed by those of the transactions committed after it. `Ledger` is the journal without the
device; `journal_replay_exact` says that `recover` on the device returns the ledger's log.

The code does not keep this in every run. The scan goes over the tail that a transaction skips when
it does not fit before the end of the ring, whatever an earlier lap left there; a full ring looks
empty; and the framing operations are not told from data. `JournalOk` names these situations on
the state before a call.
-/

namespace CxxLab.Btier

open Codec

/-! ## Records -/

/-- The record with the fields that its operation stores; the others have their defaults. -/
def JournalRecord.stored (r : JournalRecord) : JournalRecord :=
  match r.op with
  | .keyPut => { op := r.op, txnId := r.txnId, key := r.key, keyLoc := r.keyLoc }
  | .keyDel => { op := r.op, txnId := r.txnId, key := r.key }
  | .markDead =>
    { op := r.op, txnId := r.txnId, extentId := r.extentId, deadLength := r.deadLength }
  | .extentNew =>
    { op := r.op, txnId := r.txnId, extentId := r.extentId, extentLoc := r.extentLoc }
  | .extentFree => { op := r.op, txnId := r.txnId, extentId := r.extentId }
  | .txnCommit => { op := r.op, txnId := r.txnId, crc := r.crc }
  | _ => { op := r.op, txnId := r.txnId }

/-- The operations of the enumeration that are data, not framing. -/
def JournalOp.isData : JournalOp → Bool
  | .keyPut | .keyDel | .markDead | .extentNew | .extentFree => true
  | _ => false

/-- A record that the journal can carry: a data operation on a key whose length fits in 32 bits,
on a tier that exists. -/
structure JournalRecord.Storable (r : JournalRecord) : Prop where
  /-- The operation is data. -/
  op : r.op.isData
  /-- The key's length is not cut. -/
  key : r.key.length < 2 ^ 32
  /-- The tier is one of the two. -/
  tier : r.extentLoc.tier = .fast ∨ r.extentLoc.tier = .slow

instance (r : JournalRecord) : Decidable r.Storable :=
  decidable_of_iff (r.op.isData ∧ r.key.length < 2 ^ 32 ∧
      (r.extentLoc.tier = .fast ∨ r.extentLoc.tier = .slow))
    ⟨fun h => ⟨h.1, h.2.1, h.2.2⟩, fun h => ⟨h.op, h.key, h.tier⟩⟩

/-- A stored record has its operation. -/
@[simp] theorem stored_op (r : JournalRecord) : r.stored.op = r.op := by
  unfold JournalRecord.stored
  split <;> rfl

/-- A stored record is written as the record is. -/
@[simp] theorem serializeRecord_stored (r : JournalRecord) :
    serializeRecord r.stored = serializeRecord r := by
  obtain ⟨op, txnId, key, keyLoc, extentId, extentLoc, deadLength, crc⟩ := r
  cases op <;> rfl

/-- A string whose length fits is read back. -/
@[simp] theorem getString_putString {s : List UInt8} (h : s.length < 2 ^ 32) (rest : List UInt8) :
    getString (putString s ++ rest) = some (s, rest) := by
  have hlen : (UInt32.ofNat s.length).toNat = s.length := by
    rw [UInt32.toNat_ofNat']
    exact Nat.mod_eq_of_lt h
  simp [getString, putString, hlen]

/-- What is written is read back. -/
@[simp] theorem getKeyLocation_put (kl : KeyLocation) (rest : List UInt8) :
    getKeyLocation (putKeyLocation kl ++ rest) = some (kl, rest) := by
  simp [getKeyLocation, putKeyLocation]

/-- A location on a tier that exists is read back. -/
theorem getDiskLocation_put {dl : DiskLocation} (h : dl.tier = .fast ∨ dl.tier = .slow)
    (rest : List UInt8) : getDiskLocation (putDiskLocation dl ++ rest) = some (dl, rest) := by
  obtain ⟨offset, length, tier⟩ := dl
  rcases h with h | h <;> subst h <;> simp [getDiskLocation, putDiskLocation] <;> rfl

/-- The fields of a record of a known operation are read back. -/
theorem deserializeFields_serialize {r : JournalRecord} (hop : ∀ c, r.op ≠ .unknown c)
    (hkey : r.key.length < 2 ^ 32) (htier : r.extentLoc.tier = .fast ∨ r.extentLoc.tier = .slow)
    (rest : List UInt8) :
    deserializeFields r.op r.txnId (serializeFields r ++ rest) = some (r.stored, rest) := by
  obtain ⟨op, txnId, key, keyLoc, extentId, extentLoc, deadLength, crc⟩ := r
  cases op <;>
    simp_all [deserializeFields, serializeFields, JournalRecord.stored, getDiskLocation_put]

/-- A record of a known operation is read back, whatever follows it. -/
theorem deserializeRecord_serialize {r : JournalRecord} (hop : ∀ c, r.op ≠ .unknown c)
    (hkey : r.key.length < 2 ^ 32) (htier : r.extentLoc.tier = .fast ∨ r.extentLoc.tier = .slow)
    (rest : List UInt8) : deserializeRecord (serializeRecord r ++ rest) = some (r.stored, rest) := by
  have hcode : JournalOp.ofCode r.op.code = r.op := by
    revert hop
    cases r.op <;> simp <;> rfl
  unfold deserializeRecord serializeRecord
  simp only [List.append_assoc, getU8_putU8, getU64_putU64, Option.bind_eq_bind, Option.bind_some,
    hcode]
  exact deserializeFields_serialize hop hkey htier rest

/-- A serialized record has at least an operation and a transaction. -/
theorem nine_le_length_serializeRecord (r : JournalRecord) : 9 ≤ (serializeRecord r).length := by
  unfold serializeRecord
  simp only [List.length_append, length_putU8, length_putU64]
  omega

/-! ## The scan -/

namespace Journal

/-- From `p` and `st` on, the scan of `full` ends with `st'`, with as much fuel as there are
bytes. -/
def Scans (full p : List UInt8) (st st' : Scan) : Prop :=
  ∀ fuel, p.length ≤ fuel → scan full fuel p st = some st'

/-- Too few bytes for a record end the scan. -/
theorem scans_done {full p : List UInt8} {st : Scan} (h : p.length < 9) : Scans full p st st := by
  intro fuel _
  cases fuel with
  | zero => rfl
  | succ fuel => rw [scan, if_pos h]

/-- A record that is not padding is fed to the scan. -/
theorem Scans.record {full rest : List UInt8} {r : JournalRecord} {st st' : Scan}
    (hr : deserializeRecord (serializeRecord r ++ rest) = some (r.stored, rest))
    (hop : r.op.code ≠ 0) (h : Scans full rest (st.feed r.stored) st') :
    Scans full (serializeRecord r ++ rest) st st' := by
  intro fuel hfuel
  have hlen := nine_le_length_serializeRecord r
  rw [List.length_append] at hfuel
  obtain ⟨fuel, rfl⟩ : ∃ f, fuel = f + 1 := ⟨fuel - 1, by omega⟩
  rw [scan, if_neg (by rw [List.length_append]; omega), hr]
  simp only [stored_op, if_neg hop]
  exact h fuel (by omega)

/-- Where too few bytes are left, the scan has ended. -/
theorem Scans.eq_of_lt {full p : List UInt8} {st st' : Scan} (h : Scans full p st st')
    (hp : p.length < 9) : st = st' := by
  have h1 := h p.length le_rfl
  rw [scans_done hp p.length le_rfl] at h1
  exact Option.some.inj h1

/-- A record that starts with a zero byte is padding. -/
theorem deserializeRecord_zero {q : List UInt8} (h : 8 ≤ q.length) :
    ∃ r rest, deserializeRecord (0 :: q) = some (r, rest) ∧ r.op.code = 0 := by
  have hq : getU64 q = some (UInt64.ofNat (leNat (q.take 8)), q.drop 8) := by
    simp [getU64, getNat, getBytes, h]
  refine ⟨{ op := .unknown 0, txnId := UInt64.ofNat (leNat (q.take 8)) }, q.drop 8, ?_, rfl⟩
  simp only [deserializeRecord, getU8, Option.bind_eq_bind, Option.bind_some, hq]
  rfl

/-- A gap that ends at a block boundary: the next block begins where it ends. -/
theorem next_of_gap {pre gap : List UInt8} (rest : List UInt8) (hpos : 0 < gap.length)
    (hlen : gap.length ≤ kTxnAlignment) (hnext : kTxnAlignment ∣ pre.length + gap.length) :
    (((pre ++ (gap ++ rest)).length - (gap ++ rest).length) / kTxnAlignment + 1) * kTxnAlignment =
        (pre ++ gap).length ∧
      (pre ++ (gap ++ rest)).drop (pre ++ gap).length = rest := by
  have hsub : (pre ++ (gap ++ rest)).length - (gap ++ rest).length = pre.length := by
    rw [List.length_append]
    omega
  constructor
  · rw [hsub, List.length_append]
    obtain ⟨c, hc⟩ := hnext
    unfold kTxnAlignment at hlen hc ⊢
    omega
  · rw [← List.append_assoc, List.drop_left]

/-- A gap that starts with a zero byte and ends at a block boundary is skipped. -/
theorem Scans.skip {pre gap rest : List UInt8} {st st' : Scan} (hgap : gap.head? = some 0)
    (hlen : gap.length ≤ kTxnAlignment) (hnext : kTxnAlignment ∣ pre.length + gap.length)
    (h : Scans (pre ++ (gap ++ rest)) rest st st') :
    Scans (pre ++ (gap ++ rest)) (gap ++ rest) st st' := by
  obtain ⟨g, rfl⟩ : ∃ g, gap = 0 :: g := by
    cases gap with
    | nil => simp at hgap
    | cons b g => exact ⟨g, by simpa using hgap⟩
  obtain ⟨hpos, hdrop⟩ := next_of_gap rest (by simp) hlen hnext
  set full := pre ++ (0 :: g ++ rest) with hfull
  by_cases hshort : (0 :: g ++ rest).length < 9
  · have hrest : rest.length < 9 := by simp only [List.length_append] at hshort; omega
    rw [h.eq_of_lt hrest]
    exact scans_done hshort
  intro fuel hfuel
  obtain ⟨fuel, rfl⟩ : ∃ f, fuel = f + 1 := ⟨fuel - 1, by omega⟩
  obtain ⟨r, rest', hr, hcode⟩ := deserializeRecord_zero (q := g ++ rest) (by
    simp only [List.cons_append, List.length_cons] at hshort
    omega)
  have hlast : ∀ hge : (pre ++ 0 :: g).length ≥ full.length, rest = [] := by
    intro hge
    rw [← hdrop]
    exact List.drop_eq_nil_of_le hge
  rw [scan, if_neg hshort]
  simp only [List.cons_append] at hr ⊢
  rw [hr]
  simp only [hcode, if_true]
  rw [← List.cons_append, hpos, hdrop]
  split_ifs with hge
  · rw [h.eq_of_lt (by simp [hlast hge])]
  · exact h fuel (by simp only [List.length_append, List.length_cons] at hfuel; omega)

/-- The records of a transaction are collected. -/
theorem Scans.records {full rest : List UInt8} {rs : List JournalRecord} {st st' : Scan}
    (hrs : ∀ r ∈ rs, r.Storable) (hin : st.inTxn)
    (h : Scans full rest { st with currentTxn := st.currentTxn ++ rs.map JournalRecord.stored } st') :
    Scans full (serializeRecords rs ++ rest) st st' := by
  induction rs generalizing st with
  | nil => simpa [serializeRecords] using h
  | cons r rs ih =>
    have hr := hrs r (by simp)
    have hdata : ∀ c, r.op ≠ .unknown c := by
      intro c hc
      simpa [hc, JournalOp.isData] using hr.op
    have hfeed : st.feed r.stored = { st with currentTxn := st.currentTxn ++ [r.stored] } := by
      have hop := hr.op
      revert hop
      simp only [Scan.feed, stored_op]
      cases r.op <;> simp [JournalOp.isData, hin]
    have hcode : r.op.code ≠ 0 := by
      have hop := hr.op
      revert hop
      cases r.op <;> simp [JournalOp.isData, JournalOp.code]
    unfold serializeRecords
    rw [List.flatMap_cons, List.append_assoc]
    refine Scans.record (deserializeRecord_serialize hdata hr.key hr.tier _) hcode ?_
    rw [hfeed]
    refine ih (fun x hx => hrs x (List.mem_cons_of_mem _ hx)) hin ?_
    simpa using h

/-- The bytes that a transaction or a checkpoint writes. -/
def entryBytes (isCheckpoint : Bool) (id : UInt64) (rs : List JournalRecord) : List UInt8 :=
  if isCheckpoint then checkpointBytes (serializeRecords rs) else txnBytes id (serializeRecords rs)

/-- The mark of a checkpoint is passed over. -/
theorem Scans.mark {full rest : List UInt8} {st st' : Scan} (h : Scans full rest st st') :
    Scans full (serializeRecord { op := .checkpoint } ++ rest) st st' := by
  refine Scans.record (deserializeRecord_serialize (by simp) (by simp) (by simp) rest) ?_ ?_
  · simp [JournalOp.code]
  · exact h

/-- A framed list of records is returned. -/
theorem Scans.frame {full mark rest : List UInt8} {id : UInt64} {rs : List JournalRecord}
    {st st' : Scan} (hrs : ∀ r ∈ rs, r.Storable)
    (hmark : ∀ p st st', Scans full p st st' → Scans full (mark ++ p) st st')
    (h : Scans full rest
      ⟨st.result ++ rs.map JournalRecord.stored, [], false, id⟩ st') :
    Scans full (Journal.frame id mark (serializeRecords rs) ++ rest) st st' := by
  unfold Journal.frame
  simp only [List.append_assoc]
  refine Scans.record (deserializeRecord_serialize (by simp) (by simp) (by simp) _)
    (by simp [JournalOp.code]) ?_
  refine hmark _ _ _ (Scans.records hrs (by simp [Scan.feed, JournalRecord.stored]) ?_)
  refine Scans.record (deserializeRecord_serialize (by simp) (by simp) (by simp) _)
    (by simp [JournalOp.code]) ?_
  have hser : serializeRecords (rs.map JournalRecord.stored) = serializeRecords rs := by
    simp [serializeRecords, List.flatMap_map]
  simpa [Scan.feed, JournalRecord.stored, hser] using h

/-! ## Segments -/

/-- A transaction is padded to whole blocks, by less than one. -/
theorem padded_spec {len : ℕ} (h : 0 < len) : kTxnAlignment ∣ padded len ∧ len ≤ padded len ∧
    padded len < len + kTxnAlignment ∧ 0 < padded len := by
  unfold padded kTxnAlignment
  have hp : (len + 4096 - 1) / 4096 * 4096 ≠ 0 := by omega
  simp only [if_neg hp]
  exact ⟨Dvd.intro_left _ rfl, by omega, by omega, by omega⟩

/-- Padding goes to the next block. -/
@[simp] theorem length_pad {bl : List UInt8} (h : 0 < bl.length) :
    (pad bl).length = padded bl.length := by
  have := (padded_spec h).2.1
  simp [pad]
  omega

/-- A piece of the scan range. -/
inductive Segment where
  /-- A transaction or a checkpoint, with its padding. -/
  | entry (isCheckpoint : Bool) (id : UInt64) (rs : List JournalRecord)
  /-- A block that a transaction skipped. -/
  | blank (block : List UInt8)

/-- The bytes of a segment. -/
def Segment.bytes : Segment → List UInt8
  | .entry c id rs => pad (entryBytes c id rs)
  | .blank block => block

/-- What recovery returns for a segment. -/
def Segment.records : Segment → List JournalRecord
  | .entry _ _ rs => rs.map JournalRecord.stored
  | .blank _ => []

/-- A segment that the scan reads as it was meant. -/
def Segment.Valid : Segment → Prop
  | .entry _ _ rs => ∀ r ∈ rs, r.Storable
  | .blank block => block.length = kTxnAlignment ∧ block.head? = some 0

/-- An entry is not empty. -/
theorem length_entryBytes_pos (c : Bool) (id : UInt64) (rs : List JournalRecord) :
    0 < (entryBytes c id rs).length := by
  have := nine_le_length_serializeRecord { op := .txnBegin, txnId := id }
  have := nine_le_length_serializeRecord { op := .txnBegin }
  unfold entryBytes checkpointBytes txnBytes Journal.frame
  split_ifs <;> simp only [List.length_append] <;> omega

/-- Segments are whole blocks. -/
theorem Segment.dvd_length {g : Segment} (h : g.Valid) : kTxnAlignment ∣ g.bytes.length := by
  cases g with
  | entry c id rs =>
    have hpos := length_entryBytes_pos c id rs
    rw [Segment.bytes, length_pad hpos]
    exact (padded_spec hpos).1
  | blank block => exact dvd_of_eq h.1.symm

/-- Segments are not empty. -/
theorem Segment.length_pos {g : Segment} (h : g.Valid) : 0 < g.bytes.length := by
  cases g with
  | entry c id rs =>
    have hpos := length_entryBytes_pos c id rs
    rw [Segment.bytes, length_pad hpos]
    exact (padded_spec hpos).2.2.2
  | blank block =>
    change 0 < block.length
    rw [h.1]
    decide

/-- Without bytes there are no segments. -/
theorem flatMap_bytes_eq_nil {gs : List Segment} (h : ∀ g ∈ gs, g.Valid)
    (hnil : (gs.flatMap Segment.bytes).length = 0) : gs = [] := by
  by_contra hne
  obtain ⟨g, gs', rfl⟩ := List.exists_cons_of_ne_nil hne
  have hg := Segment.length_pos (h g (by simp))
  rw [List.flatMap_cons, List.length_append] at hnil
  omega

/-- An entry is scanned, with its padding. -/
theorem Scans.entry {pre rest : List UInt8} {c : Bool} {id : UInt64} {rs : List JournalRecord}
    {st st' : Scan} (hrs : ∀ r ∈ rs, r.Storable) (hpre : kTxnAlignment ∣ pre.length)
    (h : Scans (pre ++ (pad (entryBytes c id rs) ++ rest)) rest
      ⟨st.result ++ rs.map JournalRecord.stored, [], false, if c then 0 else id⟩ st') :
    Scans (pre ++ (pad (entryBytes c id rs) ++ rest)) (pad (entryBytes c id rs) ++ rest) st st' := by
  obtain ⟨hdvd, hle, hlt, -⟩ := padded_spec (length_entryBytes_pos c id rs)
  set e := entryBytes c id rs with he
  set k := padded e.length - e.length with hk
  have hpad : pad e = e ++ List.replicate k 0 := rfl
  -- The zeros behind the frame, if there are any, end at a block boundary.
  have hzeros : Scans (pre ++ (pad e ++ rest)) (List.replicate k 0 ++ rest)
      ⟨st.result ++ rs.map JournalRecord.stored, [], false, if c then 0 else id⟩ st' := by
    rcases Nat.eq_zero_or_pos k with h0 | hpos
    · simpa [h0] using h
    · have hfull : pre ++ (pad e ++ rest) = (pre ++ e) ++ (List.replicate k 0 ++ rest) := by
        simp [hpad]
      rw [hfull] at h ⊢
      refine Scans.skip ?_ ?_ ?_ h
      · obtain ⟨m, hm⟩ : ∃ m, k = m + 1 := ⟨k - 1, by omega⟩
        simp [hm, List.replicate_succ]
      · simp only [List.length_replicate]
        omega
      · rw [List.length_append, List.length_replicate, Nat.add_assoc,
          show e.length + k = padded e.length by omega]
        exact hpre.add hdvd
  rw [hpad, List.append_assoc] at hzeros ⊢
  cases c with
  | false =>
    refine Scans.frame hrs (fun p _ _ hp => by simpa using hp) ?_
    simpa using hzeros
  | true =>
    refine Scans.frame hrs (fun p _ _ hp => Scans.mark hp) ?_
    simpa using hzeros

/-- The scan of valid segments returns their records. -/
theorem scans_segments {gs : List Segment} (hgs : ∀ g ∈ gs, g.Valid) (pre : List UInt8)
    (hpre : kTxnAlignment ∣ pre.length) (st : Scan) :
    ∃ st', Scans (pre ++ gs.flatMap Segment.bytes) (gs.flatMap Segment.bytes) st st' ∧
      st'.result = st.result ++ gs.flatMap Segment.records := by
  induction gs generalizing pre st with
  | nil => exact ⟨st, scans_done (by simp), by simp⟩
  | cons g gs ih =>
    have hg := hgs g (by simp)
    have hpre' : kTxnAlignment ∣ (pre ++ g.bytes).length := by
      rw [List.length_append]
      exact hpre.add (Segment.dvd_length hg)
    have hgs' : ∀ g' ∈ gs, g'.Valid := fun g' hg' => hgs g' (List.mem_cons_of_mem _ hg')
    simp only [List.flatMap_cons]
    cases g with
    | entry c id rs =>
      obtain ⟨st', hs, hres⟩ := ih hgs' (pre ++ pad (entryBytes c id rs)) hpre'
        ⟨st.result ++ rs.map JournalRecord.stored, [], false, if c then 0 else id⟩
      rw [List.append_assoc] at hs
      exact ⟨st', Scans.entry hg hpre hs, by rw [hres]; simp [Segment.records]⟩
    | blank block =>
      obtain ⟨st', hs, hres⟩ := ih hgs' (pre ++ block) hpre' st
      rw [List.append_assoc] at hs
      refine ⟨st', Scans.skip hg.2 hg.1.le ?_ hs, by rw [hres]; simp [Segment.records]⟩
      simpa using hpre'

/-! ## The ring -/

/-- The chunks of `recover` are one read of the ring. -/
theorem readRange_eq (j : Journal) {fuel remaining pos : ℕ} (hfuel : remaining ≤ fuel)
    (hpos : pos < j.dataSize) :
    j.readRange fuel remaining pos = Ring.ringRead j.dev.data j.dataSize pos remaining := by
  induction fuel generalizing remaining pos with
  | zero =>
    obtain rfl : remaining = 0 := by omega
    rfl
  | succ fuel ih =>
    rcases Nat.eq_zero_or_pos remaining with h0 | hrem
    · subst h0
      rw [readRange, if_pos rfl, Ring.ringRead_zero]
    · rw [readRange, if_neg (by omega)]
      simp only
      set toRead := if pos + min kTxnAlignment remaining > j.dataSize then j.dataSize - pos
        else min kTxnAlignment remaining with htr
      have hmin : 0 < min kTxnAlignment remaining ∧ min kTxnAlignment remaining ≤ remaining :=
        ⟨by unfold kTxnAlignment; omega, min_le_right _ _⟩
      have hbound : 0 < toRead ∧ toRead ≤ remaining ∧ pos + toRead ≤ j.dataSize := by
        rw [htr]
        split_ifs <;> omega
      obtain ⟨htr0, htr1, htr2⟩ := hbound
      rw [if_neg (by omega), ih (by omega) (by split_ifs <;> omega)]
      -- The position after the chunk is the same cell, around the end.
      have hnext : Ring.ringRead j.dev.data j.dataSize
          (if pos + toRead ≥ j.dataSize then 0 else pos + toRead) (remaining - toRead) =
          Ring.ringRead j.dev.data j.dataSize (pos + toRead) (remaining - toRead) := by
        rw [← Ring.ringRead_mod _ _ (pos + toRead)]
        split_ifs with hge
        · rw [show pos + toRead = j.dataSize by omega, Nat.mod_self]
        · rw [Nat.mod_eq_of_lt (by omega)]
      have hread : j.dev.read pos toRead = Ring.ringRead j.dev.data j.dataSize pos toRead :=
        (Ring.ringRead_of_le _ htr2).symm
      rw [hnext, hread, ← Ring.ringRead_add, Nat.add_sub_cancel' htr1]

/-- From `cp` to the write head `w`, a ring of size `n` holds the given segments. -/
structure Holds (data : ℕ → UInt8) (n cp w : ℕ) (gs : List Segment) : Prop where
  /-- The start is in the ring. -/
  cp_lt : cp < max n 1
  /-- The ring is not full. -/
  used_lt : (gs.flatMap Segment.bytes).length < max n 1
  /-- The write head is behind the segments. -/
  head : w = (cp + (gs.flatMap Segment.bytes).length) % n
  /-- The write head is at a block boundary. -/
  aligned : kTxnAlignment ∣ w
  /-- The bytes are those of the segments. -/
  read : Ring.ringRead data n cp (gs.flatMap Segment.bytes).length = gs.flatMap Segment.bytes
  /-- The segments are valid. -/
  valid : ∀ g ∈ gs, g.Valid

/-- An empty ring starts at any aligned write head. -/
theorem holds_nil (data : ℕ → UInt8) {n w : ℕ} (hw : w < max n 1) (ha : kTxnAlignment ∣ w) :
    Holds data n w w [] where
  cp_lt := hw
  used_lt := by simp
  head := by
    rcases Nat.eq_zero_or_pos n with h0 | hpos
    · subst h0; simp
    · simp only [List.flatMap_nil, List.length_nil, Nat.add_zero]
      rw [Nat.mod_eq_of_lt (by omega)]
  aligned := ha
  read := rfl
  valid := by simp

/-- The write head is in the ring. -/
theorem Holds.head_lt {data : ℕ → UInt8} {n cp w : ℕ} {gs : List Segment}
    (h : Holds data n cp w gs) : w < max n 1 := by
  rcases Nat.eq_zero_or_pos n with h0 | hpos
  · have := h.cp_lt
    have := h.used_lt
    rw [h.head, h0, Nat.mod_zero]
    omega
  · rw [h.head]
    exact lt_of_lt_of_le (Nat.mod_lt _ hpos) (le_max_left _ _)

/-- The distance from the start to the write head, as the code computes it. -/
theorem Holds.distance {data : ℕ → UInt8} {n cp w : ℕ} {gs : List Segment}
    (h : Holds data n cp w gs) :
    (if w ≥ cp then w - cp else n - cp + w) = (gs.flatMap Segment.bytes).length := by
  have hcp := h.cp_lt
  have hused := h.used_lt
  have hhead := h.head
  set u := (gs.flatMap Segment.bytes).length
  rcases Nat.eq_zero_or_pos n with h0 | hpos
  · subst h0
    simp only [Nat.mod_zero] at hhead
    rw [if_pos (by omega)]
    omega
  · rcases Nat.lt_or_ge (cp + u) n with hlt | hge
    · rw [Nat.mod_eq_of_lt hlt] at hhead
      rw [if_pos (by omega)]
      omega
    · rw [Nat.mod_eq_sub_mod hge, Nat.mod_eq_of_lt (by omega)] at hhead
      rw [if_neg (by omega)]
      omega

/-- The read of `recover` returns the segments. -/
theorem Holds.readRange_eq {j : Journal} {cp w : ℕ} {gs : List Segment}
    (h : Holds j.dev.data j.dataSize cp w gs) :
    j.readRange (gs.flatMap Segment.bytes).length (gs.flatMap Segment.bytes).length cp =
      gs.flatMap Segment.bytes := by
  have hcp := h.cp_lt
  have hused := h.used_lt
  rcases Nat.eq_zero_or_pos (gs.flatMap Segment.bytes).length with h0 | hpos
  · rw [List.length_eq_zero_iff.mp h0]
    rfl
  · rw [Journal.readRange_eq j le_rfl (by omega), h.read]

/-- The blocks of a skipped tail. -/
def blanks (data : ℕ → UInt8) (w m : ℕ) : List Segment :=
  (List.range m).map fun b => .blank ((List.range kTxnAlignment).map fun i =>
    data (w + b * kTxnAlignment + i))

/-- The blocks of a tail are its bytes. -/
theorem flatMap_blanks (data : ℕ → UInt8) {n w m : ℕ} (h : w + m * kTxnAlignment ≤ n) :
    (blanks data w m).flatMap Segment.bytes =
      Ring.ringRead data n w (m * kTxnAlignment) := by
  induction m with
  | zero => simp [blanks]
  | succ m ih =>
    rw [Nat.succ_mul] at h
    have hsucc : blanks data w (m + 1) = blanks data w m ++
        [.blank ((List.range kTxnAlignment).map fun i => data (w + m * kTxnAlignment + i))] := by
      simp [blanks, List.range_succ]
    rw [hsucc, List.flatMap_append, ih (by omega), Nat.succ_mul, Ring.ringRead_add,
      Ring.ringRead_of_le data (show w + m * kTxnAlignment + kTxnAlignment ≤ n by omega)]
    simp [Segment.bytes]

/-- Blocks that start with a zero byte are valid, and return nothing. -/
theorem blanks_valid {data : ℕ → UInt8} {w m : ℕ}
    (h : ∀ b < m, data (w + b * kTxnAlignment) = 0) :
    (∀ g ∈ blanks data w m, g.Valid) ∧ (blanks data w m).flatMap Segment.records = [] := by
  constructor
  · intro g hg
    obtain ⟨b, hb, rfl⟩ := List.mem_map.mp hg
    refine ⟨by simp, ?_⟩
    rw [List.head?_map, List.head?_range, if_neg (by decide), Option.map_some, Nat.add_zero,
      h b (List.mem_range.mp hb)]
  · rw [List.flatMap_eq_nil_iff]
    intro g hg
    obtain ⟨b, -, rfl⟩ := List.mem_map.mp hg
    rfl

/-- The bytes that a transaction of `n` bytes skips before the end of the ring. -/
def skipped (j : Journal) (n : ℕ) : ℕ :=
  if j.writeOffset + n > j.dataSize then j.dataSize - j.writeOffset else 0

/-- A transaction behind `used` bytes finds a place where recovery will find it: it leaves the
ring not full, and when it goes around the end, it skips whole blocks that start with a zero byte.
Buffers stay below 4 GiB. -/
structure Fits (j : Journal) (used len : ℕ) : Prop where
  /-- Buffer lengths are 32-bit. -/
  small : j.dataSize < 2 ^ 32
  /-- The ring does not become full. -/
  room : used + j.skipped (padded len) + padded len < j.dataSize
  /-- The data area is whole blocks when the end is passed. -/
  blocks : j.writeOffset + padded len > j.dataSize → kTxnAlignment ∣ j.dataSize
  /-- What is skipped looks like padding. -/
  blank : j.writeOffset + padded len > j.dataSize → ∀ b < j.dataSize / kTxnAlignment,
    j.writeOffset ≤ b * kTxnAlignment → j.dev.data (b * kTxnAlignment) = 0

instance (j : Journal) (used len : ℕ) : Decidable (j.Fits used len) :=
  decidable_of_iff (j.dataSize < 2 ^ 32 ∧
      used + j.skipped (padded len) + padded len < j.dataSize ∧
      (j.writeOffset + padded len > j.dataSize → kTxnAlignment ∣ j.dataSize) ∧
      (j.writeOffset + padded len > j.dataSize → ∀ b < j.dataSize / kTxnAlignment,
        j.writeOffset ≤ b * kTxnAlignment → j.dev.data (b * kTxnAlignment) = 0))
    ⟨fun h => ⟨h.1, h.2.1, h.2.2.1, h.2.2.2⟩, fun h => ⟨h.small, h.room, h.blocks, h.blank⟩⟩

/-- The skipped tail is a list of blank segments. -/
theorem exists_blanks {j : Journal} {used len cp : ℕ} (hf : j.Fits used len)
    (hw : j.writeOffset = (cp + used) % j.dataSize) (ha : kTxnAlignment ∣ j.writeOffset) :
    ∃ gs : List Segment, (∀ g ∈ gs, g.Valid) ∧ gs.flatMap Segment.records = [] ∧
      (gs.flatMap Segment.bytes).length = j.skipped (padded len) ∧
      Ring.ringRead j.dev.data j.dataSize (cp + used) (j.skipped (padded len)) =
        gs.flatMap Segment.bytes ∧
      j.writeStart (padded len) = (cp + (used + j.skipped (padded len))) % j.dataSize ∧
      j.writeStart (padded len) + padded len ≤ j.dataSize := by
  have hroom := hf.room
  have hlt : j.writeOffset < j.dataSize := hw ▸ Nat.mod_lt _ (by omega)
  by_cases hwrap : j.writeOffset + padded len > j.dataSize
  · have hskip : j.skipped (padded len) = j.dataSize - j.writeOffset := if_pos hwrap
    obtain ⟨c, hc⟩ := hf.blocks hwrap
    obtain ⟨d, hd⟩ := ha
    have hm : (c - d) * kTxnAlignment = j.dataSize - j.writeOffset := by
      rw [Nat.sub_mul, hc, hd, Nat.mul_comm c, Nat.mul_comm d]
    have hzero : ∀ b < c - d, j.dev.data (j.writeOffset + b * kTxnAlignment) = 0 := by
      intro b hb
      have hidx : j.writeOffset + b * kTxnAlignment = (d + b) * kTxnAlignment := by
        rw [hd, Nat.add_mul, Nat.mul_comm d]
      rw [hidx]
      refine hf.blank hwrap (d + b) ?_ ?_
      · rw [hc, Nat.mul_div_cancel_left _ (by decide : 0 < kTxnAlignment)]
        omega
      · rw [← hidx]
        omega
    obtain ⟨hv, hr⟩ := blanks_valid hzero
    have hbytes := flatMap_blanks j.dev.data (n := j.dataSize)
      (show j.writeOffset + (c - d) * kTxnAlignment ≤ j.dataSize by omega)
    refine ⟨blanks j.dev.data j.writeOffset (c - d), hv, hr, ?_, ?_, ?_, ?_⟩
    · rw [hbytes, Ring.length_ringRead, hm, hskip]
    · rw [hbytes, hskip, hm, ← Ring.ringRead_mod, ← hw]
    · rw [writeStart, if_pos hwrap, ← Nat.add_assoc, ← Nat.mod_add_mod, ← hw, hskip,
        Nat.add_sub_cancel' hlt.le, Nat.mod_self]
    · rw [writeStart, if_pos hwrap]
      omega
  · have hskip : j.skipped (padded len) = 0 := if_neg hwrap
    refine ⟨[], by simp, rfl, by simp [hskip], by simp [hskip], ?_, ?_⟩
    · rw [writeStart, if_neg hwrap, hskip, Nat.add_zero, ← hw]
    · rw [writeStart, if_neg hwrap]
      omega

/-- What a successful write does. -/
theorem writeAt_eq {j j' : Journal} {start : ℕ} {bl : List UInt8}
    (h : j.writeAt start bl = (true, j')) :
    j' = { j with
      dev := { j.dev with data := Ring.splice j.dev.data start bl }
      writeOffset := if start + bl.length ≥ j.dataSize then 0 else start + bl.length } := by
  unfold writeAt Device.write at h
  split at h
  · simp at h
  · rename_i dev hdev
    simp only [Option.ite_none_right_eq_some, Option.some.injEq] at hdev
    obtain ⟨-, rfl⟩ := hdev
    exact (Prod.mk.inj h).2.symm

/-- An operation that succeeds wrote its bytes and then its superblock. -/
theorem afterWrite_eq {f : Journal → Journal} {r : Bool × Journal} {j' : Journal}
    (h : afterWrite f r = (.ok, j')) : ∃ j1, r = (true, j1) ∧ j' = f j1 := by
  obtain ⟨b, j1⟩ := r
  cases b with
  | false => simp [afterWrite] at h
  | true => exact ⟨j1, rfl, (Prod.mk.inj h).2.symm⟩

/-- What a successful `commit_txn` does. -/
theorem commitTxn_eq {j j' : Journal} {id : UInt64} (h : j.commitTxn id = (.ok, j')) :
    ∃ tb, j.activeTxns id = some tb ∧ ∃ j1,
      { j with activeTxns := Function.update j.activeTxns id none }.padAndWrite
        (txnBytes id tb.serialized) = (true, j1) ∧ j' = j1.afterCommit := by
  unfold Journal.commitTxn at h
  cases htb : j.activeTxns id with
  | none => simp [htb] at h
  | some tb =>
    rw [htb] at h
    exact ⟨tb, rfl, afterWrite_eq h⟩

/-- What a successful `checkpoint` does. -/
theorem checkpoint_eq {j j' : Journal} {fullState : List JournalRecord}
    (h : j.checkpoint fullState = (.ok, j')) :
    ∃ j1, j.padAndWrite (checkpointBytes (serializeRecords fullState)) = (true, j1) ∧
      j' = afterCheckpoint j.writeOffset j1 :=
  afterWrite_eq h

/-- A successful `pad_and_write` leaves the rest of the journal alone. -/
theorem padAndWrite_frame {j j' : Journal} {bl : List UInt8} (h : j.padAndWrite bl = (true, j')) :
    j'.devSize = j.devSize ∧ j'.dataSize = j.dataSize ∧ j'.nextTxnId = j.nextTxnId ∧
      j'.activeTxns = j.activeTxns ∧ j'.superblock = j.superblock := by
  rw [writeAt_eq h]
  exact ⟨rfl, rfl, rfl, rfl, rfl⟩

/-- A transaction that fits is added to the segments. -/
theorem Holds.write {j j' : Journal} {cp : ℕ} {gs : List Segment} {c : Bool} {id : UInt64}
    {rs : List JournalRecord} (h : Holds j.dev.data j.dataSize cp j.writeOffset gs)
    (hf : j.Fits (gs.flatMap Segment.bytes).length (entryBytes c id rs).length)
    (hrs : ∀ r ∈ rs, r.Storable) (hw : j.padAndWrite (entryBytes c id rs) = (true, j')) :
    ∃ gs', Holds j'.dev.data j.dataSize cp j'.writeOffset gs' ∧
      gs'.flatMap Segment.records = gs.flatMap Segment.records ++ rs.map JournalRecord.stored ∧
      (gs'.flatMap Segment.bytes).length = (gs.flatMap Segment.bytes).length +
        j.skipped (padded (entryBytes c id rs).length) + padded (entryBytes c id rs).length := by
  obtain ⟨e, he⟩ : ∃ e, e = entryBytes c id rs := ⟨_, rfl⟩
  have hpos : 0 < e.length := he ▸ length_entryBytes_pos c id rs
  rw [← he] at hf hw ⊢
  -- The entry takes whole sectors.
  obtain ⟨hdvd, -, -, hp0⟩ := padded_spec hpos
  have hlen : (pad e).length = padded e.length := length_pad hpos
  have hw' := writeAt_eq hw
  rw [hlen] at hw'
  -- What is skipped at the end of the ring is left blank.
  obtain ⟨bs, hbv, hbr, hbl, hbread, hstart, hend⟩ := exists_blanks hf h.head h.aligned
  have hroom := hf.room
  obtain ⟨u, hu⟩ : ∃ u, u = (gs.flatMap Segment.bytes).length := ⟨_, rfl⟩
  obtain ⟨k, hk⟩ : ∃ k, k = j.skipped (padded e.length) := ⟨_, rfl⟩
  obtain ⟨start, hst⟩ : ∃ s, s = j.writeStart (padded e.length) := ⟨_, rfl⟩
  obtain ⟨n, hn⟩ : ∃ n, n = padded e.length := ⟨_, rfl⟩
  rw [← hu, ← hk] at hbread hstart hroom
  rw [← hk] at hbl
  rw [← hst] at hstart hend hw'
  rw [← hn] at hlen hdvd hp0 hroom hend hw'
  have hdata : j'.dev.data = Ring.splice j.dev.data start (pad e) := by rw [hw']
  have hhead : j'.writeOffset = if start + n ≥ j.dataSize then 0 else start + n := by rw [hw']
  -- The segments are those of before, the blanks, and the new entry.
  obtain ⟨gs', hgs'⟩ : ∃ l, l = gs ++ bs ++ [Segment.entry c id rs] := ⟨_, rfl⟩
  have hbytes : gs'.flatMap Segment.bytes =
      gs.flatMap Segment.bytes ++ bs.flatMap Segment.bytes ++ pad e := by
    simp [hgs', Segment.bytes, he]
  have hused : (gs'.flatMap Segment.bytes).length = u + k + n := by
    rw [hbytes, List.length_append, List.length_append, hbl, hlen, hu]
  refine ⟨gs', ?_, by simp [hgs', hbr, Segment.records], by rw [hused, hu, hk, hn]⟩
  -- Clause by clause, with the head behind the entry.
  constructor
  case cp_lt => exact h.cp_lt
  case used_lt => exact hused ▸ lt_of_lt_of_le hroom (le_max_left _ _)
  case head =>
    rw [hhead, hused, ← Nat.add_assoc, ← Nat.mod_add_mod, ← hstart]
    split_ifs with hge
    · rw [show start + n = j.dataSize by omega, Nat.mod_self]
    · rw [Nat.mod_eq_of_lt (by omega)]
  case aligned =>
    rw [hhead]
    split_ifs with hge
    · exact dvd_zero _
    · have hs : kTxnAlignment ∣ start := by
        rw [hst]
        unfold writeStart
        split_ifs
        · exact dvd_zero _
        · exact h.aligned
      exact hs.add hdvd
  case read =>
    rw [hused, hdata, Ring.ringRead_add, Ring.ringRead_splice_of_le _ hstart le_rfl (by omega),
      Ring.ringRead_add, hu, h.read, ← hu, hbread, ← Ring.ringRead_mod, ← hstart, ← hlen,
      Ring.ringRead_splice_self _ (by omega), hbytes]
  case valid =>
    intro g hg
    simp only [hgs', List.mem_append, List.mem_singleton] at hg
    rcases hg with (hg | hg) | hg
    · exact h.valid g hg
    · exact hbv g hg
    · exact hg ▸ hrs

/-! ## The ledger -/

end Journal

open Journal

/-- The journal without its device: the transactions that are open, and the records that recovery
owes. -/
structure Ledger where
  /-- The next transaction. -/
  nextTxnId : UInt64
  /-- The records of the open transactions. -/
  active : UInt64 → Option (List JournalRecord)
  /-- The records of the last checkpoint, and those committed after it. -/
  log : List JournalRecord

/-- Nothing was written yet. -/
def Ledger.init : Ledger := ⟨1, fun _ => none, []⟩

/-- What a call does to the ledger. -/
def Ledger.step (l : Ledger) : Call → Ledger
  | .beginTxn =>
    { l with
      nextTxnId := l.nextTxnId + 1
      active := Function.update l.active l.nextTxnId (some ((l.active l.nextTxnId).getD [])) }
  | .append id r =>
    { l with
      active := Function.update l.active id
        ((l.active id).map (· ++ [JournalRecord.stored { r with txnId := id }])) }
  | .commitTxn id =>
    { l with
      active := Function.update l.active id none
      log := l.log ++ (l.active id).getD [] }
  | .checkpoint fullState => { l with log := fullState.map JournalRecord.stored }

/-- The ledger after a list of calls. -/
def Ledger.after (calls : List Call) : Ledger := calls.foldl Ledger.step Ledger.init

/-- The situations in which the code keeps the journal exact: what is committed are data records,
and the transaction finds a place where recovery will find it. -/
def JournalOk (j : Journal) : Call → Prop
  | .commitTxn id =>
    match j.activeTxns id with
    | some tb => (∀ r ∈ tb.records, r.Storable) ∧
      j.Fits j.getUsedBytes (txnBytes id tb.serialized).length
    | none => True
  | .checkpoint fullState => (∀ r ∈ fullState, r.Storable) ∧
    j.Fits 0 (checkpointBytes (serializeRecords fullState)).length
  | _ => True

instance (j : Journal) (c : Call) : Decidable (JournalOk j c) := by
  unfold JournalOk
  split
  · split <;> infer_instance
  · infer_instance
  · infer_instance

/-- The journal and its device carry the ledger. -/
structure Replays (j : Journal) (l : Ledger) : Prop where
  /-- The data area is what is behind the superblock. -/
  size : j.dataSize = j.devSize - kSuperblockSize
  /-- The superblock is initialized. -/
  magic : j.superblock.magic = superBlockMagic
  /-- The superblock on the device is the one in memory. -/
  dev : j.dev.superblock = j.superblock
  /-- It has the write head. -/
  head : j.superblock.writeOffset = j.writeOffset
  /-- The ids agree. -/
  next : l.nextTxnId = j.nextTxnId
  /-- The open transactions agree. -/
  active : ∀ id, l.active id =
    (j.activeTxns id).map fun tb => tb.records.map JournalRecord.stored
  /-- A buffer holds its records. -/
  serialized : ∀ id tb, j.activeTxns id = some tb → tb.serialized = serializeRecords tb.records
  /-- The ring holds the log. -/
  ring : ∃ gs, Holds j.dev.data j.dataSize j.superblock.checkpointOffset j.writeOffset gs ∧
    gs.flatMap Segment.records = l.log

/-- A fresh device carries the empty ledger, whatever bytes it has. -/
theorem replays_create {dev : Device} {devSize : ℕ}
    (h : dev.superblock.magic ≠ superBlockMagic) : Replays (create dev devSize) Ledger.init := by
  have hj : create dev devSize =
      { devSize := devSize
        dataSize := devSize - kSuperblockSize
        nextTxnId := 1
        activeTxns := fun _ => none
        superblock := { magic := superBlockMagic }
        writeOffset := 0
        dev := { dev with superblock := { magic := superBlockMagic } } } := by
    simp [create, readSuperblock, h, writeSuperblock]
  rw [hj]
  exact {
    size := rfl
    magic := rfl
    dev := rfl
    head := rfl
    next := rfl
    active := fun _ => rfl
    serialized := by simp
    ring := ⟨[], holds_nil _ (by simp) (dvd_zero _), rfl⟩ }

/-- Recovery from a device that carries the ledger returns its log. -/
theorem Replays.recover {j : Journal} {l : Ledger} (h : Replays j l) :
    (create j.dev j.devSize).recover = some l.log := by
  obtain ⟨gs, hgs, hlog⟩ := h.ring
  -- What recovery works on: the journal as it is, without its open transactions.
  obtain ⟨j', hj', hgs'⟩ : ∃ j', (create j.dev j.devSize).readSuperblock = j' ∧
      Holds j'.dev.data j'.dataSize j'.superblock.checkpointOffset j'.writeOffset gs := by
    refine ⟨{ j with nextTxnId := 1, activeTxns := fun _ => none }, ?_, hgs⟩
    simp [create, readSuperblock, h.magic, h.dev, h.head, h.size]
  obtain ⟨st', hscan, hres⟩ := scans_segments hgs'.valid [] (dvd_zero _) {}
  have hdist := hgs'.distance
  unfold Journal.recover
  rw [hj']
  simp only
  split
  · -- Start and write head agree, so there are no segments.
    rename_i hempty
    have hnil : (gs.flatMap Segment.bytes).length = 0 := by
      rw [← hdist]
      simp [hempty.1]
    rw [← hlog, flatMap_bytes_eq_nil hgs'.valid hnil]
    rfl
  · rw [List.nil_append] at hscan
    rw [hdist, hgs'.readRange_eq, hscan _ le_rfl, Option.map_some, hres, ← hlog]
    rfl

/-- `commit_txn` of an open transaction. -/
theorem Replays.commitTxn {j j' : Journal} {l : Ledger} {id : UInt64} (h : Replays j l)
    (hok : JournalOk j (.commitTxn id)) (hs : j.commitTxn id = (.ok, j')) :
    Replays j' (l.step (.commitTxn id)) := by
  obtain ⟨tb, htb, j1, hw, rfl⟩ := commitTxn_eq hs
  obtain ⟨gs, hgs, hlog⟩ := h.ring
  simp only [JournalOk, htb, Journal.getUsedBytes, hgs.distance, h.serialized id tb htb] at hok
  obtain ⟨hrs, hfits⟩ := hok
  rw [h.serialized id tb htb] at hw
  set j0 : Journal := { j with activeTxns := Function.update j.activeTxns id none }
  have hw0 : j0.padAndWrite (entryBytes false id tb.records) = (true, j1) := hw
  have hgs0 : Holds j0.dev.data j0.dataSize j.superblock.checkpointOffset j0.writeOffset gs := hgs
  have hfits0 : j0.Fits (gs.flatMap Segment.bytes).length (entryBytes false id tb.records).length :=
    ⟨hfits.small, hfits.room, hfits.blocks, hfits.blank⟩
  obtain ⟨gs', hgs', hrec, -⟩ := hgs0.write hfits0 hrs hw0
  obtain ⟨hdev, hsize, hnext, hactive, hsuper⟩ := padAndWrite_frame hw0
  exact {
    size := hsize.trans (h.size.trans (by rw [show j1.afterCommit.devSize = j.devSize from hdev]))
    magic := (congrArg JournalSuperBlock.magic hsuper).trans h.magic
    dev := rfl
    head := rfl
    next := h.next.trans hnext.symm
    active := fun x => by
      change Function.update l.active id none x = (j1.activeTxns x).map _
      rw [hactive]
      by_cases hx : x = id
      · subst hx; simp [j0]
      · simp [j0, hx, h.active]
    serialized := fun x tb' htb' => by
      change j1.activeTxns x = some tb' at htb'
      rw [hactive] at htb'
      by_cases hx : x = id
      · subst hx; simp [j0] at htb'
      · exact h.serialized x tb' (by simpa [j0, hx] using htb')
    ring := by
      refine ⟨gs', ?_, ?_⟩
      · change Holds j1.dev.data j1.dataSize j1.superblock.checkpointOffset j1.writeOffset gs'
        rw [hsize, hsuper]
        exact hgs'
      · change _ = l.log ++ (l.active id).getD []
        rw [hrec, hlog, h.active, htb]
        rfl }

/-- `checkpoint`. -/
theorem Replays.checkpoint {j j' : Journal} {l : Ledger} {fullState : List JournalRecord}
    (h : Replays j l) (hok : JournalOk j (.checkpoint fullState))
    (hs : j.checkpoint fullState = (.ok, j')) : Replays j' (l.step (.checkpoint fullState)) := by
  obtain ⟨j1, hw, rfl⟩ := checkpoint_eq hs
  obtain ⟨gs, hgs, -⟩ := h.ring
  obtain ⟨hrs, hfits⟩ := hok
  have hw1 : j.padAndWrite (entryBytes true 0 fullState) = (true, j1) := hw
  have hfits1 : j.Fits (([] : List Segment).flatMap Segment.bytes).length
      (entryBytes true 0 fullState).length := hfits
  have hnil := holds_nil j.dev.data hgs.head_lt hgs.aligned
  obtain ⟨gs', hgs', hrec, -⟩ := hnil.write hfits1 hrs hw1
  obtain ⟨hdev, hsize, hnext, hactive, hsuper⟩ := padAndWrite_frame hw1
  exact {
    size := hsize.trans (h.size.trans (by
      rw [show (afterCheckpoint j.writeOffset j1).devSize = j.devSize from hdev]))
    magic := (congrArg JournalSuperBlock.magic hsuper).trans h.magic
    dev := rfl
    head := rfl
    next := h.next.trans hnext.symm
    active := fun x => by
      change l.active x = (j1.activeTxns x).map _
      rw [hactive, h.active]
    serialized := fun x tb' htb' => h.serialized x tb' (hactive ▸ htb')
    ring := by
      refine ⟨gs', ?_, hrec⟩
      change Holds j1.dev.data j1.dataSize j.writeOffset j1.writeOffset gs'
      rw [hsize]
      exact hgs' }

/-- A call that returned is one that returned 0. -/
theorem returned_eq {r : Status × Journal} {j : Journal} (h : returned r = some j) :
    r = (.ok, j) := by
  obtain ⟨st, j'⟩ := r
  cases st <;> simp_all [returned]

/-- Every call that meets the condition keeps the ledger. -/
theorem replays_step {j j' : Journal} {l : Ledger} {c : Call} (h : Replays j l)
    (hok : JournalOk j c) (hs : j.step c = some j') : Replays j' (l.step c) := by
  -- One case for each call.
  cases c with
  | beginTxn =>
    simp only [Journal.step, Option.some.injEq] at hs
    subst hs
    exact {
      __ := h
      next := by simp [Ledger.step, Journal.beginTxn, h.next]
      active := fun x => by
        by_cases hx : x = j.nextTxnId
        · subst hx
          cases hb : j.activeTxns j.nextTxnId <;>
            simp [Ledger.step, Journal.beginTxn, h.next, h.active, hb]
        · simp [Ledger.step, Journal.beginTxn, h.next, hx, h.active]
      serialized := fun x tb htb => by
        by_cases hx : x = j.nextTxnId
        · subst hx
          simp only [Journal.beginTxn, Function.update_self, Option.some.injEq] at htb
          cases hb : j.activeTxns j.nextTxnId with
          | none =>
            rw [hb] at htb
            rw [← htb]
            rfl
          | some tb' =>
            rw [hb] at htb
            exact h.serialized _ tb (by rw [hb, ← htb]; rfl)
        · simp only [Journal.beginTxn, Function.update_of_ne hx] at htb
          exact h.serialized x tb htb }
  | append id r =>
    have hs' := returned_eq hs
    unfold Journal.append at hs'
    split at hs'
    · simp at hs'
    rename_i tb htb
    obtain rfl := (Prod.mk.inj hs').2
    exact {
      __ := h
      active := fun x => by
        by_cases hx : x = id
        · subst hx
          simp [Ledger.step, h.active, htb]
        · simp [Ledger.step, hx, h.active]
      serialized := fun x tb' htb' => by
        by_cases hx : x = id
        · subst hx
          simp only [Function.update_self, Option.some.injEq] at htb'
          rw [← htb']
          simp [serializeRecords, h.serialized x tb htb]
        · simp only [Function.update_of_ne hx] at htb'
          exact h.serialized x tb' htb' }
  | commitTxn id => exact h.commitTxn hok (returned_eq hs)
  | checkpoint fullState => exact h.checkpoint hok (returned_eq hs)

/-- After calls that all return 0 and meet the condition, on a device without a journal and with
any bytes, recovery from the device returns the records of the last checkpoint followed by those
of the transactions committed after it, in commit order and nothing else. -/
theorem journal_replay_exact (dev : Device) (devSize : ℕ) (calls : List Call) (j : Journal)
    (hdev : dev.superblock.magic ≠ superBlockMagic)
    (hm : Runs.Meets Journal.step JournalOk (create dev devSize) calls)
    (hs : Runs.exec Journal.step (create dev devSize) calls = some j) :
    (create j.dev j.devSize).recover = some (Ledger.after calls).log :=
  (Runs.exec_simulates Ledger.step (fun _ _ _ _ h hok hs => replays_step h hok hs) calls _ _ j
    (replays_create hdev) hm hs).recover

/-- A device of the given number of blocks without a journal. -/
def blankDevice (blocks : ℕ) : Device := ⟨{}, fun _ => 0, blocks * 4096⟩

/-- A transaction that frees one extent. -/
def freeExtent (id e : UInt64) : List Call :=
  [.beginTxn, .append id { op := .extentFree, extentId := e }, .commitTxn id]

/-- Two transactions, a checkpoint, and two transactions of which the second is at the start of a
ring of four blocks. -/
def aroundTheEnd : List Call :=
  freeExtent 1 10 ++ freeExtent 2 20 ++ [.checkpoint [{ op := .extentFree, extentId := 30 }]] ++
    freeExtent 3 40 ++ freeExtent 4 50

/-- The condition is met by a run with a checkpoint that goes around the end of the ring. -/
theorem journal_replay_exact_aroundTheEnd :
    ∃ j, Runs.exec Journal.step (create (blankDevice 4) 20480) aroundTheEnd = some j ∧
      (create j.dev j.devSize).recover = some
        [{ op := .extentFree, extentId := 30 }, { op := .extentFree, txnId := 3, extentId := 40 },
          { op := .extentFree, txnId := 4, extentId := 50 }] := by
  have hrun : (Runs.exec Journal.step (create (blankDevice 4) 20480) aroundTheEnd).isSome := by
    decide +kernel
  obtain ⟨j, hj⟩ := Option.isSome_iff_exists.mp hrun
  have hlog := journal_replay_exact (blankDevice 4) 20480 aroundTheEnd j (by decide)
    (by decide +kernel) hj
  exact ⟨j, hj, hlog.trans (by decide +kernel)⟩

/-- The bytes between the last checkpoint and the write head stay within the data area. -/
def WithinArea (j : Journal) : Call → Prop
  | .commitTxn id =>
    match j.activeTxns id with
    | some tb =>
      let n := padded (txnBytes id tb.serialized).length
      j.getUsedBytes + j.skipped n + n ≤ j.dataSize
    | none => True
  | .checkpoint fullState =>
    let n := padded (checkpointBytes (serializeRecords fullState)).length
    j.skipped n + n ≤ j.dataSize
  | _ => True

instance (j : Journal) (c : Call) : Decidable (WithinArea j c) := by
  unfold WithinArea
  split
  · split <;> infer_instance
  · infer_instance
  · infer_instance

/-- One transaction fills a ring of one block. The write head comes back to the checkpoint offset,
so recovery takes the ring for empty and returns nothing. -/
theorem fullRing_not_replayed :
    ∃ j, Runs.Meets Journal.step WithinArea (create (blankDevice 1) 8192) (freeExtent 1 10) ∧
      Runs.exec Journal.step (create (blankDevice 1) 8192) (freeExtent 1 10) = some j ∧
      (create j.dev j.devSize).recover ≠ some (Ledger.after (freeExtent 1 10)).log := by
  have hrun : (Runs.exec Journal.step (create (blankDevice 1) 8192) (freeExtent 1 10)).isSome := by
    decide +kernel
  obtain ⟨j, hj⟩ := Option.isSome_iff_exists.mp hrun
  have hrec : (Runs.exec Journal.step (create (blankDevice 1) 8192) (freeExtent 1 10)).map
      (fun j => decide ((create j.dev j.devSize).recover =
        some (Ledger.after (freeExtent 1 10)).log)) = some false := by
    decide +kernel
  rw [hj] at hrec
  exact ⟨j, by decide +kernel, hj, by simpa using hrec⟩

end CxxLab.Btier
