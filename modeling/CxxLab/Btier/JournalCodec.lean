import CxxLab.Btier.JournalReplay

/-!
# The records of consecutive transactions

The parse loop of `recover` has no lengths to go by: it takes one record after the other, and goes to
the next block where it finds a zero byte. `taken` is the loop with the places where it takes a
record; `codec_exact_iff` is for any number of transactions, with any records, one behind the other.
The loop takes exactly what was written, where it was written, unless a mark of the framing is among
the records. The length and the offsets of the buffer have 32 bits, and so has the length of a key:
the transactions together are to be less than 4 GiB (`FitsBufferlist`).
-/

namespace CxxLab.Btier

open Codec

/-! ## Records -/

/-- A record of values of the enumerations. -/
structure JournalRecord.Enumerated (r : JournalRecord) : Prop where
  /-- The operation is one of the eight. -/
  op : ∀ c, r.op ≠ .unknown c
  /-- The tier is one of the two. -/
  tier : r.extentLoc.tier = .fast ∨ r.extentLoc.tier = .slow

/-- A stored record is stored as it is. -/
theorem stored_stored (r : JournalRecord) : r.stored.stored = r.stored := by
  obtain ⟨op, txnId, key, keyLoc, extentId, extentLoc, deadLength, crc⟩ := r
  cases op <;> rfl

/-- What is stored of a record of values of the enumerations is one. -/
theorem JournalRecord.Enumerated.stored {r : JournalRecord} (h : r.Enumerated) :
    r.stored.Enumerated := by
  refine ⟨fun c => by rw [stored_op]; exact h.op c, ?_⟩
  have htier := h.tier
  unfold JournalRecord.stored
  split
  all_goals first | exact htier | exact .inl rfl

/-- The operations with which a transaction is framed. -/
def JournalOp.isMark : JournalOp → Bool
  | .txnBegin | .txnCommit | .checkpoint => true
  | _ => false

/-- A record that the journal can carry beside its frame: no mark, and the key that it has, if its
operation has one, is shorter than 4 GiB. -/
def JournalRecord.Carried (r : JournalRecord) : Prop :=
  r.op.isMark = false ∧ r.stored.key.length < 2 ^ 32

instance (r : JournalRecord) : Decidable r.Carried := inferInstanceAs (Decidable (_ ∧ _))

/-- What a record carries can be stored. -/
theorem JournalRecord.Carried.storable {r : JournalRecord} (h : r.Carried) (he : r.Enumerated) :
    r.stored.Storable := by
  obtain ⟨hmark, hkey⟩ := h
  refine ⟨?_, hkey, he.stored.tier⟩
  rw [stored_op]
  have hop := he.op
  revert hmark hop
  cases r.op <;> simp [JournalOp.isMark, JournalOp.isData]

namespace Journal

/-! ## What the loop takes -/

/-- The loop of `recover` that parses records: those that it takes, with the offsets in the buffer
where it takes them. -/
def taken (full : List UInt8) : ℕ → List UInt8 → Option (List (ℕ × JournalRecord))
  | 0, _ => some []
  | fuel + 1, p =>
    if p.length < 9 then some []
    else
      match deserializeRecord p with
      | none => none
      | some (r, rest) =>
        if r.op.code = 0 then
          let next := ((full.length - p.length) / kTxnAlignment + 1) * kTxnAlignment
          if next ≥ full.length then some [] else taken full fuel (full.drop next)
        else (taken full fuel rest).map ((full.length - p.length, r) :: ·)

/-- The scan feeds the records that are taken, one after the other. -/
theorem scan_eq_foldl (full : List UInt8) (fuel : ℕ) (p : List UInt8) (st : Scan) :
    scan full fuel p st = (taken full fuel p).map fun l => l.foldl (fun st x => st.feed x.2) st := by
  induction fuel generalizing p st with
  | zero => rfl
  | succ fuel ih =>
    unfold scan taken
    split_ifs with hshort
    · rfl
    · cases deserializeRecord p with
      | none => rfl
      | some x =>
        obtain ⟨r, rest⟩ := x
        dsimp only
        split_ifs with hzero hend
        · rfl
        · exact ih _ _
        · rw [ih, Option.map_map]
          rfl

/-- From `p` on the loop takes the given records, with as much fuel as there are bytes. -/
def Takes (full p : List UInt8) (l : List (ℕ × JournalRecord)) : Prop :=
  ∀ fuel, p.length ≤ fuel → taken full fuel p = some l

/-- Fewer bytes than a header hold no record. -/
theorem takes_done {full p : List UInt8} (h : p.length < 9) : Takes full p [] := by
  intro fuel _
  cases fuel with
  | zero => rfl
  | succ fuel => rw [taken, if_pos h]

/-- Where too few bytes are left, nothing is taken. -/
theorem Takes.eq_nil {full p : List UInt8} {l : List (ℕ × JournalRecord)} (h : Takes full p l)
    (hp : p.length < 9) : l = [] := by
  have h1 := h p.length le_rfl
  rw [takes_done hp p.length le_rfl] at h1
  exact (Option.some.inj h1).symm

/-- A record that is not padding is taken. -/
theorem Takes.record {full rest : List UInt8} {r : JournalRecord} {l : List (ℕ × JournalRecord)}
    (hr : deserializeRecord (serializeRecord r ++ rest) = some (r.stored, rest))
    (hop : r.op.code ≠ 0) (h : Takes full rest l) :
    Takes full (serializeRecord r ++ rest)
      ((full.length - (serializeRecord r ++ rest).length, r.stored) :: l) := by
  intro fuel hfuel
  have hlen := nine_le_length_serializeRecord r
  rw [List.length_append] at hfuel
  obtain ⟨fuel, rfl⟩ : ∃ f, fuel = f + 1 := ⟨fuel - 1, by omega⟩
  rw [taken, if_neg (by rw [List.length_append]; omega), hr]
  simp only [stored_op, if_neg hop]
  rw [h fuel (by omega)]
  rfl

/-- Nothing is taken in a gap that starts with a zero byte and ends at a block boundary. -/
theorem Takes.skip {pre gap rest : List UInt8} {l : List (ℕ × JournalRecord)}
    (hgap : gap.head? = some 0) (hlen : gap.length ≤ kTxnAlignment)
    (hnext : kTxnAlignment ∣ pre.length + gap.length)
    (h : Takes (pre ++ (gap ++ rest)) rest l) :
    Takes (pre ++ (gap ++ rest)) (gap ++ rest) l := by
  obtain ⟨g, rfl⟩ : ∃ g, gap = 0 :: g := by
    cases gap with
    | nil => simp at hgap
    | cons b g => exact ⟨g, by simpa using hgap⟩
  obtain ⟨hpos, hdrop⟩ := next_of_gap rest (by simp) hlen hnext
  set full := pre ++ (0 :: g ++ rest) with hfull
  by_cases hshort : (0 :: g ++ rest).length < 9
  · have hrest : rest.length < 9 := by simp only [List.length_append] at hshort; omega
    rw [h.eq_nil hrest]
    exact takes_done hshort
  intro fuel hfuel
  obtain ⟨fuel, rfl⟩ : ∃ f, fuel = f + 1 := ⟨fuel - 1, by omega⟩
  obtain ⟨r, rest', hr, hcode⟩ := deserializeRecord_zero (q := g ++ rest) (by
    simp only [List.cons_append, List.length_cons] at hshort
    omega)
  rw [taken, if_neg hshort]
  simp only [List.cons_append] at hr ⊢
  rw [hr]
  simp only [hcode, if_true]
  rw [← List.cons_append, hpos, hdrop]
  split_ifs with hge
  · -- The gap is the end of the buffer.
    have hnil : rest = [] := by
      rw [← hdrop]
      exact List.drop_eq_nil_of_le hge
    rw [h.eq_nil (by simp [hnil])]
  · exact h fuel (by simp only [List.length_append, List.length_cons] at hfuel; omega)

/-! ## Transactions -/

/-- Records that follow each other from `off` on, as the loop takes them. -/
def placed : ℕ → List JournalRecord → List (ℕ × JournalRecord)
  | _, [] => []
  | off, r :: rs => (off, r.stored) :: placed (off + (serializeRecord r).length) rs

/-- A transaction or a checkpoint with its records. -/
structure FramedTxn where
  /-- It is a checkpoint. -/
  isCheckpoint : Bool
  /-- Its number; that of a checkpoint is 0. -/
  id : UInt64
  /-- Its records. -/
  records : List JournalRecord
  /-- They are of values of the enumerations. -/
  enumerated : ∀ r ∈ records, r.Enumerated

namespace FramedTxn

/-- BEGIN, the mark of a checkpoint, the records, and COMMIT. -/
def framed (t : FramedTxn) : List JournalRecord :=
  let id := if t.isCheckpoint then 0 else t.id
  let mark : List JournalRecord := if t.isCheckpoint then [{ op := .checkpoint }] else []
  { op := .txnBegin, txnId := id } :: mark ++ t.records ++
    [{ op := .txnCommit, txnId := id, crc := recordsCrc (serializeRecords t.records) }]

/-- What `commit_txn` or `checkpoint` writes. -/
def bytes (t : FramedTxn) : List UInt8 := pad (entryBytes t.isCheckpoint t.id t.records)

/-- What was put into it. -/
def stored (t : FramedTxn) : List JournalRecord := t.records.map JournalRecord.stored

/-- The frames of transactions that follow each other from `off` on. -/
def layout : ℕ → List FramedTxn → List (ℕ × JournalRecord)
  | _, [] => []
  | off, t :: ts => placed off t.framed ++ layout (off + t.bytes.length) ts

/-- The buffer that `recover` reads. -/
def buffer (ts : List FramedTxn) : List UInt8 := ts.flatMap bytes

/-- The loop takes the frames where they are, and returns the records of the transactions. -/
structure ParsedBack (ts : List FramedTxn) : Prop where
  /-- No other place is taken for a record, and none is missed. -/
  boundaries : taken (buffer ts) (buffer ts).length (buffer ts) = some (layout 0 ts)
  /-- The records are returned. -/
  records : (scan (buffer ts) (buffer ts).length (buffer ts) {}).map Scan.result =
    some (ts.flatMap stored)

/-- The bytes of an entry are those of its records with their framing. -/
theorem entryBytes_eq (t : FramedTxn) :
    entryBytes t.isCheckpoint t.id t.records = serializeRecords t.framed := by
  unfold entryBytes framed checkpointBytes txnBytes Journal.frame serializeRecords
  cases t.isCheckpoint <;> simp

/-- A record that is read back, whatever follows it. -/
structure Readable (r : JournalRecord) : Prop where
  /-- It is not padding. -/
  code : r.op.code ≠ 0
  /-- It is read back. -/
  read : ∀ rest, deserializeRecord (serializeRecord r ++ rest) = some (r.stored, rest)

/-- A record that the journal can carry is read back. -/
theorem readable_of_carried {r : JournalRecord} (he : r.Enumerated) (h : r.Carried) :
    Readable r := by
  obtain ⟨hdata, hkey, htier⟩ := h.storable he
  rw [stored_op] at hdata
  constructor
  · revert hdata
    cases r.op <;> simp [JournalOp.isData, JournalOp.code]
  · intro rest
    have hread := deserializeRecord_serialize he.stored.op hkey htier rest
    rwa [serializeRecord_stored, stored_stored] at hread

/-- All records of a frame are read back. -/
theorem readable_framed {t : FramedTxn} (h : ∀ r ∈ t.records, r.Carried) :
    ∀ r ∈ t.framed, Readable r := by
  have hmark : ∀ r : JournalRecord, r.op.isMark = true → r.key = [] → r.extentLoc = {} →
      Readable r := by
    intro r hop hkey hloc
    have hknown : ∀ c, r.op ≠ .unknown c := by
      intro c hc
      simp [hc, JournalOp.isMark] at hop
    refine ⟨?_, deserializeRecord_serialize hknown (by simp [hkey]) (.inl (by rw [hloc]))⟩
    revert hop
    cases r.op <;> simp [JournalOp.isMark, JournalOp.code]
  intro r hr
  unfold framed at hr
  simp only [List.cons_append, List.mem_cons, List.mem_append, List.not_mem_nil, or_false] at hr
  rcases hr with rfl | (hr | hr) | rfl
  · exact hmark _ rfl rfl rfl
  · split_ifs at hr with hc
    · obtain rfl := List.mem_singleton.mp hr
      exact hmark _ rfl rfl rfl
    · exact absurd hr List.not_mem_nil
  · exact readable_of_carried (t.enumerated r hr) (h r hr)
  · exact hmark _ rfl rfl rfl

/-- Readable records are taken where they lie. -/
theorem takes_records {full rest : List UInt8} {rs : List JournalRecord}
    {l : List (ℕ × JournalRecord)} (hrs : ∀ r ∈ rs, Readable r) {off : ℕ}
    (hoff : full.length = off + (serializeRecords rs ++ rest).length) (h : Takes full rest l) :
    Takes full (serializeRecords rs ++ rest) (placed off rs ++ l) := by
  induction rs generalizing off with
  | nil => exact h
  | cons r rs ih =>
    have hr := hrs r List.mem_cons_self
    have hcons : serializeRecords (r :: rs) ++ rest =
        serializeRecord r ++ (serializeRecords rs ++ rest) := by
      unfold serializeRecords
      rw [List.flatMap_cons, List.append_assoc]
    rw [hcons] at hoff ⊢
    have hoff' : full.length =
        off + (serializeRecord r).length + (serializeRecords rs ++ rest).length := by
      rw [hoff, List.length_append, Nat.add_assoc]
    have hstep := Takes.record (hr.read _) hr.code
      (ih (fun x hx => hrs x (List.mem_cons_of_mem _ hx)) hoff')
    rw [hoff, Nat.add_sub_cancel] at hstep
    exact hstep

/-- A transaction is taken, and its padding is not. -/
theorem takes_txn {pre rest : List UInt8} {t : FramedTxn} {l : List (ℕ × JournalRecord)}
    (ht : ∀ r ∈ t.records, r.Carried) (hpre : kTxnAlignment ∣ pre.length)
    (h : Takes (pre ++ (t.bytes ++ rest)) rest l) :
    Takes (pre ++ (t.bytes ++ rest)) (t.bytes ++ rest) (placed pre.length t.framed ++ l) := by
  obtain ⟨hdvd, hle, hlt, -⟩ := padded_spec (length_entryBytes_pos t.isCheckpoint t.id t.records)
  have hframe := t.entryBytes_eq
  set e := entryBytes t.isCheckpoint t.id t.records with he
  set k := padded e.length - e.length with hk
  have hbytes : t.bytes = e ++ List.replicate k 0 := rfl
  have hzeros : Takes (pre ++ (t.bytes ++ rest)) (List.replicate k 0 ++ rest) l := by
    rcases Nat.eq_zero_or_pos k with h0 | hpos
    · simpa [h0] using h
    · -- The zeros behind the frame end at a block boundary.
      have hfull : pre ++ (t.bytes ++ rest) = (pre ++ e) ++ (List.replicate k 0 ++ rest) := by
        simp [hbytes]
      rw [hfull] at h ⊢
      refine Takes.skip ?_ ?_ ?_ h
      · obtain ⟨m, hm⟩ : ∃ m, k = m + 1 := ⟨k - 1, by omega⟩
        simp [hm, List.replicate_succ]
      · simp only [List.length_replicate]
        omega
      · rw [List.length_append, List.length_replicate, Nat.add_assoc,
          show e.length + k = padded e.length by omega]
        exact hpre.add hdvd
  have hsplit : t.bytes ++ rest = serializeRecords t.framed ++ (List.replicate k 0 ++ rest) := by
    rw [hbytes, hframe, List.append_assoc]
  rw [hsplit] at hzeros ⊢
  exact takes_records (readable_framed ht) List.length_append hzeros

/-- Consecutive transactions are taken where they lie. -/
theorem takes_layout {ts : List FramedTxn} (hts : ∀ t ∈ ts, ∀ r ∈ t.records, r.Carried)
    (pre : List UInt8) (hpre : kTxnAlignment ∣ pre.length) :
    Takes (pre ++ buffer ts) (buffer ts) (layout pre.length ts) := by
  induction ts generalizing pre with
  | nil => exact takes_done (by simp [buffer])
  | cons t ts ih =>
    have hdvd : kTxnAlignment ∣ t.bytes.length := by
      have hpos := length_entryBytes_pos t.isCheckpoint t.id t.records
      unfold bytes
      rw [length_pad hpos]
      exact (padded_spec hpos).1
    have hrest := ih (fun t' ht' => hts t' (List.mem_cons_of_mem _ ht')) (pre ++ t.bytes)
      (by rw [List.length_append]; exact hpre.add hdvd)
    rw [List.append_assoc, List.length_append] at hrest
    exact takes_txn (hts t List.mem_cons_self) hpre hrest

/-- The records of consecutive transactions are returned. -/
theorem scan_buffer {ts : List FramedTxn} (hts : ∀ t ∈ ts, ∀ r ∈ t.records, r.Carried) :
    (scan (buffer ts) (buffer ts).length (buffer ts) {}).map Scan.result =
      some (ts.flatMap stored) := by
  have hbytes : ∀ t : FramedTxn,
      (Segment.entry t.isCheckpoint t.id t.stored).bytes = t.bytes := by
    intro t
    have hser : serializeRecords t.stored = serializeRecords t.records := by
      simp [serializeRecords, stored, List.flatMap_map]
    show pad (entryBytes t.isCheckpoint t.id t.stored) = _
    unfold bytes entryBytes
    rw [hser]
  have hrecords : ∀ t : FramedTxn,
      (Segment.entry t.isCheckpoint t.id t.stored).records = t.stored := by
    intro t
    show t.stored.map JournalRecord.stored = t.stored
    unfold stored
    rw [List.map_map]
    exact List.map_congr_left fun r _ => stored_stored r
  have hvalid : ∀ g ∈ ts.map fun t => Segment.entry t.isCheckpoint t.id t.stored, g.Valid := by
    intro g hg
    obtain ⟨t, ht, rfl⟩ := List.mem_map.mp hg
    intro r hr
    obtain ⟨r', hr', rfl⟩ := List.mem_map.mp hr
    exact (hts t ht r' hr').storable (t.enumerated r' hr')
  obtain ⟨st, hscan, hres⟩ := scans_segments hvalid [] (dvd_zero _) {}
  simp only [List.flatMap_map, hbytes, hrecords, List.nil_append] at hscan hres
  have hbuffer : (List.flatMap (fun t : FramedTxn => t.bytes) ts) = buffer ts := rfl
  rw [hbuffer] at hscan
  rw [hscan _ le_rfl, Option.map_some, hres]

/-! ## What is never returned -/

/-- What the loop holds has no marks. -/
def Clean (st : Scan) : Prop := ∀ r ∈ st.result ++ st.currentTxn, r.op.isMark = false

/-- A mark is not kept. -/
theorem clean_feed {st : Scan} (h : Clean st) (r : JournalRecord) : Clean (st.feed r) := by
  have hresult : ∀ x ∈ st.result, x.op.isMark = false := fun x hx => h x (List.mem_append_left _ hx)
  have hadd : r.op.isMark = false →
      Clean (if st.inTxn then { st with currentTxn := st.currentTxn ++ [r] } else st) := by
    intro hmark
    split_ifs
    · intro x hx
      rcases List.mem_append.mp hx with hx | hx
      · exact hresult x hx
      · rcases List.mem_append.mp hx with hx | hx
        · exact h x (List.mem_append_right _ hx)
        · obtain rfl := List.mem_singleton.mp hx
          exact hmark
    · exact h
  unfold Scan.feed
  cases hop : r.op with
  | txnBegin => exact fun x hx => hresult x (by simpa using hx)
  | checkpoint => exact h
  | txnCommit =>
    intro x hx
    dsimp only at hx
    rw [List.append_nil] at hx
    split_ifs at hx
    · exact h x hx
    · exact hresult x hx
  | keyPut => exact hadd (by rw [hop]; rfl)
  | keyDel => exact hadd (by rw [hop]; rfl)
  | markDead => exact hadd (by rw [hop]; rfl)
  | extentNew => exact hadd (by rw [hop]; rfl)
  | extentFree => exact hadd (by rw [hop]; rfl)
  | unknown c => exact hadd (by rw [hop]; rfl)

/-- A scan of clean bytes stays clean. -/
theorem clean_scan {full : List UInt8} {fuel : ℕ} {p : List UInt8} {st st' : Scan} (h : Clean st)
    (hs : scan full fuel p st = some st') : Clean st' := by
  induction fuel generalizing p st with
  | zero =>
    obtain rfl := Option.some.inj hs
    exact h
  | succ fuel ih =>
    unfold scan at hs
    split_ifs at hs with hshort
    · obtain rfl := Option.some.inj hs
      exact h
    · cases hr : deserializeRecord p with
      | none =>
        rw [hr] at hs
        cases hs
      | some x =>
        rw [hr] at hs
        dsimp only at hs
        split_ifs at hs with hzero hend
        · obtain rfl := Option.some.inj hs
          exact h
        · exact ih h hs
        · exact ih (clean_feed h _) hs

/-- The transactions fit one `bufferlist`, the keys in full: their lengths are 32-bit. -/
structure FitsBufferlist (ts : List FramedTxn) : Prop where
  /-- The bytes of all transactions. -/
  bytes : (buffer ts).length < 2 ^ 32
  /-- The keys that are stored. -/
  keys : ∀ t ∈ ts, ∀ r ∈ t.records, r.stored.key.length < 2 ^ 32

/-- Any number of consecutive transactions that fit one `bufferlist`, with any records, is parsed
back, record by record and at the places of the records, exactly where no record is a mark of the
framing. -/
theorem codec_exact_iff {ts : List FramedTxn} (hfits : FitsBufferlist ts) :
    ParsedBack ts ↔ ∀ t ∈ ts, ∀ r ∈ t.records, r.op.isMark = false := by
  refine ⟨fun h t ht r hr => ?_, fun h => ?_⟩
  · obtain ⟨st, hscan, hres⟩ := Option.map_eq_some_iff.mp h.records
    have hclean := clean_scan (show Clean {} from fun x hx => absurd hx List.not_mem_nil) hscan
    have hmem : r.stored ∈ st.result := by
      rw [hres]
      exact List.mem_flatMap.mpr ⟨t, ht, List.mem_map_of_mem hr⟩
    rw [← hclean r.stored (List.mem_append_left _ hmem), stored_op]
  · have hcarried : ∀ t ∈ ts, ∀ r ∈ t.records, r.Carried :=
      fun t ht r hr => ⟨h t ht r hr, hfits.keys t ht r hr⟩
    exact ⟨takes_layout hcarried [] (dvd_zero _) _ le_rfl, scan_buffer hcarried⟩

/-- A transaction that puts a key of two bytes. -/
def withPut : FramedTxn where
  isCheckpoint := false
  id := 1
  records := [{ op := .keyPut, txnId := 1, key := [0, 7], keyLoc := ⟨3, 0, 9⟩ }]
  enumerated := by simp [JournalRecord.Enumerated.mk]

/-- Two of them are parsed back. -/
theorem codec_exact_iff_withPut : ParsedBack [withPut, withPut] :=
  (codec_exact_iff ⟨by decide +kernel, by decide⟩).mpr (by decide)

/-- A transaction that frees an extent, and has a record of the operation CHECKPOINT: its checksum
is of both records, and the loop leaves out the second one. -/
def withMark : FramedTxn where
  isCheckpoint := false
  id := 1
  records := [{ op := .extentFree, txnId := 1, extentId := 7 }, { op := .checkpoint, txnId := 1 }]
  enumerated := by simp [JournalRecord.Enumerated.mk]

/-- A record that is a mark is not parsed back, however short the log is. -/
theorem withMark_not_parsedBack : FitsBufferlist [withMark] ∧ ¬ ParsedBack [withMark] := by
  refine ⟨⟨by decide +kernel, by decide⟩, fun h => ?_⟩
  obtain ⟨st, hscan, hres⟩ := Option.map_eq_some_iff.mp h.records
  have hclean := clean_scan (show Clean {} from fun x hx => absurd hx List.not_mem_nil) hscan
  have hmem : ({ op := .checkpoint, txnId := 1 } : JournalRecord) ∈ st.result := by
    rw [hres]
    decide
  exact absurd (hclean _ (List.mem_append_left _ hmem)) (by decide)

end FramedTxn

end Journal

end CxxLab.Btier
