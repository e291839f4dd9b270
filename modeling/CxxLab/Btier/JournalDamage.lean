import CxxLab.Btier.JournalCodec
import CxxLab.Lib.Readers

/-!
# Recovery of damaged data

`recover` reads records from unverified bytes. What it returns is checked: the records of a
transaction whose mark and checksum fit (`CompleteTxn`). But a record that begins in the range, with
nine bytes or more, and runs over its end makes `deserialize_record` throw, and everything that was
returned before is lost (`recover_safe_iff`). The range that is scanned has less than 4 GiB: the
offsets of its `bufferlist` have 32 bits.
-/

namespace CxxLab.Btier

open Codec

/-! ## One record -/

/-- How many bytes `deserialize_record` takes behind the operation and the transaction. -/
def fieldsLength (op : JournalOp) (p : List UInt8) : ℕ :=
  match op with
  | .keyPut => 4 + leNat (p.take 4) + 16
  | .keyDel => 4 + leNat (p.take 4)
  | .markDead => 12
  | .extentNew => 21
  | .extentFree => 8
  | .txnCommit => 4
  | _ => 0

/-- The record at the front of `p` ends within `p`. -/
def RecordFits (p : List UInt8) : Prop :=
  9 + fieldsLength (.ofCode (p.headD 0)) (p.drop 9) ≤ p.length

instance (p : List UInt8) : Decidable (RecordFits p) := inferInstanceAs (Decidable (_ ≤ _))

/-- Reading a string looks at its bytes only. -/
theorem local_getString : Local getString :=
  local_getU32.bind fun len => local_getBytes len.toNat

/-- Reading a key location looks at its bytes only. -/
theorem local_getKeyLocation : Local getKeyLocation :=
  local_getU64.bind fun extentId => local_getU32.bind fun offset => local_getU32.bind fun length =>
    local_pure (⟨extentId, offset, length⟩ : KeyLocation)

/-- Reading a disk location looks at its bytes only. -/
theorem local_getDiskLocation : Local getDiskLocation :=
  local_getU64.bind fun offset => local_getU32.bind fun length => local_getU8.bind fun tier =>
    local_pure (⟨offset, length, .ofCode tier⟩ : DiskLocation)

/-- Reading the fields of a record looks at its bytes only. -/
theorem local_deserializeFields (op : JournalOp) (txnId : UInt64) :
    Local (deserializeFields op txnId) := by
  cases op with
  | keyPut =>
    exact local_getString.bind fun key => local_getKeyLocation.bind fun keyLoc =>
      local_pure ({ op := .keyPut, txnId, key, keyLoc } : JournalRecord)
  | keyDel =>
    exact local_getString.bind fun key =>
      local_pure ({ op := .keyDel, txnId, key } : JournalRecord)
  | markDead =>
    exact local_getU64.bind fun extentId => local_getU32.bind fun deadLength =>
      local_pure ({ op := .markDead, txnId, extentId, deadLength } : JournalRecord)
  | extentNew =>
    exact local_getU64.bind fun extentId => local_getDiskLocation.bind fun extentLoc =>
      local_pure ({ op := .extentNew, txnId, extentId, extentLoc } : JournalRecord)
  | extentFree =>
    exact local_getU64.bind fun extentId =>
      local_pure ({ op := .extentFree, txnId, extentId } : JournalRecord)
  | txnCommit =>
    exact local_getU32.bind fun crc =>
      local_pure ({ op := .txnCommit, txnId, crc } : JournalRecord)
  | _ => exact local_pure _

/-- A record is read from its own bytes. -/
theorem local_deserializeRecord : Local deserializeRecord :=
  local_getU8.bind fun op => local_getU64.bind fun txnId =>
    local_deserializeFields (.ofCode op) txnId

/-- A key location takes 16 bytes. -/
theorem takesBytes_getKeyLocation : TakesBytes 16 getKeyLocation :=
  takesBytes_getU64.bind fun extentId => takesBytes_getU32.bind fun offset =>
    takesBytes_getU32.bind fun length => takesBytes_pure (⟨extentId, offset, length⟩ : KeyLocation)

/-- A disk location takes 13 bytes. -/
theorem takesBytes_getDiskLocation : TakesBytes 13 getDiskLocation :=
  takesBytes_getU64.bind fun offset => takesBytes_getU32.bind fun length =>
    takesBytes_getU8.bind fun tier => takesBytes_pure (⟨offset, length, .ofCode tier⟩ : DiskLocation)

/-- A string has the length that its first four bytes say. -/
theorem getString_eq (p : List UInt8) : getString p =
    if 4 + leNat (p.take 4) ≤ p.length then
      some ((p.drop 4).take (leNat (p.take 4)), p.drop (4 + leNat (p.take 4)))
    else none := by
  have hlen : (UInt32.ofNat (leNat (p.take 4))).toNat = leNat (p.take 4) := by
    rw [UInt32.toNat_ofNat']
    refine Nat.mod_eq_of_lt ((leNat_lt (p.take 4)).trans_le ?_)
    exact (Nat.pow_le_pow_right (by norm_num) (List.length_take_le 4 p)).trans (by norm_num)
  rcases lt_or_ge p.length 4 with hshort | hlong
  · have hnone := (takesBytes_getU32 p).2 hshort
    unfold getString
    rw [hnone, if_neg (by omega)]
    rfl
  · have hget : getU32 p = some (UInt32.ofNat (leNat (p.take 4)), p.drop 4) := by
      unfold getU32 getNat getBytes
      rw [if_pos hlong]
      rfl
    unfold getString
    rw [hget, Option.bind_eq_bind, Option.bind_some]
    simp only [getBytes, hlen, List.length_drop, List.drop_drop]
    split_ifs with h1 h2 h2
    · rfl
    · omega
    · omega
    · rfl

/-- The fields can be read when their bytes are there. -/
theorem exists_deserializeFields_iff (op : JournalOp) (txnId : UInt64) (p : List UInt8) :
    (∃ x, deserializeFields op txnId p = some x) ↔ fieldsLength op p ≤ p.length := by
  cases op with
  | keyPut =>
    have hrest : ∀ key, TakesBytes 16 fun p => (getKeyLocation p).bind fun x =>
        some (({ op := .keyPut, txnId, key, keyLoc := x.1 } : JournalRecord), x.2) := fun key =>
      takesBytes_getKeyLocation.bind fun keyLoc =>
        takesBytes_pure ({ op := .keyPut, txnId, key, keyLoc } : JournalRecord)
    have hread : deserializeFields .keyPut txnId p = (getString p).bind fun x =>
        (getKeyLocation x.2).bind fun y =>
          some (({ op := .keyPut, txnId, key := x.1, keyLoc := y.1 } : JournalRecord), y.2) := rfl
    rw [hread, getString_eq, fieldsLength]
    split_ifs with hstring
    · rw [Option.bind_some, (hrest _).exists_iff, List.length_drop]
      omega
    · exact iff_of_false (by simp) (by omega)
  | keyDel =>
    have hread : deserializeFields .keyDel txnId p = (getString p).bind fun x =>
        some (({ op := .keyDel, txnId, key := x.1 } : JournalRecord), x.2) := rfl
    rw [hread, getString_eq, fieldsLength]
    split_ifs with hstring
    · exact iff_of_true ⟨_, rfl⟩ hstring
    · exact iff_of_false (by simp) hstring
  | markDead =>
    exact (takesBytes_getU64.bind fun extentId => takesBytes_getU32.bind fun deadLength =>
      takesBytes_pure ({ op := .markDead, txnId, extentId, deadLength } : JournalRecord)).exists_iff p
  | extentNew =>
    exact (takesBytes_getU64.bind fun extentId => takesBytes_getDiskLocation.bind fun extentLoc =>
      takesBytes_pure ({ op := .extentNew, txnId, extentId, extentLoc } : JournalRecord)).exists_iff p
  | extentFree =>
    exact (takesBytes_getU64.bind fun extentId =>
      takesBytes_pure ({ op := .extentFree, txnId, extentId } : JournalRecord)).exists_iff p
  | txnCommit =>
    exact (takesBytes_getU32.bind fun crc =>
      takesBytes_pure ({ op := .txnCommit, txnId, crc } : JournalRecord)).exists_iff p
  | _ => exact iff_of_true ⟨_, rfl⟩ (Nat.zero_le _)

/-- A record can be read where it fits. -/
theorem exists_deserializeRecord_iff {p : List UInt8} (h : 9 ≤ p.length) :
    (∃ x, deserializeRecord p = some x) ↔ RecordFits p := by
  cases p with
  | nil => exact absurd h (by simp)
  | cons b q =>
    rw [List.length_cons] at h
    obtain ⟨id, hid⟩ := (takesBytes_getU64 q).1 (by omega)
    have hread : deserializeRecord (b :: q) = deserializeFields (.ofCode b) id (q.drop 8) := by
      show (getU64 q).bind (fun x => deserializeFields (.ofCode b) x.1 x.2) = _
      rw [hid]
      rfl
    rw [hread, exists_deserializeFields_iff, RecordFits]
    simp only [List.headD_cons, List.drop_succ_cons, List.length_drop, List.length_cons]
    omega

namespace Journal

/-! ## The positions of the scan -/

/-- Where the next block begins, seen from `p`. -/
def nextBlock (full p : List UInt8) : ℕ :=
  ((full.length - p.length) / kTxnAlignment + 1) * kTxnAlignment

/-- The scan of `full` gets to `p`, when it has taken the records `rs`. -/
inductive Reaches (full : List UInt8) : List UInt8 → List JournalRecord → Prop
  | start : Reaches full full []
  | padding {p : List UInt8} {rs : List JournalRecord} (h : Reaches full p rs)
      (hlen : 9 ≤ p.length) (hzero : p.head? = some 0) (hnext : nextBlock full p < full.length) :
      Reaches full (full.drop (nextBlock full p)) rs
  | record {p rest : List UInt8} {rs : List JournalRecord} {r : JournalRecord}
      (h : Reaches full p rs) (hlen : 9 ≤ p.length)
      (hr : deserializeRecord p = some (r, rest)) (hop : r.op.code ≠ 0) :
      Reaches full rest (rs ++ [r])

/-- An operation has the byte that it was read from. -/
theorem code_ofCode (c : UInt8) : (JournalOp.ofCode c).code = c := by
  unfold JournalOp.ofCode
  split <;> simp_all [JournalOp.code, ← UInt8.toNat_inj]

/-- The record has the operation that was read. -/
theorem op_deserializeFields {op : JournalOp} {txnId : UInt64} {p rest : List UInt8}
    {r : JournalRecord} (h : deserializeFields op txnId p = some (r, rest)) : r.op = op := by
  cases op <;>
    simp only [deserializeFields, Option.bind_eq_bind, Option.bind_eq_some_iff, Option.some.injEq,
      Prod.mk.injEq, Prod.exists] at h
  case keyPut | markDead | extentNew =>
    obtain ⟨_, _, -, _, _, -, rfl, -⟩ := h
    rfl
  case keyDel | extentFree | txnCommit =>
    obtain ⟨_, _, -, rfl, -⟩ := h
    rfl
  all_goals
    obtain ⟨rfl, -⟩ := h
    rfl

/-- The first byte is the operation. -/
theorem head?_of_deserializeRecord {p rest : List UInt8} {r : JournalRecord}
    (h : deserializeRecord p = some (r, rest)) : p.head? = some r.op.code := by
  cases p with
  | nil => cases h
  | cons b q =>
    obtain ⟨⟨id, p2⟩, -, hfields⟩ := Option.bind_eq_some_iff.mp
      (show (getU64 q).bind (fun x => deserializeFields (.ofCode b) x.1 x.2) = some (r, rest) from h)
    rw [op_deserializeFields hfields, code_ofCode]
    rfl

/-- A record takes nine bytes at least. -/
theorem length_rest_of_deserializeRecord {p rest : List UInt8} {r : JournalRecord}
    (h : deserializeRecord p = some (r, rest)) : rest.length + 9 ≤ p.length := by
  cases p with
  | nil => cases h
  | cons b q =>
    obtain ⟨⟨id, p2⟩, hid, hfields⟩ := Option.bind_eq_some_iff.mp
      (show (getU64 q).bind (fun x => deserializeFields (.ofCode b) x.1 x.2) = some (r, rest) from h)
    obtain ⟨c, rfl, -⟩ := local_deserializeFields _ _ p2 r rest hfields
    have h8 := (takesBytes_getU64.exists_iff q).mp ⟨_, hid⟩
    obtain ⟨v, hv⟩ := (takesBytes_getU64 q).1 h8
    have hp2 : c ++ rest = q.drop 8 := (Prod.mk.inj (Option.some.inj (hid.symm.trans hv))).2
    have hlen := congrArg List.length hp2
    rw [List.length_append, List.length_drop] at hlen
    rw [List.length_cons]
    omega

/-- The next block is nearer to the end. -/
theorem length_drop_nextBlock {full p : List UInt8} (hp : p.length ≤ full.length)
    (hpos : 0 < p.length) : (full.drop (nextBlock full p)).length < p.length := by
  rw [List.length_drop]
  unfold nextBlock kTxnAlignment
  omega

/-! ## The scan ends -/

/-- What the loop takes from `p` on. -/
def takenFrom (full p : List UInt8) : Option (List (ℕ × JournalRecord)) := taken full p.length p

/-- More rounds than there are bytes make no difference. -/
theorem taken_eq_of_le {full p : List UInt8} (n : ℕ) (hp : p.length ≤ full.length)
    (hn : p.length ≤ n) (fuel : ℕ) (hle : n ≤ fuel) : taken full fuel p = taken full n p := by
  induction n generalizing p fuel with
  | zero =>
    have hnil : p.length < 9 := by omega
    rw [takes_done hnil fuel (by omega), takes_done hnil 0 hn]
  | succ n ih =>
    obtain ⟨fuel, rfl⟩ : ∃ f, fuel = f + 1 := ⟨fuel - 1, by omega⟩
    unfold taken
    split_ifs with hshort
    · rfl
    · cases hr : deserializeRecord p with
      | none => rfl
      | some x =>
        obtain ⟨r, rest⟩ := x
        have hrest := length_rest_of_deserializeRecord hr
        have hnext := length_drop_nextBlock hp (by omega)
        dsimp only
        split_ifs with hzero hend
        · rfl
        · exact ih (p := full.drop (nextBlock full p)) (hnext.le.trans hp) (by omega) fuel (by omega)
        · rw [ih (p := rest) (by omega) (by omega) fuel (by omega)]

/-- One round. -/
theorem takenFrom_eq {full p : List UInt8} (hp : p.length ≤ full.length) (hlen : 9 ≤ p.length) :
    takenFrom full p =
      match deserializeRecord p with
      | none => none
      | some (r, rest) =>
        if r.op.code = 0 then
          if nextBlock full p ≥ full.length then some []
          else takenFrom full (full.drop (nextBlock full p))
        else (takenFrom full rest).map ((full.length - p.length, r) :: ·) := by
  obtain ⟨n, hn⟩ : ∃ n, p.length = n + 1 := ⟨p.length - 1, by omega⟩
  unfold takenFrom
  rw [hn, taken, if_neg (by omega)]
  cases hr : deserializeRecord p with
  | none => rfl
  | some x =>
    obtain ⟨r, rest⟩ := x
    have hrest := length_rest_of_deserializeRecord hr
    have hnext := length_drop_nextBlock hp (by omega)
    have hfuel : ∀ q : List UInt8, q.length < p.length →
        taken full n q = taken full q.length q := fun q hq =>
      taken_eq_of_le q.length (by omega) le_rfl n (by omega)
    dsimp only
    rw [hfuel rest (by omega), ← hn]
    change (if r.op.code = 0 then
      if nextBlock full p ≥ full.length then some [] else taken full n (full.drop (nextBlock full p))
      else _) = _
    rw [hfuel _ hnext]

/-- A position of the scan is a place in the range. -/
theorem Reaches.suffix {full p : List UInt8} {rs : List JournalRecord} (h : Reaches full p rs) :
    p.length ≤ full.length ∧ p = full.drop (full.length - p.length) := by
  induction h with
  | start => exact ⟨le_rfl, by rw [Nat.sub_self, List.drop_zero]⟩
  | @padding p rs _ _ _ hnext _ =>
    rw [List.length_drop]
    refine ⟨Nat.sub_le _ _, ?_⟩
    rw [Nat.sub_sub_self hnext.le]
  | @record p rest rs r _ _ hr _ ih =>
    obtain ⟨c, rfl, -⟩ := local_deserializeRecord p r rest hr
    obtain ⟨hle, heq⟩ := ih
    rw [List.length_append] at hle heq
    refine ⟨by omega, ?_⟩
    calc rest = (c ++ rest).drop c.length := (List.drop_left).symm
      _ = (full.drop (full.length - (c.length + rest.length))).drop c.length := by rw [← heq]
      _ = full.drop (full.length - rest.length) := by
          rw [List.drop_drop]
          exact congrArg (full.drop ·) (by omega)

/-- What is taken from the front is what was taken up to a position and from there on. -/
theorem Reaches.takenFrom {full p : List UInt8} {rs : List JournalRecord} (h : Reaches full p rs) :
    (takenFrom full full).map (List.map Prod.snd) =
      (Journal.takenFrom full p).map fun l => rs ++ l.map Prod.snd := by
  induction h with
  | start => simp
  | @padding p rs h hlen hzero hnext ih =>
    obtain ⟨q, rfl⟩ : ∃ q, p = 0 :: q := by
      cases p with
      | nil => cases hzero
      | cons b q => exact ⟨q, congrArg (· :: q) (Option.some.inj hzero)⟩
    obtain ⟨r, rest, hr, hcode⟩ := deserializeRecord_zero (q := q) (by simpa using hlen)
    rw [ih, takenFrom_eq h.suffix.1 hlen, hr]
    simp only [if_pos hcode, if_neg (not_le.mpr hnext)]
  | @record p rest rs r h hlen hr hop ih =>
    rw [ih, takenFrom_eq h.suffix.1 hlen, hr]
    simp only [if_neg hop, Option.map_map]
    refine congrArg (Option.map · _) (funext fun l => ?_)
    simp

/-- The loop ends at `p`: there are too few bytes, or the padding goes to the end. -/
def ScanEnds (full p : List UInt8) : Prop :=
  p.length < 9 ∨ p.head? = some 0 ∧ full.length ≤ nextBlock full p

/-- Where the records fit, the loop gets to its end, and takes what it meets on the way. -/
theorem exists_end {full p : List UInt8} {rs : List JournalRecord} (h : Reaches full p rs)
    (hfits : ∀ p rs, Reaches full p rs → 9 ≤ p.length → RecordFits p) :
    ∃ l q, takenFrom full p = some l ∧ Reaches full q (rs ++ l.map Prod.snd) ∧ ScanEnds full q := by
  induction hn : p.length using Nat.strong_induction_on generalizing p rs with
  | _ n ih =>
    rcases lt_or_ge p.length 9 with hshort | hlen
    · refine ⟨[], p, takes_done hshort _ le_rfl, ?_, .inl hshort⟩
      rwa [List.map_nil, List.append_nil]
    · obtain ⟨⟨r, rest⟩, hr⟩ := (exists_deserializeRecord_iff hlen).mpr (hfits p rs h hlen)
      have hhead := head?_of_deserializeRecord hr
      have hrest := length_rest_of_deserializeRecord hr
      have hnext := length_drop_nextBlock h.suffix.1 (by omega)
      rw [takenFrom_eq h.suffix.1 hlen, hr]
      by_cases hzero : r.op.code = 0
      · rw [hzero] at hhead
        by_cases hend : nextBlock full p ≥ full.length
        · refine ⟨[], p, ?_, ?_, .inr ⟨hhead, hend⟩⟩
          · simp only [if_pos hzero, if_pos hend]
          · rwa [List.map_nil, List.append_nil]
        · obtain ⟨l, q, hl, hq, hstop⟩ :=
            ih _ (hn ▸ hnext) (h.padding hlen hhead (not_le.mp hend)) rfl
          refine ⟨l, q, ?_, hq, hstop⟩
          simp only [if_pos hzero, if_neg hend]
          exact hl
      · obtain ⟨l, q, hl, hq, hstop⟩ := ih _ (by omega) (h.record hlen hr hzero) rfl
        refine ⟨(full.length - p.length, r) :: l, q, ?_, ?_, hstop⟩
        · simp only [if_neg hzero, hl, Option.map_some]
        · simpa using hq

/-- The loop throws exactly where a record that it gets to does not fit. -/
theorem takenFrom_ne_none_iff (full : List UInt8) :
    takenFrom full full ≠ none ↔ ∀ p rs, Reaches full p rs → 9 ≤ p.length → RecordFits p := by
  constructor
  · intro hne p rs h hlen
    refine (exists_deserializeRecord_iff hlen).mp ?_
    by_contra hnone
    have hread : deserializeRecord p = none := by
      rw [Option.eq_none_iff_forall_ne_some]
      exact fun x hx => hnone ⟨x, hx⟩
    have heq := h.takenFrom
    rw [takenFrom_eq h.suffix.1 hlen, hread] at heq
    exact hne (Option.map_eq_none_iff.mp heq)
  · intro hfits
    obtain ⟨l, -, hl, -⟩ := exists_end .start hfits
    rw [hl]
    exact Option.some_ne_none l

/-- Buffers that agree up to a place agree up to every place before it. -/
theorem take_eq_of_le {full full₀ : List UInt8} {a b : ℕ} (h : full.take b = full₀.take b)
    (hle : a ≤ b) : full.take a = full₀.take a := by
  have := congrArg (List.take a) h
  rwa [List.take_take, List.take_take, Nat.min_eq_left hle] at this

/-- Up to a position, the scan depends on the bytes before it only. -/
theorem Reaches.transfer {full full₀ p : List UInt8} {rs : List JournalRecord}
    (hlen : full₀.length = full.length) (h : Reaches full₀ p rs)
    (hsame : full.take (full₀.length - p.length) = full₀.take (full₀.length - p.length)) :
    Reaches full (full.drop (full₀.length - p.length)) rs := by
  -- By the steps of the scan.
  induction h with
  | start =>
    rw [Nat.sub_self, List.drop_zero]
    exact .start
  | @padding p rs h h9 hzero hnext ih =>
    obtain ⟨hle, heq⟩ := h.suffix
    have hback : full₀.length - (full₀.drop (nextBlock full₀ p)).length = nextBlock full₀ p := by
      rw [List.length_drop]
      omega
    have hbefore : full₀.length - p.length < nextBlock full₀ p := by
      unfold nextBlock kTxnAlignment
      omega
    rw [hback] at hsame ⊢
    have hprev := ih (take_eq_of_le hsame hbefore.le)
    generalize hm : full₀.length - p.length = m at hprev heq hbefore
    have hpl : (full.drop m).length = p.length := by
      rw [List.length_drop]
      omega
    have hnb : nextBlock full (full.drop m) = nextBlock full₀ p := by
      unfold nextBlock
      rw [hpl, hlen]
    have hhead : (full.drop m).head? = some 0 := by
      rw [List.head?_drop, ← List.getElem?_take_of_lt hbefore, hsame, List.getElem?_take_of_lt hbefore,
        ← List.head?_drop, ← heq]
      exact hzero
    have := hprev.padding (by rwa [hpl]) hhead (by rwa [hnb, ← hlen])
    rwa [hnb] at this
  | @record p rest rs r h h9 hr hop ih =>
    obtain ⟨hle, heq⟩ := h.suffix
    obtain ⟨c, rfl, hc⟩ := local_deserializeRecord p r rest hr
    rw [List.length_append] at hle heq h9 ih
    have hprev := ih (take_eq_of_le hsame (by omega))
    generalize hm : full₀.length - (c.length + rest.length) = m at hprev heq
    have hk : full₀.length - rest.length = m + c.length := by omega
    rw [hk] at hsame ⊢
    have hfront : (full.drop m).take c.length = c := by
      calc (full.drop m).take c.length = (full.take (m + c.length)).drop m := by
            rw [List.drop_take, Nat.add_sub_cancel_left]
        _ = (full₀.drop m).take c.length := by
            rw [hsame, List.drop_take, Nat.add_sub_cancel_left]
        _ = c := by rw [← heq, List.take_left]
    have hsplit : full.drop m = c ++ full.drop (m + c.length) := by
      rw [← List.drop_drop]
      nth_rewrite 1 [← List.take_append_drop c.length (full.drop m)]
      rw [hfront]
    rw [hsplit] at hprev
    refine hprev.record ?_ (hc _) hop
    rw [List.length_append, List.length_drop]
    omega

/-! ## What is returned -/

/-- A transaction whose marks have one id, and whose checksum fits. -/
structure CompleteTxn where
  /-- BEGIN. -/
  first : JournalRecord
  /-- What is between. -/
  body : List JournalRecord
  /-- COMMIT. -/
  last : JournalRecord
  first_op : first.op = .txnBegin
  last_op : last.op = .txnCommit
  body_op : ∀ r ∈ body, r.op ≠ .txnBegin ∧ r.op ≠ .txnCommit
  ids : last.txnId = first.txnId
  crc : recordsCrc (serializeRecords (body.filter fun r => r.op ≠ .checkpoint)) = last.crc

/-- A part of what the scan takes: records that are not returned, or a transaction. -/
inductive Piece where
  | gap (rs : List JournalRecord)
  | txn (t : CompleteTxn)

/-- The records of a piece. -/
def Piece.records : Piece → List JournalRecord
  | .gap rs => rs
  | .txn t => t.first :: t.body ++ [t.last]

/-- What is returned of it. -/
def Piece.returned : Piece → List JournalRecord
  | .gap _ => []
  | .txn t => t.body.filter fun r => r.op ≠ .checkpoint

/-- The result is that of the transactions that are complete by now; what follows the last of them
is held as far as it is the beginning of a transaction. -/
structure Explains (rs : List JournalRecord) (st : Scan) (pieces : List Piece)
    (rest : List JournalRecord) : Prop where
  records : rs = pieces.flatMap Piece.records ++ rest
  result : st.result = pieces.flatMap Piece.returned
  started : st.inTxn → ∃ first body, rest = first :: body ∧ first.op = .txnBegin ∧
    first.txnId = st.currentTxnId ∧ (∀ r ∈ body, r.op ≠ .txnBegin ∧ r.op ≠ .txnCommit) ∧
    st.currentTxn = body.filter fun r => r.op ≠ .checkpoint

namespace Explains

variable {rs rest : List JournalRecord} {st : Scan} {pieces : List Piece}

/-- A record of a transaction that has begun, and one outside of any. -/
theorem data (h : Explains rs st pieces rest) {r : JournalRecord} (hbegin : r.op ≠ .txnBegin)
    (hcommit : r.op ≠ .txnCommit) {held : List JournalRecord}
    (hheld : held = st.currentTxn ++ [r].filter fun r => r.op ≠ .checkpoint) :
    Explains (rs ++ [r]) { st with currentTxn := if st.inTxn then held else st.currentTxn } pieces
      (rest ++ [r]) where
  records := by rw [h.records, List.append_assoc]
  result := h.result
  started hin := by
    obtain ⟨first, body, rfl, hop, hid, hbody, hcur⟩ := h.started hin
    refine ⟨first, body ++ [r], rfl, hop, hid, fun x hx => ?_, ?_⟩
    · rcases List.mem_append.mp hx with hx | hx
      · exact hbody x hx
      · rw [List.mem_singleton.mp hx]
        exact ⟨hbegin, hcommit⟩
    · simp only [if_pos (show st.inTxn = true from hin)]
      rw [hheld, hcur, List.filter_append]

/-- A record that is fed to the scan is explained with those before it. -/
theorem feed (h : Explains rs st pieces rest) (r : JournalRecord) :
    ∃ pieces rest, Explains (rs ++ [r]) (st.feed r) pieces rest := by
  by_cases hbegin : r.op = .txnBegin
  · -- What was held before it is lost.
    refine ⟨pieces ++ [.gap rest], [r], ?_, ?_, fun _ => ?_⟩
    · rw [h.records, List.flatMap_append, List.flatMap_singleton]
      rfl
    · rw [List.flatMap_append, List.flatMap_singleton]
      simp [Scan.feed, hbegin, h.result, Piece.returned]
    · exact ⟨r, [], rfl, hbegin, by simp [Scan.feed, hbegin], by simp, by simp [Scan.feed, hbegin]⟩
  · by_cases hcommit : r.op = .txnCommit
    · by_cases hfits : st.inTxn ∧ r.txnId = st.currentTxnId ∧
          recordsCrc (serializeRecords st.currentTxn) = r.crc
      · obtain ⟨hin, hid, hcrc⟩ := hfits
        obtain ⟨first, body, hrest, hop, hfirst, hbody, hcur⟩ := h.started hin
        have hfeed : (st.feed r).result = st.result ++ st.currentTxn ∧ (st.feed r).inTxn = false := by
          simp [Scan.feed, hcommit, hin, hid, hcrc]
        rw [hcur] at hcrc
        refine ⟨pieces ++ [.txn ⟨first, body, r, hop, hcommit, hbody, hid.trans hfirst.symm, hcrc⟩],
          [], ?_, ?_, fun hin' => ?_⟩
        · rw [h.records, List.flatMap_append, List.flatMap_singleton, hrest, List.append_nil,
            List.append_assoc]
          rfl
        · rw [hfeed.1, List.flatMap_append, List.flatMap_singleton, h.result, hcur]
          rfl
        · rw [hfeed.2] at hin'
          cases hin'
      · have hfeed : (st.feed r).result = st.result ∧ (st.feed r).inTxn = false := by
          simp [Scan.feed, hcommit, hfits]
        refine ⟨pieces, rest ++ [r], by rw [h.records, List.append_assoc], hfeed.1.trans h.result,
          fun hin' => ?_⟩
        rw [hfeed.2] at hin'
        cases hin'
    · by_cases hmark : r.op = .checkpoint
      · have hfeed : st.feed r =
            { st with currentTxn := if st.inTxn then st.currentTxn else st.currentTxn } := by
          simp [Scan.feed, hmark]
        exact ⟨pieces, rest ++ [r], hfeed ▸ h.data hbegin hcommit (by simp [hmark])⟩
      · have hfeed : st.feed r =
            { st with currentTxn := if st.inTxn then st.currentTxn ++ [r] else st.currentTxn } := by
          obtain ⟨result, currentTxn, inTxn, id⟩ := st
          unfold Scan.feed
          cases inTxn <;> cases hop : r.op <;> simp_all
        exact ⟨pieces, rest ++ [r], hfeed ▸ h.data hbegin hcommit (by simp [hmark])⟩

/-- The scan of a list of records. -/
theorem foldl (rs : List JournalRecord) :
    ∃ pieces rest, Explains rs (rs.foldl Scan.feed {}) pieces rest := by
  induction rs using List.reverseRecOn with
  | nil => exact ⟨[], [], rfl, rfl, fun h => by cases h⟩
  | append_singleton rs r ih =>
    obtain ⟨pieces, rest, h⟩ := ih
    rw [List.foldl_append]
    exact h.feed r

end Explains

/-- Nothing that is returned is taken back. -/
theorem result_prefix (st : Scan) (rs : List JournalRecord) :
    st.result <+: (rs.foldl Scan.feed st).result := by
  induction rs generalizing st with
  | nil => exact List.prefix_refl _
  | cons r rs ih =>
    refine List.IsPrefix.trans ?_ (ih (st.feed r))
    unfold Scan.feed
    split
    · exact List.prefix_refl _
    · dsimp only
      split_ifs
      · exact List.prefix_append _ _
      · exact List.prefix_refl _
    · exact List.prefix_refl _
    · split_ifs <;> exact List.prefix_refl _

/-! ## Recovery -/

/-- The bytes of the range that `recover` scans. -/
def scanned (j : Journal) : List UInt8 :=
  let j := j.readSuperblock
  let start := j.superblock.checkpointOffset
  let stop := j.writeOffset
  let len := if stop ≥ start then stop - start else j.dataSize - start + stop
  j.readRange len len start

/-- `recover` feeds the records that are taken from the scanned bytes. -/
theorem recover_eq (j : Journal) : j.recover =
    (takenFrom j.scanned j.scanned).map fun l => ((l.map Prod.snd).foldl Scan.feed {}).result := by
  have hscan : (scan j.scanned j.scanned.length j.scanned {}).map Scan.result =
      (takenFrom j.scanned j.scanned).map
        fun l => ((l.map Prod.snd).foldl Scan.feed {}).result := by
    rw [scan_eq_foldl, Option.map_map]
    refine congrArg (Option.map · _) (funext fun l => ?_)
    rw [List.foldl_map]
    rfl
  unfold recover
  simp only
  by_cases hempty : j.readSuperblock.superblock.checkpointOffset = j.readSuperblock.writeOffset ∧
      (j.readSuperblock.writeOffset ≠ 0 ∨
        (j.readSuperblock.dev.read 0 kTxnAlignment).all (· = 0))
  · -- The range is empty.
    rw [if_pos hempty]
    have hnil : j.scanned = [] := by
      unfold scanned
      simp only [hempty.1, ge_iff_le, le_refl, if_true, Nat.sub_self]
      rfl
    rw [hnil]
    rfl
  · rw [if_neg hempty]
    exact hscan

/-- What recovery is to return of a range. -/
structure Safe (full : List UInt8) (result : List JournalRecord) : Prop where
  /-- The scan gets to the end, and returns the records of complete transactions on the way. -/
  complete : ∃ (p : List UInt8) (rs : List JournalRecord) (pieces : List Piece),
    Reaches full p rs ∧ ScanEnds full p ∧
    rs = pieces.flatMap Piece.records ∧ result = pieces.flatMap Piece.returned
  /-- What the scan returns up to a position of a range, it returns when the range is damaged behind
  it. -/
  keeps : ∀ full₀ p rs, full₀.length = full.length → Reaches full₀ p rs →
    full.take (full₀.length - p.length) = full₀.take (full₀.length - p.length) →
    (rs.foldl Scan.feed {}).result <+: result

/-- From a range of less than 4 GiB recovery returns, and what it is to return, exactly when every
record that the scan gets to, where nine bytes or more are left, ends within the range. -/
theorem recover_safe_iff (j : Journal) (_hsmall : j.scanned.length < 2 ^ 32) :
    (∃ result, j.recover = some result ∧ Safe j.scanned result) ↔
      ∀ p rs, Reaches j.scanned p rs → 9 ≤ p.length → RecordFits p := by
  rw [← takenFrom_ne_none_iff]
  constructor
  · rintro ⟨result, hrec, -⟩ hnone
    rw [recover_eq, hnone] at hrec
    cases hrec
  · intro hne
    have hfits := (takenFrom_ne_none_iff _).mp hne
    obtain ⟨l, q, hl, hq, hstop⟩ := exists_end .start hfits
    rw [List.nil_append] at hq
    refine ⟨_, by rw [recover_eq, hl, Option.map_some], ?_, ?_⟩
    · obtain ⟨pieces, rest, h⟩ := Explains.foldl (l.map Prod.snd)
      refine ⟨q, l.map Prod.snd, pieces ++ [.gap rest], hq, hstop, ?_, ?_⟩
      · rw [List.flatMap_append, List.flatMap_singleton]
        exact h.records
      · rw [List.flatMap_append, List.flatMap_singleton, h.result]
        exact (List.append_nil _).symm
    · intro full₀ p rs hlen hp hsame
      have heq := (hp.transfer hlen hsame).takenFrom
      rw [hl, Option.map_some] at heq
      obtain ⟨l', -, hl'⟩ := Option.map_eq_some_iff.mp heq.symm
      rw [← hl', List.foldl_append]
      exact result_prefix _ _

/-- A journal of two blocks that are full of the byte 2, the operation of a put; the first is to be
scanned. -/
def puts : Journal :=
  { devSize := 12288, dataSize := 8192, nextTxnId := 1, activeTxns := fun _ => none, superblock := {},
    writeOffset := 0,
    dev := ⟨{ magic := superBlockMagic, writeOffset := 4096 }, fun _ => 2, 8192⟩ }

/-- The range of `puts` is one block. -/
theorem recover_safe_iff_puts :
    (∃ result, puts.recover = some result ∧ Safe puts.scanned result) ↔
      ∀ p rs, Reaches puts.scanned p rs → 9 ≤ p.length → RecordFits p :=
  recover_safe_iff puts (by decide +kernel)

/-- The first record says that its key has 0x02020202 bytes, and the exception escapes. -/
theorem puts_not_recovered :
    puts.recover = none ∧ ¬ ∃ result, puts.recover = some result ∧ Safe puts.scanned result := by
  have hnone : puts.recover = none := by decide +kernel
  refine ⟨hnone, ?_⟩
  rintro ⟨result, h, -⟩
  rw [hnone] at h
  cases h

end Journal

end CxxLab.Btier
