import CxxLab.Bluestore.Blob
import CxxLab.Common.Crc32
import CxxLab.Lib.Codec
import CxxLab.Lib.Runs

/-!
# Blob checksums

`calc_csum` and `verify_csum` of `bluestore_blob_t`. A checksum is a word of 32 bits, of which as
many bytes as the checksum type has are copied to the array, and back to a variable that nothing was
written to before. `csum_checks_iff` says when this makes a checksum.
-/

namespace CxxLab.Bluestore.Object

open Codec Common

namespace BlobT

/-- `csum_value_size`. -/
def csumValueSize (type : UInt8) : ℕ :=
  if type = 2 ∨ type = 4 then 4
  else if type = 5 then 2
  else if type = 6 then 1
  else if type = 3 then 8
  else 0

/-- `get_chunk_size`. -/
def chunkSize (b : BlobT) (devBlockSize : UInt64) : UInt64 :=
  if hasCsum b.flags then max devBlockSize b.csumChunkSize.toUInt64 else devBlockSize

/-- The chunk size is a power of two; the shift takes the order modulo 32. -/
theorem csumChunkSize_toNat (b : BlobT) :
    b.csumChunkSize.toNat = 2 ^ (b.csumChunkOrder.toNat % 32) := by
  rw [csumChunkSize, UInt32.toNat_shiftLeft, UInt32.toNat_one, Nat.one_shiftLeft, UInt8.toNat_toUInt32,
    Nat.mod_eq_of_lt (Nat.pow_lt_pow_right (by norm_num) (Nat.mod_lt _ (by norm_num)))]

/-- A chunk is not empty. -/
theorem csumChunkSize_pos (b : BlobT) : 0 < b.csumChunkSize.toNat := by
  rw [csumChunkSize_toNat]
  exact Nat.two_pow_pos _

/-! ## The loops -/

/-- The checksum of a block of a buffer. -/
def blockCrc (bl : List UInt8) (chunk i : ℕ) : UInt32 :=
  calcCrc32 ((bl.drop (i * chunk)).take chunk) 0

/-- `csum_idx`. -/
def csumIdx (bOff : UInt64) (chunk i : ℕ) : ℕ := (UInt32.ofNat (bOff.toNat / chunk + i)).toNat

/-- The bytes of a checksum that are stored. -/
def crcBytes (vsz : ℕ) (crc : UInt32) : List UInt8 := (leBytes 4 crc.toNat).take vsz

/-- A round of `calc_csum`. It stops with `none` where `memcpy` reads beyond the checksum or writes
beyond the array. -/
def calcRound (vsz chunk : ℕ) (bOff : UInt64) (bl : List UInt8) (i : ℕ) (data : List UInt8) :
    Option (List UInt8) :=
  let idx := csumIdx bOff chunk i
  if 4 < vsz ∨ data.length < idx * vsz + vsz then none
  else
    some (data.take (idx * vsz) ++ crcBytes vsz (blockCrc bl chunk i) ++ data.drop (idx * vsz + vsz))

/-- The loop of `calc_csum`, over so many blocks from block `i` on. -/
def calcLoop (vsz chunk : ℕ) (bOff : UInt64) (bl : List UInt8) :
    ℕ → ℕ → List UInt8 → Option (List UInt8)
  | 0, _, data => some data
  | blocks + 1, i, data => do
    let data ← calcRound vsz chunk bOff bl i data
    calcLoop vsz chunk bOff bl blocks (i + 1) data

/-- `calc_csum`. -/
def calcCsum (b : BlobT) (bOff : UInt64) (bl : List UInt8) (devBlockSize : UInt64) :
    Option BlobT :=
  if hasCsum b.flags = false ∨ bl.length = 0 then some b
  else
    let chunk := (b.chunkSize devBlockSize).toNat
    (calcLoop (csumValueSize b.csumType) chunk bOff bl (bl.length / chunk) 0 b.csumData).map
      fun data => { b with csumData := data }

/-- `stored_crc` after `memcpy`, with what the variable held before; `none` where `memcpy` writes
beyond the variable or reads beyond the array. -/
def storedCrc (vsz : ℕ) (data : List UInt8) (idx : ℕ) (stack : UInt32) : Option UInt32 :=
  if 4 < vsz ∨ data.length < idx * vsz + vsz then none
  else
    some (UInt32.ofNat
      (leNat ((data.drop (idx * vsz)).take vsz ++ (leBytes 4 stack.toNat).drop vsz)))

/-- The conversion of an offset to `int`. -/
def toInt (n : UInt64) : ℤ := n.toUInt32.toBitVec.toInt

/-- The loop of `verify_csum`, over so many blocks from block `i` on, with what `stored_crc` holds
before each round. -/
def verifyLoop (vsz chunk : ℕ) (bOff : UInt64) (bl data : List UInt8) (stack : ℕ → UInt32) :
    ℕ → ℕ → Option ℤ
  | 0, _ => some (-1)
  | blocks + 1, i => do
    let stored ← storedCrc vsz data (csumIdx bOff chunk i) (stack i)
    if blockCrc bl chunk i ≠ stored then some (toInt (bOff + UInt64.ofNat (i * chunk)))
    else verifyLoop vsz chunk bOff bl data stack blocks (i + 1)

/-- `verify_csum`. -/
def verifyCsum (b : BlobT) (bOff : UInt64) (bl : List UInt8) (devBlockSize : UInt64)
    (stack : ℕ → UInt32) : Option ℤ :=
  if hasCsum b.flags = false ∨ bl.length = 0 then some (-1)
  else
    let chunk := (b.chunkSize devBlockSize).toNat
    verifyLoop (csumValueSize b.csumType) chunk bOff bl b.csumData stack (bl.length / chunk) 0

/-! ## The stored values -/

/-- The stored checksum of a chunk. -/
def csumValue (vsz : ℕ) (data : List UInt8) (j : ℕ) : List UInt8 := (data.drop (j * vsz)).take vsz

section
variable {vsz chunk : ℕ} {bOff : UInt64} {bl data : List UInt8}

/-- A stored checksum has the bytes of its type. -/
theorem length_crcBytes (h : vsz ≤ 4) (crc : UInt32) : (crcBytes vsz crc).length = vsz := by
  rw [crcBytes, List.length_take, length_leBytes, Nat.min_eq_left h]

/-- The index does not wrap around within a blob. -/
theorem csumIdx_eq {i : ℕ} (h : bOff.toNat / chunk + i < 2 ^ 32) :
    csumIdx bOff chunk i = bOff.toNat / chunk + i := by
  rw [csumIdx, UInt32.toNat_ofNat', Nat.mod_eq_of_lt h]

/-- A value is written over and the others are kept. -/
theorem csumValue_put {value : List UInt8} {k : ℕ} (hlen : value.length = vsz)
    (hroom : k * vsz + vsz ≤ data.length) (j : ℕ) :
    csumValue vsz (data.take (k * vsz) ++ value ++ data.drop (k * vsz + vsz)) j =
      if j = k then value else csumValue vsz data j := by
  have htake : (data.take (k * vsz)).length = k * vsz := by
    rw [List.length_take]
    omega
  unfold csumValue
  rcases lt_trichotomy j k with hlt | rfl | hgt
  · have hmul : j * vsz + vsz ≤ k * vsz := by
      rw [← Nat.succ_mul]
      exact Nat.mul_le_mul_right _ hlt
    rw [if_neg hlt.ne, List.append_assoc, List.drop_append_of_le_length (by omega),
      List.take_append_of_le_length (by rw [List.length_drop]; omega), List.drop_take,
      List.take_take, Nat.min_eq_left (by omega)]
  · rw [if_pos rfl, List.append_assoc, List.drop_left' htake, List.take_left' hlen]
  · have hmul : k * vsz + vsz ≤ j * vsz := by
      rw [← Nat.succ_mul]
      exact Nat.mul_le_mul_right _ hgt
    have hskip : j * vsz = (data.take (k * vsz) ++ value).length + (j * vsz - (k * vsz + vsz)) := by
      rw [List.length_append, htake, hlen]
      omega
    rw [if_neg hgt.ne', hskip, List.drop_length_add_append, List.drop_drop, List.length_append, htake,
      hlen]

/-- The loop of `calc_csum` stores the checksums of its blocks and keeps the others. -/
theorem calcLoop_spec (h4 : vsz ≤ 4) {blocks i : ℕ} (hidx : bOff.toNat / chunk + i + blocks ≤ 2 ^ 32)
    (hroom : (bOff.toNat / chunk + i + blocks) * vsz ≤ data.length) :
    ∃ data', calcLoop vsz chunk bOff bl blocks i data = some data' ∧ data'.length = data.length ∧
      ∀ j, csumValue vsz data' j =
        if bOff.toNat / chunk + i ≤ j ∧ j < bOff.toNat / chunk + i + blocks then
          crcBytes vsz (blockCrc bl chunk (j - bOff.toNat / chunk))
        else csumValue vsz data j := by
  induction blocks generalizing i data with
  | zero =>
    refine ⟨data, rfl, rfl, fun j => ?_⟩
    rw [if_neg (by omega)]
  | succ blocks ih =>
    have hval := length_crcBytes h4 (blockCrc bl chunk i)
    have hle : (bOff.toNat / chunk + i) * vsz + vsz ≤ data.length := by
      rw [← Nat.succ_mul]
      exact (Nat.mul_le_mul_right _ (by omega)).trans hroom
    have hround : calcRound vsz chunk bOff bl i data =
        some (data.take ((bOff.toNat / chunk + i) * vsz) ++ crcBytes vsz (blockCrc bl chunk i) ++
          data.drop ((bOff.toNat / chunk + i) * vsz + vsz)) := by
      rw [calcRound, csumIdx_eq (by omega)]
      exact if_neg (by omega)
    have hlen : (data.take ((bOff.toNat / chunk + i) * vsz) ++ crcBytes vsz (blockCrc bl chunk i) ++
        data.drop ((bOff.toNat / chunk + i) * vsz + vsz)).length = data.length := by
      simp only [List.length_append, List.length_take, List.length_drop, hval]
      omega
    obtain ⟨data', hrun, hlen', hvalues⟩ := @ih
      (data.take ((bOff.toNat / chunk + i) * vsz) ++ crcBytes vsz (blockCrc bl chunk i) ++
        data.drop ((bOff.toNat / chunk + i) * vsz + vsz)) (i + 1) (by omega)
      (by rw [hlen, show bOff.toNat / chunk + (i + 1) + blocks =
        bOff.toNat / chunk + i + (blocks + 1) by omega]; exact hroom)
    refine ⟨data', ?_, hlen'.trans hlen, fun j => ?_⟩
    · rw [calcLoop, hround]
      exact hrun
    · rw [hvalues, csumValue_put hval hle]
      -- The first block, one of the others, or none.
      by_cases hfirst : j = bOff.toNat / chunk + i
      · rw [if_neg (by omega), if_pos hfirst, if_pos (by omega), hfirst, Nat.add_sub_cancel_left]
      · rw [if_neg hfirst]
        exact if_congr (by omega) rfl rfl

/-- A checksum of four bytes is read back as it was, whatever the variable held. -/
theorem storedCrc_four {idx : ℕ} (hroom : idx * 4 + 4 ≤ data.length) {crc : UInt32}
    (h : csumValue 4 data idx = crcBytes 4 crc) (stack : UInt32) :
    storedCrc 4 data idx stack = some crc := by
  have hnat : leNat (leBytes 4 crc.toNat) = crc.toNat := by
    rw [leNat_leBytes]
    exact Nat.mod_eq_of_lt crc.toNat_lt
  have hfour : ∀ n, (leBytes 4 n).take 4 = leBytes 4 n := fun n =>
    List.take_of_length_le (length_leBytes 4 n).le
  have hnone : (leBytes 4 stack.toNat).drop 4 = [] :=
    List.drop_eq_nil_of_le (length_leBytes 4 _).le
  rw [csumValue] at h
  rw [storedCrc, if_neg (by omega), h, crcBytes, hfour, hnone, List.append_nil, hnat,
    UInt32.ofNat_toNat]

/-- The answer of `verify_csum` if the block is the first one that differs. -/
def report (bOff : ℕ) (chunk : ℕ) : Option ℕ → ℤ
  | none => -1
  | some i => (bOff + i * chunk : ℕ)

/-- The conversion to `int` keeps an offset below 2 GiB. -/
theorem toInt_of_lt {n : UInt64} (h : n.toNat < 2 ^ 31) : toInt n = n.toNat := by
  have hnat : n.toUInt32.toBitVec.toNat = n.toNat := by
    show n.toUInt32.toNat = n.toNat
    rw [UInt64.toNat_toUInt32]
    exact Nat.mod_eq_of_lt (by omega)
  rw [toInt, BitVec.toInt_eq_toNat_of_lt (by rw [hnat]; omega), hnat]

/-- An `int` is below 2 GiB. -/
theorem toInt_lt (n : UInt64) : toInt n < 2 ^ 31 := by
  have := BitVec.toInt_lt (x := n.toUInt32.toBitVec)
  simpa [toInt] using this

/-- The loop of `verify_csum` answers the first block that differs, if checksums have four bytes and
the offsets are below 2 GiB. -/
theorem verifyLoop_spec {blocks i : ℕ} (hidx : bOff.toNat / chunk + i + blocks ≤ 2 ^ 32)
    (hroom : (bOff.toNat / chunk + i + blocks) * 4 ≤ data.length)
    (hint : ∀ k < blocks, bOff.toNat + (i + k) * chunk < 2 ^ 31) {crc : ℕ → UInt32}
    (hcrc : ∀ k < blocks, csumValue 4 data (bOff.toNat / chunk + (i + k)) = crcBytes 4 (crc (i + k)))
    (stack : ℕ → UInt32) :
    verifyLoop 4 chunk bOff bl data stack blocks i =
      some (report bOff.toNat chunk
        ((List.range' i blocks).find? fun k => blockCrc bl chunk k != crc k)) := by
  induction blocks generalizing i with
  | zero => rfl
  | succ blocks ih =>
    have hstored := @storedCrc_four data (bOff.toNat / chunk + i) (by omega) _
      (hcrc 0 (Nat.succ_pos _)) (stack i)
    rw [verifyLoop, csumIdx_eq (by omega), hstored, Option.bind_eq_bind, Option.bind_some,
      List.range'_succ, Nat.add_zero]
    by_cases heq : blockCrc bl chunk i = crc i
    · rw [if_neg (not_not.mpr heq), List.find?_cons_of_neg (by simpa using heq)]
      refine ih (by omega) (by omega) ?_ ?_
      · intro k hk
        have := hint (k + 1) (by omega)
        rwa [show i + (k + 1) = i + 1 + k by omega] at this
      · intro k hk
        have := hcrc (k + 1) (by omega)
        rwa [show i + (k + 1) = i + 1 + k by omega] at this
    · have hlt := hint 0 (Nat.succ_pos _)
      rw [Nat.add_zero] at hlt
      have hoff : (bOff + UInt64.ofNat (i * chunk)).toNat = bOff.toNat + i * chunk := by
        rw [UInt64.toNat_add, UInt64.toNat_ofNat', Nat.mod_eq_of_lt (by omega),
          Nat.mod_eq_of_lt (by omega)]
      rw [if_pos heq, List.find?_cons_of_pos (by simpa using heq), toInt_of_lt (by omega), hoff]
      rfl

end

/-! ## Calls -/

/-- A call of `calc_csum`: the offset in the blob, and the buffer. -/
abbrev CsumCall := UInt64 × List UInt8

/-- The calls of `calc_csum` one after the other. -/
def calcAll (b : BlobT) (devBlockSize : UInt64) (calls : List CsumCall) : Option BlobT :=
  Runs.exec (fun b c => calcCsum b c.1 c.2 devBlockSize) b calls

/-- The data that was last passed to `calc_csum` for each chunk. -/
def noteData (chunk : ℕ) (last : ℕ → Option (List UInt8)) (c : CsumCall) : ℕ → Option (List UInt8) :=
  fun j =>
    if c.1.toNat / chunk ≤ j ∧ j < c.1.toNat / chunk + c.2.length / chunk then
      some ((c.2.drop ((j - c.1.toNat / chunk) * chunk)).take chunk)
    else last j

/-- The data that was last passed for each chunk by some calls. -/
def lastData (chunk : ℕ) (calls : List CsumCall) : ℕ → Option (List UInt8) :=
  calls.foldl (noteData chunk) fun _ => none

/-- A call is for whole chunks inside the blob. -/
structure CallFits (b : BlobT) (chunk : ℕ) (c : CsumCall) : Prop where
  offset : chunk ∣ c.1.toNat
  length : chunk ∣ c.2.length
  inside : c.1.toNat + c.2.length ≤ b.logicalLength.toNat

/-- There is a checksum for each chunk of the blob, as `init_csum` makes them. -/
def Dimensioned (b : BlobT) : Prop :=
  csumValueSize b.csumType * (b.logicalLength.toNat / b.csumChunkSize.toNat) ≤ b.csumData.length

section
variable {b : BlobT} {dev : UInt64}

/-- A chunk is as large as one of those that the array has values for. -/
theorem csumChunkSize_le (hc : hasCsum b.flags = true) :
    b.csumChunkSize.toNat ≤ (b.chunkSize dev).toNat := by
  rw [chunkSize, if_pos hc, ← UInt32.toNat_toUInt64 b.csumChunkSize]
  show _ ≤ (if dev ≤ b.csumChunkSize.toUInt64 then b.csumChunkSize.toUInt64 else dev).toNat
  split_ifs with h
  · exact le_rfl
  · exact (not_le.mp fun hle => h (UInt64.le_iff_toNat_le.mpr hle)).le

/-- The values of the chunks inside the blob are inside the array. -/
theorem Dimensioned.room (hd : b.Dimensioned) (hc : hasCsum b.flags = true) (chunks : ℕ)
    (h : chunks * (b.chunkSize dev).toNat ≤ b.logicalLength.toNat) :
    chunks * csumValueSize b.csumType ≤ b.csumData.length := by
  have hle : chunks ≤ b.logicalLength.toNat / b.csumChunkSize.toNat := by
    rw [Nat.le_div_iff_mul_le b.csumChunkSize_pos]
    exact (Nat.mul_le_mul_left _ (csumChunkSize_le hc)).trans h
  calc chunks * csumValueSize b.csumType
      = csumValueSize b.csumType * chunks := Nat.mul_comm _ _
    _ ≤ csumValueSize b.csumType * (b.logicalLength.toNat / b.csumChunkSize.toNat) :=
      Nat.mul_le_mul_left _ hle
    _ ≤ b.csumData.length := hd

/-- The stored checksum of a chunk after some calls, with what it was before. -/
def valueAfter (vsz : ℕ) (old : List UInt8) : Option (List UInt8) → List UInt8
  | none => old
  | some data => crcBytes vsz (calcCrc32 data 0)

/-- The size that checksums are made for is not zero. -/
theorem chunkSize_pos (hc : hasCsum b.flags = true) : 0 < (b.chunkSize dev).toNat :=
  b.csumChunkSize_pos.trans_le (csumChunkSize_le hc)

/-- A call of `calc_csum` for checksums of four bytes or fewer. -/
theorem calcCsum_spec (hc : hasCsum b.flags = true) (hd : b.Dimensioned)
    (h4 : csumValueSize b.csumType ≤ 4) {c : CsumCall}
    (hfits : CallFits b (b.chunkSize dev).toNat c) {data : List UInt8}
    (hlen : data.length = b.csumData.length) :
    ∃ data', calcCsum { b with csumData := data } c.1 c.2 dev = some { b with csumData := data' } ∧
      data'.length = b.csumData.length ∧ ∀ (last : ℕ → Option (List UInt8)) (old : ℕ → List UInt8),
        (∀ j, csumValue (csumValueSize b.csumType) data j =
          valueAfter (csumValueSize b.csumType) (old j) (last j)) →
        ∀ j, csumValue (csumValueSize b.csumType) data' j =
          valueAfter (csumValueSize b.csumType) (old j)
            (noteData (b.chunkSize dev).toNat last c j) := by
  have hpos := @chunkSize_pos b dev hc
  generalize hchunk : (b.chunkSize dev).toNat = chunk at *
  have hmul : (c.1.toNat / chunk + c.2.length / chunk) * chunk = c.1.toNat + c.2.length := by
    rw [Nat.add_mul, Nat.div_mul_cancel hfits.offset, Nat.div_mul_cancel hfits.length]
  have hroom := @Dimensioned.room b dev hd hc (c.1.toNat / chunk + c.2.length / chunk)
    (by rw [hchunk, hmul]; exact hfits.inside)
  have hidx : c.1.toNat / chunk + c.2.length / chunk ≤ 2 ^ 32 := by
    have hle : c.1.toNat / chunk + c.2.length / chunk ≤ c.1.toNat + c.2.length :=
      Nat.add_le_add (Nat.div_le_self _ _) (Nat.div_le_self _ _)
    have := hfits.inside
    have := b.logicalLength.toNat_lt
    omega
  obtain ⟨data', hrun, hlen', hvalues⟩ := @calcLoop_spec _ chunk c.1 c.2 data h4 (c.2.length / chunk) 0
    (by omega) (by rw [hlen]; simpa using hroom)
  have hall : ∀ (last : ℕ → Option (List UInt8)) (old : ℕ → List UInt8),
      (∀ j, csumValue (csumValueSize b.csumType) data j =
        valueAfter (csumValueSize b.csumType) (old j) (last j)) →
      ∀ j, csumValue (csumValueSize b.csumType) data' j =
        valueAfter (csumValueSize b.csumType) (old j) (noteData chunk last c j) := by
    intro last old hold j
    rw [hvalues, noteData, Nat.add_zero]
    split_ifs with hin
    · rfl
    · exact hold j
  refine ⟨data', ?_, hlen'.trans hlen, hall⟩
  have hsize : (chunkSize { b with csumData := data } dev).toNat = chunk := hchunk
  unfold calcCsum
  split_ifs with hempty
  · -- An empty buffer has no block.
    rcases hempty with hfalse | hzero
    · exact absurd (hfalse.symm.trans hc) Bool.false_ne_true
    · rw [hzero, Nat.zero_div] at hrun
      obtain rfl := Option.some.inj hrun
      rfl
  · dsimp only
    rw [hsize, hrun]
    rfl

/-- The stored checksums after some calls are those of the data that was passed last. -/
theorem calcAll_spec (hc : hasCsum b.flags = true) (hd : b.Dimensioned)
    (h4 : csumValueSize b.csumType ≤ 4) {calls : List CsumCall}
    (hcalls : ∀ c ∈ calls, CallFits b (b.chunkSize dev).toNat c) {data : List UInt8}
    (hlen : data.length = b.csumData.length) {last : ℕ → Option (List UInt8)}
    {old : ℕ → List UInt8}
    (hold : ∀ j, csumValue (csumValueSize b.csumType) data j =
      valueAfter (csumValueSize b.csumType) (old j) (last j)) :
    ∃ data', calcAll { b with csumData := data } dev calls = some { b with csumData := data' } ∧
      data'.length = b.csumData.length ∧ ∀ j, csumValue (csumValueSize b.csumType) data' j =
        valueAfter (csumValueSize b.csumType) (old j)
          (calls.foldl (noteData (b.chunkSize dev).toNat) last j) := by
  induction calls generalizing data last with
  | nil => exact ⟨data, rfl, hlen, hold⟩
  | cons c calls ih =>
    obtain ⟨data', hstep, hlen', hvalues⟩ :=
      calcCsum_spec hc hd h4 (hcalls c List.mem_cons_self) hlen
    obtain ⟨data'', hrun, hres⟩ := ih (fun c' hc' => hcalls c' (List.mem_cons_of_mem _ hc')) hlen'
      (hvalues last old hold)
    exact ⟨data'', Runs.exec_cons.mpr ⟨_, hstep, hrun⟩, hres⟩

end

/-! ## Where the checksums fail -/

/-- A checksum of fewer than four bytes is read back with what the variable held. -/
theorem storedCrc_short {vsz idx : ℕ} {data : List UInt8} (h : vsz < 4)
    (hroom : idx * vsz + vsz ≤ data.length) :
    storedCrc vsz data idx 0 ≠ storedCrc vsz data idx 0xFFFFFFFF := by
  have hzero : leBytes 4 (0 : UInt32).toNat = [0, 0, 0, 0] := by decide
  have hones : leBytes 4 (0xFFFFFFFF : UInt32).toNat = [255, 255, 255, 255] := by decide
  have hlen : ((data.drop (idx * vsz)).take vsz).length = vsz := by
    rw [List.length_take, List.length_drop]
    omega
  unfold storedCrc
  rw [if_neg (by omega), if_neg (by omega), hzero, hones]
  intro heq
  have heq := congrArg UInt32.toNat (Option.some.inj heq)
  generalize (data.drop (idx * vsz)).take vsz = part at *
  rw [UInt32.toNat_ofNat', UInt32.toNat_ofNat'] at heq
  interval_cases vsz
  · obtain rfl := List.eq_nil_of_length_eq_zero hlen
    revert heq
    decide
  · obtain ⟨a, rfl⟩ := List.length_eq_one_iff.mp hlen
    have := a.toNat_lt
    simp [leNat] at heq
    omega
  · obtain ⟨a, b, rfl⟩ := List.length_eq_two.mp hlen
    have := a.toNat_lt
    have := b.toNat_lt
    simp [leNat] at heq
    omega
  · obtain ⟨a, b, c, rfl⟩ := List.length_eq_three.mp hlen
    have := a.toNat_lt
    have := b.toNat_lt
    have := c.toNat_lt
    simp [leNat] at heq
    omega
/-- A change of the last bit changes the index into the table. -/
theorem low_xor_one (s : UInt32) (x : UInt8) :
    (s ^^^ (x ^^^ 1).toUInt32) &&& 0xFF = ((s ^^^ x.toUInt32) &&& 0xFF) ^^^ 1 := by
  apply UInt32.toBitVec_inj.mp
  apply BitVec.eq_of_getLsbD_eq
  intro i hi
  simp only [UInt8.toUInt32_xor, Nat.one_lt_ofNat, UInt8.toUInt32_ofNat, UInt32.toBitVec_and,
    UInt32.toBitVec_xor, UInt8.toBitVec_toUInt32, UInt32.toBitVec_ofNat, BitVec.getLsbD_and,
    BitVec.getLsbD_xor, BitVec.getLsbD_setWidth, BitVec.getLsbD_one, Nat.ofNat_pos, decide_true,
    Bool.true_and]
  grind

/-- Indices that differ in the last bit have different entries. -/
theorem crcTable_xor_one {k : UInt32} (hk : k.toNat < 256) : crcTable k ≠ crcTable (k ^^^ 1) := by
  have hall : ∀ k : Fin 256,
      crcTable (UInt32.ofNat k.val) ≠ crcTable (UInt32.ofNat k.val ^^^ 1) := by
    decide +kernel
  have := hall ⟨k.toNat, hk⟩
  rwa [UInt32.ofNat_toNat] at this

/-- There is other data of the same length with another checksum. -/
theorem exists_other_crc {d : List UInt8} (hne : d ≠ []) :
    ∃ d', d'.length = d.length ∧ calcCrc32 d' 0 ≠ calcCrc32 d 0 := by
  obtain ⟨p, x, rfl⟩ : ∃ p x, d = p ++ [x] := ⟨_, _, (List.dropLast_append_getLast hne).symm⟩
  refine ⟨p ++ [x ^^^ 1], by simp, fun heq => ?_⟩
  have hlen : ∀ y : UInt8, (p ++ [y]).length ≠ 0 := by simp
  rw [calcCrc32, calcCrc32, if_neg (hlen _), if_neg (hlen _), List.foldl_append, List.foldl_append]
    at heq
  generalize p.foldl crcByte (~~~0) = s at heq
  -- The table entries of two bytes that differ in a bit.
  have hentry := UInt32.not_inj.mp heq
  rw [List.foldl_cons, List.foldl_cons, List.foldl_nil, List.foldl_nil, crcByte, crcByte,
    UInt32.xor_right_inj, low_xor_one] at hentry
  have hsmall : ((s ^^^ x.toUInt32) &&& 0xFF).toNat < 256 := by
    rw [UInt32.toNat_and]
    exact Nat.lt_succ_of_le Nat.and_le_right
  exact crcTable_xor_one hsmall hentry.symm

section
variable {b : BlobT} {dev : UInt64}

/-- A value of more than four bytes is not stored. -/
theorem noteData_of_wide (hc : hasCsum b.flags = true) (h4 : 4 < csumValueSize b.csumType)
    {calls : List CsumCall} {b' : BlobT} (h : calcAll b dev calls = some b')
    (last : ℕ → Option (List UInt8)) :
    calls.foldl (noteData (b.chunkSize dev).toNat) last = last := by
  induction calls generalizing last with
  | nil => rfl
  | cons c calls ih =>
    obtain ⟨t, hstep, hrun⟩ := Runs.exec_cons.mp h
    -- No call with a block goes through.
    have hnone : t = b ∧ c.2.length / (b.chunkSize dev).toNat = 0 := by
      unfold calcCsum at hstep
      split_ifs at hstep with hempty
      · obtain rfl := Option.some.inj hstep
        refine ⟨rfl, ?_⟩
        rcases hempty with hfalse | hzero
        · exact absurd (hfalse.symm.trans hc) Bool.false_ne_true
        · rw [hzero, Nat.zero_div]
      · obtain ⟨data, hloop, rfl⟩ := Option.map_eq_some_iff.mp hstep
        cases hblocks : c.2.length / (b.chunkSize dev).toNat with
        | zero =>
          rw [hblocks] at hloop
          obtain rfl := Option.some.inj hloop
          exact ⟨rfl, rfl⟩
        | succ blocks =>
          rw [hblocks, calcLoop, calcRound, if_pos (.inl h4)] at hloop
          cases hloop
    obtain ⟨rfl, hblocks⟩ := hnone
    have hsame : noteData (t.chunkSize dev).toNat last c = last := by
      funext j
      rw [noteData, hblocks]
      exact if_neg (by omega)
    rw [List.foldl_cons, hsame]
    exact ih hrun last

/-- The answers of `verify_csum` are those of an `int`. -/
theorem verifyLoop_lt {vsz chunk : ℕ} {bOff : UInt64} {bl data : List UInt8} {stack : ℕ → UInt32}
    {blocks i : ℕ} {r : ℤ} (h : verifyLoop vsz chunk bOff bl data stack blocks i = some r) :
    r < 2 ^ 31 := by
  induction blocks generalizing i with
  | zero =>
    obtain rfl := Option.some.inj h
    norm_num
  | succ blocks ih =>
    obtain ⟨stored, -, hres⟩ := Option.bind_eq_some_iff.mp h
    split_ifs at hres
    · obtain rfl := Option.some.inj hres
      exact toInt_lt _
    · exact ih hres

/-- An offset inside a blob is not taken for -1. -/
theorem toInt_ne {n : UInt64} (h : n.toNat < 2 ^ 32 - 1) : toInt n ≠ -1 := by
  have hnat : n.toUInt32.toBitVec.toNat = n.toNat := by
    show n.toUInt32.toNat = n.toNat
    rw [UInt64.toNat_toUInt32]
    exact Nat.mod_eq_of_lt (by omega)
  rw [toInt, BitVec.toInt_eq_toNat_cond, hnat]
  split_ifs
  · omega
  · omega

/-- Where `verify_csum` finds no difference, the first value is the one that it computes. -/
theorem storedCrc_of_verify {vsz chunk : ℕ} {bOff : UInt64} {bl data : List UInt8}
    {stack : ℕ → UInt32} {blocks : ℕ} (hoff : bOff.toNat < 2 ^ 32 - 1)
    (h : verifyLoop vsz chunk bOff bl data stack (blocks + 1) 0 = some (-1)) :
    storedCrc vsz data (csumIdx bOff chunk 0) (stack 0) = some (blockCrc bl chunk 0) := by
  obtain ⟨stored, hstored, hres⟩ := Option.bind_eq_some_iff.mp h
  rw [hstored]
  split_ifs at hres with hne
  · refine absurd (Option.some.inj hres) (toInt_ne ?_)
    rwa [Nat.zero_mul, show UInt64.ofNat 0 = 0 from rfl, UInt64.add_zero]
  · rw [not_not.mp hne]

/-- A buffer made of the given blocks. -/
theorem blocks_spec {chunk : ℕ} (f : ℕ → List UInt8) {n : ℕ} (h : ∀ i < n, (f i).length = chunk) :
    ((List.range n).flatMap f).length = n * chunk ∧
      ∀ i < n, blockCrc ((List.range n).flatMap f) chunk i = calcCrc32 (f i) 0 := by
  induction n with
  | zero => simp
  | succ n ih =>
    obtain ⟨hlen, hblocks⟩ := ih fun i hi => h i (by omega)
    rw [List.range_succ, List.flatMap_append, List.flatMap_singleton]
    refine ⟨by rw [List.length_append, hlen, h n (Nat.lt_succ_self n), Nat.succ_mul],
      fun i hi => ?_⟩
    rcases Nat.lt_succ_iff_lt_or_eq.mp hi with hlt | rfl
    · have hle : i * chunk + chunk ≤ n * chunk := by
        rw [← Nat.succ_mul]
        exact Nat.mul_le_mul_right _ hlt
      rw [← hblocks i hlt, blockCrc, blockCrc, List.drop_append_of_le_length (by omega),
        List.take_append_of_le_length (by rw [List.length_drop]; omega)]
    · rw [blockCrc, List.drop_left' hlen, List.take_of_length_le (h _ (Nat.lt_succ_self _)).le]

/-- The data of a chunk has its length. -/
theorem length_lastData {chunk : ℕ} {calls : List CsumCall}
    (hcalls : ∀ c ∈ calls, CallFits b chunk c) {last : ℕ → Option (List UInt8)}
    (hlast : ∀ j d, last j = some d → d.length = chunk) {j : ℕ} {d : List UInt8}
    (h : calls.foldl (noteData chunk) last j = some d) : d.length = chunk := by
  induction calls generalizing last with
  | nil => exact hlast j d h
  | cons c calls ih =>
    refine ih (fun c' hc' => hcalls c' (List.mem_cons_of_mem _ hc')) ?_ h
    intro j d hd
    unfold noteData at hd
    split_ifs at hd with hin
    · obtain rfl := Option.some.inj hd
      have hfits := hcalls c List.mem_cons_self
      have hle : (j - c.1.toNat / chunk) * chunk + chunk ≤ c.2.length := by
        rw [← Nat.succ_mul]
        exact (Nat.mul_le_mul_right _ (by omega)).trans (Nat.div_mul_le_self _ _)
      rw [List.length_take, List.length_drop]
      omega
    · exact hlast j d hd

end

/-! ## The checksums of a blob -/

/-- The checksum of the data that was last passed for a chunk. -/
def lastCrc (chunk : ℕ) (calls : List CsumCall) (j : ℕ) : UInt32 :=
  calcCrc32 ((lastData chunk calls j).getD []) 0

/-- After some calls of `calc_csum`, each inside the array, the values of other chunks are what they
were, and `verify_csum` of any buffer for `n` chunks answers the offset of the first one whose
checksum is not that of the data passed last for it, and -1 if there is none. -/
def Checks (b : BlobT) (dev : UInt64) (calls : List CsumCall) (bOff : UInt64) (n : ℕ) : Prop :=
  let chunk := (b.chunkSize dev).toNat
  ∃ b', b.calcAll dev calls = some b' ∧ b'.csumData.length = b.csumData.length ∧
    (∀ j, lastData chunk calls j = none →
      csumValue (csumValueSize b.csumType) b'.csumData j =
        csumValue (csumValueSize b.csumType) b.csumData j) ∧
    ∀ (bl : List UInt8) (stack : ℕ → UInt32), bl.length = n * chunk →
      b'.verifyCsum bOff bl dev stack = some (report bOff.toNat chunk ((List.range n).find? fun i =>
        blockCrc bl chunk i != lastCrc chunk calls (bOff.toNat / chunk + i)))

/-- The chunks of a range inside the blob, for each of which data was passed. -/
structure RangeFits (b : BlobT) (chunk : ℕ) (calls : List CsumCall) (bOff : ℕ) (n : ℕ) : Prop where
  pos : 0 < n
  offset : chunk ∣ bOff
  inside : bOff + n * chunk ≤ b.logicalLength.toNat
  written : ∀ i < n, ∃ d, lastData chunk calls (bOff / chunk + i) = some d

section
variable {b : BlobT} {dev : UInt64} {calls : List CsumCall} {bOff : UInt64} {n : ℕ}

/-- `verify_csum` of a buffer for some chunks is its loop. -/
theorem verifyCsum_eq {b' : BlobT} (hc : hasCsum b'.flags = true) {bl : List UInt8} (hn : 0 < n)
    (hlen : bl.length = n * (b'.chunkSize dev).toNat) (stack : ℕ → UInt32) :
    b'.verifyCsum bOff bl dev stack =
      verifyLoop (csumValueSize b'.csumType) (b'.chunkSize dev).toNat bOff bl b'.csumData stack n 0 := by
  have hpos := @chunkSize_pos b' dev hc
  have hne : ¬ (hasCsum b'.flags = false ∨ bl.length = 0) := by
    rintro (hfalse | hzero)
    · exact absurd (hfalse.symm.trans hc) Bool.false_ne_true
    · rw [hlen] at hzero
      exact (Nat.mul_pos hn hpos).ne' hzero
  have hblocks : bl.length / (b'.chunkSize dev).toNat = n := by
    rw [hlen, Nat.mul_div_cancel _ hpos]
  rw [← hblocks]
  exact if_neg hne

/-- Checksums of four bytes check offsets below 2 GiB. -/
theorem checks_of_four (hc : hasCsum b.flags = true) (hd : b.Dimensioned)
    (hcalls : ∀ c ∈ calls, CallFits b (b.chunkSize dev).toNat c)
    (hrange : RangeFits b (b.chunkSize dev).toNat calls bOff.toNat n)
    (hvsz : csumValueSize b.csumType = 4)
    (hint : bOff.toNat + (n - 1) * (b.chunkSize dev).toNat < 2 ^ 31) :
    Checks b dev calls bOff n := by
  have hpos := @chunkSize_pos b dev hc
  obtain ⟨data, hrun, hlen, hvalues⟩ := @calcAll_spec b dev hc hd hvsz.le calls hcalls b.csumData rfl
    (fun _ => none) (csumValue (csumValueSize b.csumType) b.csumData) fun _ => rfl
  refine ⟨{ b with csumData := data }, hrun, hlen, fun j hj => ?_, fun bl stack hbl => ?_⟩
  · rw [lastData] at hj
    have hvalue := hvalues j
    rwa [hj] at hvalue
  · have hroom := @Dimensioned.room b dev hd hc (bOff.toNat / (b.chunkSize dev).toNat + n) (by
      rw [Nat.add_mul, Nat.div_mul_cancel hrange.offset]
      exact hrange.inside)
    have hn := hrange.pos
    have hidx : bOff.toNat / (b.chunkSize dev).toNat + 0 + n ≤ 2 ^ 32 := by
      have hdiv := Nat.div_le_self bOff.toNat (b.chunkSize dev).toNat
      have hle : n ≤ n * (b.chunkSize dev).toNat := Nat.le_mul_of_pos_right _ hpos
      have := hrange.inside
      have := b.logicalLength.toNat_lt
      omega
    have hloop := @verifyLoop_spec _ bOff bl data n 0 hidx
      (by rw [Nat.add_zero, ← hvsz, hlen]; exact hroom)
      (fun k hk => by
        have hle : (0 + k) * (b.chunkSize dev).toNat ≤ (n - 1) * (b.chunkSize dev).toNat :=
          Nat.mul_le_mul_right _ (by omega)
        omega)
      (fun k => lastCrc (b.chunkSize dev).toNat calls
        (bOff.toNat / (b.chunkSize dev).toNat + k))
      (fun k hk => by
        obtain ⟨d, hd'⟩ := hrange.written k hk
        have hvalue := hvalues (bOff.toNat / (b.chunkSize dev).toNat + k)
        rw [← lastData, hd', hvsz] at hvalue
        rw [Nat.zero_add, hvalue, lastCrc, hd']
        rfl) stack
    rw [@verifyCsum_eq dev bOff n { b with csumData := data } hc bl hn hbl, List.range_eq_range', hvsz]
    exact hloop

/-- What `verify_csum` answers for a buffer that has the given blocks. -/
theorem verify_blocks {b' : BlobT}
    (hb' : hasCsum b'.flags = true ∧ b'.chunkSize dev = b.chunkSize dev) (hn : 0 < n)
    (hverify : ∀ (bl : List UInt8) (stack : ℕ → UInt32),
      bl.length = n * (b.chunkSize dev).toNat → b'.verifyCsum bOff bl dev stack =
        some (report bOff.toNat (b.chunkSize dev).toNat ((List.range n).find? fun i =>
          blockCrc bl (b.chunkSize dev).toNat i !=
            lastCrc (b.chunkSize dev).toNat calls (bOff.toNat / (b.chunkSize dev).toNat + i))))
    {f : ℕ → List UInt8} (hf : ∀ i < n, (f i).length = (b.chunkSize dev).toNat)
    (stack : ℕ → UInt32) :
    ∃ bl, verifyLoop (csumValueSize b'.csumType) (b.chunkSize dev).toNat bOff bl b'.csumData stack n 0
      = some (report bOff.toNat (b.chunkSize dev).toNat ((List.range n).find? fun i =>
          calcCrc32 (f i) 0 !=
            lastCrc (b.chunkSize dev).toNat calls (bOff.toNat / (b.chunkSize dev).toNat + i))) ∧
      ∀ i < n, blockCrc bl (b.chunkSize dev).toNat i = calcCrc32 (f i) 0 := by
  obtain ⟨hlen, hblocks⟩ := blocks_spec f hf
  refine ⟨_, ?_, hblocks⟩
  have hres := hverify _ stack hlen
  have hfind : ((List.range n).find? fun i => blockCrc ((List.range n).flatMap f)
        (b.chunkSize dev).toNat i !=
          lastCrc (b.chunkSize dev).toNat calls (bOff.toNat / (b.chunkSize dev).toNat + i)) =
      (List.range n).find? fun i => calcCrc32 (f i) 0 !=
        lastCrc (b.chunkSize dev).toNat calls (bOff.toNat / (b.chunkSize dev).toNat + i) := by
    refine List.find?_congr fun i hi => ?_
    rw [hblocks i (List.mem_range.mp hi)]
  rwa [verifyCsum_eq hb'.1 hn (by rw [hlen, hb'.2]), hb'.2, hfind] at hres

/-- Nothing else does: with other sizes the answer depends on what the variable held, and a chunk
further up is reported at another offset. -/
theorem four_of_checks (hc : hasCsum b.flags = true) (hd : b.Dimensioned)
    (hcalls : ∀ c ∈ calls, CallFits b (b.chunkSize dev).toNat c)
    (hrange : RangeFits b (b.chunkSize dev).toNat calls bOff.toNat n)
    (h : Checks b dev calls bOff n) :
    csumValueSize b.csumType = 4 ∧ bOff.toNat + (n - 1) * (b.chunkSize dev).toNat < 2 ^ 31 := by
  have hpos := @chunkSize_pos b dev hc
  obtain ⟨b', hrun, -, -, hverify⟩ := h
  have h4 : csumValueSize b.csumType ≤ 4 := by
    by_contra hwide
    obtain ⟨d, hd'⟩ := hrange.written 0 hrange.pos
    rw [lastData, noteData_of_wide hc (not_le.mp hwide) hrun] at hd'
    cases hd'
  obtain ⟨data, hrun', hlen, -⟩ := @calcAll_spec b dev hc hd h4 calls hcalls b.csumData rfl
    (fun _ => none) (csumValue (csumValueSize b.csumType) b.csumData) fun _ => rfl
  obtain rfl := Option.some.inj (hrun.symm.trans hrun')
  -- The last data that each chunk of the range was given.
  have hf : ∀ i < n, ((lastData (b.chunkSize dev).toNat calls
      (bOff.toNat / (b.chunkSize dev).toNat + i)).getD []).length = (b.chunkSize dev).toNat := by
    intro i hi
    obtain ⟨d, hd'⟩ := hrange.written i hi
    rw [hd']
    exact length_lastData hcalls (fun _ _ hnone => by cases hnone) hd'
  -- The last chunk of the range is the one that will be given other data.
  obtain ⟨m, rfl⟩ : ∃ m, n = m + 1 := ⟨n - 1, by have := hrange.pos; omega⟩
  have hfits : bOff.toNat + (b.chunkSize dev).toNat ≤ b.logicalLength.toNat := by
    have := hrange.inside
    rw [Nat.succ_mul] at this
    omega
  have hoff : bOff.toNat < 2 ^ 32 - 1 := by
    have := b.logicalLength.toNat_lt
    omega
  have hblocks := fun f hf stack => @verify_blocks b dev calls bOff (m + 1)
    { b with csumData := data } ⟨hc, rfl⟩ hrange.pos hverify f hf stack
  -- With a narrower word the answer would be left to what the variable held.
  have hvsz : csumValueSize b.csumType = 4 := by
    by_contra hne
    have hroom := @Dimensioned.room b dev hd hc (bOff.toNat / (b.chunkSize dev).toNat + 1) (by
      rwa [Nat.add_mul, Nat.div_mul_cancel hrange.offset, Nat.one_mul])
    -- The data that was passed last is accepted whatever the variable held.
    have hstored : ∀ stack, storedCrc (csumValueSize b.csumType) data
        (csumIdx bOff (b.chunkSize dev).toNat 0) stack =
          some (lastCrc (b.chunkSize dev).toNat calls (bOff.toNat / (b.chunkSize dev).toNat)) := by
      intro stack
      obtain ⟨bl, hres, hcrcs⟩ := hblocks _ hf fun _ => stack
      rw [List.find?_eq_none.mpr (by simp [lastCrc])] at hres
      rw [storedCrc_of_verify hoff hres, hcrcs 0 (Nat.succ_pos _), Nat.add_zero]
      rfl
    have hlt : bOff.toNat / (b.chunkSize dev).toNat + 0 < 2 ^ 32 :=
      (Nat.div_le_self _ _).trans_lt (by omega)
    refine @storedCrc_short (csumValueSize b.csumType) _ _ (by omega) ?_
      ((hstored 0).trans (hstored 0xFFFFFFFF).symm)
    rw [csumIdx_eq hlt, Nat.add_zero, hlen, ← Nat.succ_mul]
    exact hroom
  refine ⟨hvsz, not_le.mp fun hge => ?_⟩
  -- A buffer whose last block is another one.
  have hne : (lastData (b.chunkSize dev).toNat calls
      (bOff.toNat / (b.chunkSize dev).toNat + m)).getD [] ≠ [] := by
    rw [← List.length_pos_iff, hf m (Nat.lt_succ_self m)]
    exact hpos
  obtain ⟨d, hlend, hcrcd⟩ := exists_other_crc hne
  obtain ⟨bl, hres, -⟩ := hblocks (fun i => if i = m then d else
      (lastData (b.chunkSize dev).toNat calls
        (bOff.toNat / (b.chunkSize dev).toNat + i)).getD []) (fun i hi => by
      split_ifs with him
      · rw [hlend, hf m (Nat.lt_succ_self m)]
      · exact hf i hi) fun _ => 0
  -- The first chunk that does not match is the last of the range.
  have hfind : ((List.range (m + 1)).find? fun i => calcCrc32 (if i = m then d else
      (lastData (b.chunkSize dev).toNat calls
        (bOff.toNat / (b.chunkSize dev).toNat + i)).getD []) 0 !=
      lastCrc (b.chunkSize dev).toNat calls (bOff.toNat / (b.chunkSize dev).toNat + i)) = some m := by
    rw [List.range_succ, List.find?_append, List.find?_eq_none.mpr, Option.none_or]
    · simpa [lastCrc] using hcrcd
    · intro i hi
      rw [if_neg (List.mem_range.mp hi).ne]
      simp [lastCrc]
  rw [hfind] at hres
  -- Its offset is returned as an `int`.
  have hint : ((bOff.toNat + m * (b.chunkSize dev).toNat : ℕ) : ℤ) < 2 ^ 31 := verifyLoop_lt hres
  rw [Nat.add_sub_cancel] at hge
  omega

/-- For any calls of `calc_csum` inside a blob with checksums, and a range of chunks for each of which
data was passed: the checksums check the range exactly when a checksum has four bytes and the last
chunk begins below 2 GiB. -/
theorem csum_checks_iff (hc : hasCsum b.flags = true) (hd : b.Dimensioned)
    (hcalls : ∀ c ∈ calls, CallFits b (b.chunkSize dev).toNat c)
    (hrange : RangeFits b (b.chunkSize dev).toNat calls bOff.toNat n) :
    Checks b dev calls bOff n ↔
      csumValueSize b.csumType = 4 ∧ bOff.toNat + (n - 1) * (b.chunkSize dev).toNat < 2 ^ 31 :=
  ⟨four_of_checks hc hd hcalls hrange,
    fun h => checks_of_four hc hd hcalls hrange h.1 h.2⟩

end

/-- A blob of two chunks of four bytes. -/
def smallChunks (csumType : UInt8) (csumData : List UInt8) : BlobT where
  logicalLength := 8
  flags := 4
  csumType := csumType
  csumChunkOrder := 2
  csumData := csumData

/-- The second of two chunks, with checksums of four bytes. -/
theorem csum_checks_small :
    Checks (smallChunks 4 [0, 0, 0, 0, 0, 0, 0, 0]) 4 [(4, [1, 2, 3, 4])] 4 1 := by
  have hcall : CallFits (smallChunks 4 [0, 0, 0, 0, 0, 0, 0, 0]) 4 (4, [1, 2, 3, 4]) :=
    ⟨by decide, by decide, by decide⟩
  have hdim : (smallChunks 4 [0, 0, 0, 0, 0, 0, 0, 0]).Dimensioned := by
    unfold Dimensioned
    decide
  refine (csum_checks_iff rfl hdim ?_ ?_).mpr ⟨rfl, by decide⟩
  · intro c hc
    obtain rfl := List.mem_singleton.mp hc
    exact hcall
  · refine ⟨by decide, by decide, by decide, fun i hi => ?_⟩
    obtain rfl := Nat.lt_one_iff.mp hi
    exact ⟨_, rfl⟩

/-- With checksums of two bytes, data is reported just after its checksum was stored. -/
theorem shortCsum_reports :
    ∃ b, (smallChunks 5 [0, 0, 0, 0]).calcCsum 4 [1, 2, 3, 4] 4 = some b ∧
      b.verifyCsum 4 [1, 2, 3, 4] 4 (fun _ => 0) = some 4 :=
  ⟨_, rfl, by decide +kernel⟩

end BlobT

end CxxLab.Bluestore.Object
