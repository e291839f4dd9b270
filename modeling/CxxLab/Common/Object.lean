import CxxLab.Lib.Codec

/-!
# Object names and their keys

`ghobject_t` of `common/object.h`, its order, and the key under which an onode is stored. A `char`
is signed, as it is on x86-64: the bytes from 128 on compare as negative numbers in
`append_escaped`. A `std::string` compares by unsigned bytes.

`decode_escaped` returns how much it has read as an `int`. A name whose escaped form has 2 GiB or
more is not read back (`keyDecodeObject_keyEncodeObject_iff`); two objects have one key only if they
are the same all the same (`keyEncodeObject_inj`).
-/

namespace CxxLab.Common

open Codec

/-- A `std::string`. -/
abbrev Str := List UInt8

/-- The bytes of a string as numbers: the order of strings, and of the keys of the store, is the
lexicographic order of these. -/
def Str.nums (s : Str) : List ℕ := s.map UInt8.toNat

/-- A string is known by the numbers of its bytes. -/
theorem Str.nums_inj {s t : Str} (h : s.nums = t.nums) : s = t :=
  List.map_injective_iff.mpr (fun _ _ h => UInt8.toNat_inj.mp h) h

/-- `ghobject_t`. -/
structure GhObject where
  /-- `pool`. -/
  pool : Int64 := Int64.minValue
  /-- `hash`. -/
  hash : UInt32 := 0
  /-- `nspace`. -/
  nspace : Str := []
  /-- `key`; empty when there is none. -/
  key : Str := []
  /-- `oid`: the name. -/
  oid : Str := []
  /-- `snap`. -/
  snap : UInt64 := 0
  /-- `generation`. -/
  generation : UInt64 := 0xFFFFFFFFFFFFFFFF
  /-- `shard_id`. -/
  shardId : UInt8 := 0xff
  /-- `max`. -/
  max : Bool := false
  deriving DecidableEq

namespace GhObject

/-- `get_max`. -/
def getMax : GhObject := { max := true }

/-- The objects that can be stored: not the one behind all others, and the name is not given twice,
which the constructor sees to. -/
structure Storable (o : GhObject) : Prop where
  /-- It is an object. -/
  max : o.max = false
  /-- A key that is the name itself is left out. -/
  key : o.key = o.oid → o.key = []

instance (o : GhObject) : Decidable o.Storable :=
  decidable_of_iff (o.max = false ∧ (o.key = o.oid → o.key = []))
    ⟨fun h => ⟨h.1, h.2⟩, fun h => ⟨h.max, h.key⟩⟩

/-- `get_key`. -/
def getKey (o : GhObject) : Str := if o.key = [] then o.oid else o.key

/-- One line of `reverse_bits`: neighbouring groups of `n` bits change places. -/
def swapBits (mask n v : UInt32) : UInt32 := ((v >>> n) &&& mask) ||| ((v &&& mask) <<< n)

/-- `reverse_bits`. -/
def reverseBits (v : UInt32) : UInt32 :=
  let v := swapBits 0x55555555 1 v
  let v := swapBits 0x33333333 2 v
  let v := swapBits 0x0f0f0f0f 4 v
  let v := swapBits 0x00ff00ff 8 v
  (v >>> 16) ||| (v <<< 16)

/-- `get_bitwise_key_u32`. -/
def getBitwiseKeyU32 (o : GhObject) : UInt32 := reverseBits o.hash

/-- `operator<`. -/
def lt (l r : GhObject) : Bool :=
  if l.max ≠ r.max then r.max
  else if l.max then false
  else if l.shardId ≠ r.shardId then l.shardId < r.shardId
  else if l.pool ≠ r.pool then l.pool < r.pool
  else if l.getBitwiseKeyU32 ≠ r.getBitwiseKeyU32 then l.getBitwiseKeyU32 < r.getBitwiseKeyU32
  else if l.nspace ≠ r.nspace then l.nspace.nums < r.nspace.nums
  else if l.getKey ≠ r.getKey then l.getKey.nums < r.getKey.nums
  else if l.oid ≠ r.oid then l.oid.nums < r.oid.nums
  else if l.snap ≠ r.snap then l.snap < r.snap
  else l.generation < r.generation

/-- `operator>=`. -/
def ge (l r : GhObject) : Bool := !l.lt r

/-! ## The order -/

/-- The fields that the order compares, in the order in which it compares them. -/
def fields (o : GhObject) : ℕ ×ₗ ℤ ×ₗ ℕ ×ₗ List ℕ ×ₗ List ℕ ×ₗ List ℕ ×ₗ ℕ ×ₗ ℕ :=
  toLex (o.shardId.toNat, toLex (o.pool.toInt, toLex (o.getBitwiseKeyU32.toNat,
    toLex (o.nspace.nums, toLex (o.getKey.nums, toLex (o.oid.nums,
      toLex (o.snap.toNat, o.generation.toNat)))))))

/-- Where an object is in the order: those with `max` are behind all others. -/
def rank (o : GhObject) : WithTop (ℕ ×ₗ ℤ ×ₗ ℕ ×ₗ List ℕ ×ₗ List ℕ ×ₗ List ℕ ×ₗ ℕ ×ₗ ℕ) :=
  if o.max then ⊤ else o.fields

/-- One comparison of a lexicographic order, through the numbers `f` of the fields. -/
theorem step_iff {α β γ : Type*} [DecidableEq α] [LinearOrder β] [LT γ] {f : α → β}
    (hf : Function.Injective f) {a b : α} {less rest : Bool} {c d : γ}
    (hless : less = true ↔ f a < f b) (hrest : rest = true ↔ c < d) :
    (if a ≠ b then less else rest) = true ↔ toLex (f a, c) < toLex (f b, d) := by
  rw [Prod.Lex.lt_iff]
  show _ ↔ f a < f b ∨ f a = f b ∧ c < d
  split_ifs with h
  · rw [hless]
    exact ⟨.inl, fun h' => h'.resolve_right fun h' => h (hf h'.1)⟩
  · rw [ne_eq, not_not] at h
    subst h
    rw [hrest]
    exact ⟨fun h' => .inr ⟨rfl, h'⟩, fun h' => (h'.resolve_left (lt_irrefl _)).2⟩

/-- `operator<` is a linear order of the ranks. -/
theorem lt_iff {l r : GhObject} : l.lt r = true ↔ l.rank < r.rank := by
  unfold lt rank
  cases hl : l.max with
  | true => cases hr : r.max <;> simp
  | false =>
    cases hr : r.max with
    | true => simp
    | false =>
      simp only [ne_eq, not_true_eq_false, if_false, Bool.false_eq_true, WithTop.coe_lt_coe]
      unfold fields
      refine step_iff (fun _ _ => UInt8.toNat_inj.mp) (by simp [UInt8.lt_iff_toNat_lt]) ?_
      refine step_iff (fun _ _ => Int64.toInt_inj.mp) (by simp [Int64.lt_iff_toInt_lt]) ?_
      refine step_iff (fun _ _ => UInt32.toNat_inj.mp) (by simp [UInt32.lt_iff_toNat_lt]) ?_
      refine step_iff (fun _ _ => Str.nums_inj) (by simp) ?_
      refine step_iff (fun _ _ => Str.nums_inj) (by simp) ?_
      refine step_iff (fun _ _ => Str.nums_inj) (by simp) ?_
      refine step_iff (fun _ _ => UInt64.toNat_inj.mp) (by simp [UInt64.lt_iff_toNat_lt]) ?_
      simp [UInt64.lt_iff_toNat_lt]

/-! ## Keys -/

/-- Whether a `char` is at most '#': the bytes from 128 on are negative. -/
def isLow (c : UInt8) : Bool := c.toInt8 ≤ 0x23

/-- Whether a `char` is at least '~'. -/
def isHigh (c : UInt8) : Bool := c.toInt8 ≥ 0x7e

/-- A digit of "0123456789abcdef". -/
def hexDigit (n : UInt8) : UInt8 := if n < 10 then 0x30 + n else 0x57 + n

/-- One byte of `append_escaped`. -/
def escapeByte (c : UInt8) : Str :=
  if isLow c then [0x23, hexDigit (c >>> 4), hexDigit (c &&& 0x0f)]
  else if isHigh c then [0x7e, hexDigit (c >>> 4), hexDigit (c &&& 0x0f)]
  else [c]

/-- `append_escaped`: what it appends. -/
def appendEscaped (s : Str) : Str := s.flatMap escapeByte ++ [0x21]

/-- The `w` low bytes of a number, most significant first. -/
def beBytes (w n : ℕ) : Str := (leBytes w n).reverse

/-- The number with the given bytes, most significant first. -/
def beNat (s : Str) : ℕ := leNat s.reverse

/-- `key_encode_u32`. -/
def keyEncodeU32 (u : UInt32) : Str := beBytes 4 u.toNat

/-- `key_encode_u64`. -/
def keyEncodeU64 (u : UInt64) : Str := beBytes 8 u.toNat

/-- `key_encode_prefix`. -/
def keyEncodePrefix (o : GhObject) : Str :=
  (o.shardId + 0x80) :: keyEncodeU64 (o.pool.toUInt64 + 0x8000000000000000) ++
    keyEncodeU32 o.getBitwiseKeyU32

/-- `ONODE_KEY_SUFFIX`. -/
def onodeKeySuffix : UInt8 := 0x6f

/-- `EXTENT_SHARD_KEY_SUFFIX`. -/
def extentShardKeySuffix : UInt8 := 0x78

/-- The part of a key that has the key and the name of the object. -/
def keyEncodeName (o : GhObject) : Str :=
  if o.getKey ≠ o.oid then
    appendEscaped o.getKey ++
      (if o.oid.nums < o.getKey.nums then 0x3e else 0x3c) :: appendEscaped o.oid
  else appendEscaped o.oid ++ [0x3d]

/-- `key_encode_object`. -/
def keyEncodeObject (o : GhObject) : Str :=
  keyEncodePrefix o ++ appendEscaped o.nspace ++ keyEncodeName o ++ keyEncodeU64 o.snap ++
    keyEncodeU64 o.generation ++ [onodeKeySuffix]

/-! ## Decoding -/

/-- The value of a hexadecimal digit. -/
def hexVal (c : UInt8) : Option UInt8 :=
  if 0x30 ≤ c ∧ c ≤ 0x39 then some (c - 0x30)
  else if 0x61 ≤ c ∧ c ≤ 0x66 then some (c - 0x61 + 10)
  else if 0x41 ≤ c ∧ c ≤ 0x46 then some (c - 0x41 + 10)
  else none

/-- The loop of `decode_escaped`: the string, and what is left from the terminator on. The byte
behind the end is zero. -/
def unescape : Str → Option (Str × Str)
  | [] => some ([], [])
  | c :: p =>
    if c = 0 ∨ c = 0x21 then some ([], c :: p)
    else if c = 0x23 ∨ c = 0x7e then
      match p with
      | h :: l :: p => do
        let h ← hexVal h
        let l ← hexVal l
        let r ← unescape p
        some (((h <<< 4) ||| l) :: r.1, r.2)
      | _ => none
    else (unescape p).map fun r => (c :: r.1, r.2)

/-- `decode_escaped`: the string, and what is left where the caller takes the terminator to be. What
was read is counted in an `int`: a negative count is an error, and the caller's `r + 1` overflows
with the largest one, which is an error here. -/
def decodeEscaped (p : Str) : Option (Str × Str) :=
  (unescape p).bind fun q =>
    let r := (Int32.ofNat (p.length - q.2.length)).toInt
    if 0 ≤ r ∧ r < 2 ^ 31 - 1 then some (q.1, p.drop r.toNat) else none

/-- The end of `key_decode_object`: the numbers behind the name, and the suffix. -/
def keyDecodeTail (o : GhObject) (p : Str) : Except ℤ GhObject :=
  let o := { o with
    snap := UInt64.ofNat (beNat (p.take 8))
    generation := UInt64.ofNat (beNat ((p.drop 8).take 8)) }
  match p.drop 16 with
  | [] => .error (-7)
  | c :: p => if c ≠ onodeKeySuffix then .error (-7)
    else if p.headD 0 ≠ 0 then .error (-8)
    else .ok o

/-- The middle of `key_decode_object`: the key and the name. -/
def keyDecodeName (o : GhObject) (p : Str) : Except ℤ GhObject :=
  match decodeEscaped p with
  | none => .error (-3)
  | some (k, p) =>
    let c := (p.drop 1).headD 0
    let p := p.drop 2
    if c = 0x3d then keyDecodeTail { o with key := [], oid := k } p
    else if c = 0x3c ∨ c = 0x3e then
      match decodeEscaped p with
      | none => .error (-5)
      | some (oid, p) => keyDecodeTail { o with key := k, oid := oid } (p.drop 1)
    else .error (-6)

/-- `key_decode_object`. -/
def keyDecodeObject (key : Str) : Except ℤ GhObject :=
  if key.length < 13 then .error (-1)
  else
    let o : GhObject :=
      { shardId := key.headD 0 - 0x80
        pool := (UInt64.ofNat (beNat ((key.drop 1).take 8)) - 0x8000000000000000).toInt64
        hash := reverseBits (UInt32.ofNat (beNat ((key.drop 9).take 4))) }
    match decodeEscaped (key.drop 13) with
    | none => .error (-2)
    | some (nspace, p) => keyDecodeName { o with nspace := nspace } (p.drop 1)

/-! ## What was encoded is decoded -/

/-- A byte that is escaped is read back. -/
theorem hexVal_hexDigit (c : UInt8) : hexVal (hexDigit (c >>> 4)) = some (c >>> 4) ∧
    hexVal (hexDigit (c &&& 0x0f)) = some (c &&& 0x0f) ∧ ((c >>> 4) <<< 4 ||| (c &&& 0x0f)) = c := by
  have h : ∀ n : Fin 256, hexVal (hexDigit (UInt8.ofFin n >>> 4)) = some (UInt8.ofFin n >>> 4) ∧
      hexVal (hexDigit (UInt8.ofFin n &&& 0x0f)) = some (UInt8.ofFin n &&& 0x0f) ∧
      ((UInt8.ofFin n >>> 4) <<< 4 ||| (UInt8.ofFin n &&& 0x0f)) = UInt8.ofFin n := by
    decide +kernel
  exact h c.toFin

/-- The bytes that are not escaped are neither the terminator nor the escapes. -/
theorem plain_of_not {c : UInt8} (hl : isLow c = false) (hh : isHigh c = false) :
    c ≠ 0 ∧ c ≠ 0x21 ∧ c ≠ 0x23 ∧ c ≠ 0x7e := by
  refine ⟨?_, ?_, ?_, ?_⟩
  · rintro rfl
    exact absurd hl (by decide)
  · rintro rfl
    exact absurd hl (by decide)
  · rintro rfl
    exact absurd hl (by decide)
  · rintro rfl
    exact absurd hh (by decide)

/-- Nothing in these bytes ends a name. -/
def Plain (t : Str) : Prop := ∀ c ∈ t, c ≠ 0 ∧ c ≠ 0x21

/-- A part of a plain string is plain. -/
theorem Plain.drop {t : Str} (h : Plain t) (n : ℕ) : Plain (t.drop n) :=
  fun c hc => h c (List.mem_of_mem_drop hc)

/-- Nothing in the escaped form of a name ends it. -/
theorem plain_flatMap_escapeByte (s : Str) : Plain (s.flatMap escapeByte) := by
  have h : ∀ n : Fin 256, ∀ c ∈ escapeByte (UInt8.ofFin n), c ≠ 0 ∧ c ≠ 0x21 := by
    decide +kernel
  intro c hc
  obtain ⟨b, -, hb⟩ := List.mem_flatMap.mp hc
  exact h b.toFin c hb

/-- What was escaped is read back, up to the terminator. -/
theorem unescape_appendEscaped (s rest : Str) :
    unescape (appendEscaped s ++ rest) = some (s, 0x21 :: rest) := by
  unfold appendEscaped
  rw [List.append_assoc]
  induction s with
  | nil =>
    rw [List.flatMap_nil, List.nil_append, List.singleton_append, unescape.eq_def]
    rfl
  | cons c s ih =>
    obtain ⟨h1, h2, h3⟩ := hexVal_hexDigit c
    rw [List.flatMap_cons, List.append_assoc]
    generalize s.flatMap escapeByte ++ ([0x21] ++ rest) = q at ih ⊢
    unfold escapeByte
    split_ifs with hl hh
    · simp [unescape, h1, h2, h3, ih]
    · simp [unescape, h1, h2, h3, ih]
    · obtain ⟨n0, n1, n2, n3⟩ := plain_of_not (by simpa using hl) (by simpa using hh)
      rw [List.singleton_append, unescape.eq_def]
      simp [n0, n1, n2, n3, ih]

/-- An escaped name, and what is behind it, are determined by the bytes. -/
theorem appendEscaped_append_inj {s t x y : Str} (h : appendEscaped s ++ x = appendEscaped t ++ y) :
    s = t ∧ x = y := by
  have hread := unescape_appendEscaped s x
  rw [h, unescape_appendEscaped] at hread
  simp only [Option.some.injEq, Prod.mk.injEq, List.cons.injEq, true_and] at hread
  exact ⟨hread.1.symm, hread.2.symm⟩

/-- Wherever the loop begins before a terminator, it ends there. -/
theorem unescape_plain {t rest k q : Str} (ht : Plain t)
    (h : unescape (t ++ 0x21 :: rest) = some (k, q)) : q = 0x21 :: rest := by
  have hstop : hexVal 0x21 = none := by decide
  induction t using unescape.induct generalizing k with
  | case1 =>
    rw [List.nil_append, unescape.eq_def] at h
    exact (congrArg Prod.snd (Option.some.inj h)).symm
  | case2 c p hc =>
    obtain ⟨h0, h1⟩ := ht c List.mem_cons_self
    exact (hc.elim h0 h1).elim
  | case3 c hc hesc x y p ih =>
    rw [List.cons_append, List.cons_append, List.cons_append, unescape, if_neg hc, if_pos hesc] at h
    cases hx : hexVal x with
    | none => simp [hx] at h
    | some x' =>
      cases hy : hexVal y with
      | none => simp [hx, hy] at h
      | some y' =>
        simp only [hx, hy, Option.bind_eq_bind, Option.bind_some, Option.bind_eq_some_iff,
          Option.some.injEq, Prod.mk.injEq] at h
        obtain ⟨⟨k', q'⟩, hr, -, rfl⟩ := h
        exact ih (fun c hc => ht c (by simp [hc])) hr
  | case4 c p hc hesc hshort =>
    -- The escape takes the terminator for a digit.
    rw [List.cons_append, unescape.eq_def] at h
    dsimp only at h
    rw [if_neg hc, if_pos hesc] at h
    match p, hshort with
    | [], _ =>
      cases rest with
      | nil => cases h
      | cons l rest => simp [hstop] at h
    | [x], _ => simp [hstop] at h
    | x :: y :: p, hshort => exact absurd rfl (hshort x y p)
  | case5 c p hc hesc ih =>
    rw [List.cons_append, unescape.eq_def] at h
    dsimp only at h
    rw [if_neg hc, if_neg hesc] at h
    obtain ⟨⟨k', q'⟩, hr, hq⟩ := Option.map_eq_some_iff.mp h
    obtain rfl : q' = q := congrArg Prod.snd hq
    exact ih (fun c hc => ht c (List.mem_cons_of_mem _ hc)) hr

/-! ## Long names -/

/-- What is left of a count of bytes in an `int`. -/
theorem int32_ofNat_inRange (n : ℕ) :
    (0 ≤ (Int32.ofNat n).toInt ∧ (Int32.ofNat n).toInt < 2 ^ 31 - 1 ↔ n % 2 ^ 32 < 2 ^ 31 - 1) ∧
      (n % 2 ^ 32 < 2 ^ 31 - 1 → (Int32.ofNat n).toInt.toNat = n % 2 ^ 32) := by
  rw [Int32.toInt_ofNat', Int.bmod_def, show Int32.size = 2 ^ 32 from rfl]
  split_ifs <;> omega

/-- What `decode_escaped` makes of the bytes before a terminator. -/
theorem decodeEscaped_plain {t : Str} (ht : Plain t) (rest : Str) :
    decodeEscaped (t ++ 0x21 :: rest) = (unescape (t ++ 0x21 :: rest)).bind fun q =>
      if t.length % 2 ^ 32 < 2 ^ 31 - 1 then
        some (q.1, (t ++ 0x21 :: rest).drop (t.length % 2 ^ 32))
      else none := by
  unfold decodeEscaped
  cases h : unescape (t ++ 0x21 :: rest) with
  | none => rfl
  | some q =>
    have hq : q.2 = 0x21 :: rest := unescape_plain ht h
    have hcount : (t ++ 0x21 :: rest).length - q.2.length = t.length := by
      rw [hq, List.length_append, Nat.add_sub_cancel]
    obtain ⟨hiff, heq⟩ := int32_ofNat_inRange t.length
    simp only [Option.bind_some, hcount, hiff]
    split_ifs with hlt
    · rw [heq hlt]
    · rfl

/-- A name of less than 2 GiB is read back, up to the terminator. -/
theorem decodeEscaped_appendEscaped {s : Str} (h : (appendEscaped s).length < 2 ^ 31)
    (rest : Str) : decodeEscaped (appendEscaped s ++ rest) = some (s, 0x21 :: rest) := by
  have hread := unescape_appendEscaped s rest
  unfold appendEscaped at h hread ⊢
  rw [List.length_append, List.length_singleton] at h
  rw [List.append_assoc, List.singleton_append] at hread ⊢
  have hmod : (s.flatMap escapeByte).length % 2 ^ 32 = (s.flatMap escapeByte).length :=
    Nat.mod_eq_of_lt (by omega)
  rw [decodeEscaped_plain (plain_flatMap_escapeByte s), hread, Option.bind_some, hmod,
    if_pos (by omega), List.drop_left]

/-- A count that is negative as an `int`, or its largest value, is an error. -/
theorem decodeEscaped_eq_none {t : Str} (ht : Plain t) (rest : Str)
    (h : 2 ^ 31 - 1 ≤ t.length % 2 ^ 32) : decodeEscaped (t ++ 0x21 :: rest) = none := by
  rw [decodeEscaped_plain ht]
  cases unescape (t ++ 0x21 :: rest) with
  | none => rfl
  | some q => exact if_neg (by omega)

/-- From a longer name the caller goes on, if at all, inside the name, with a multiple of 4 GiB of it
still before the terminator. -/
theorem decodeEscaped_long {s : Str} (h : 2 ^ 31 ≤ (appendEscaped s).length) {rest k p : Str}
    (hp : decodeEscaped (appendEscaped s ++ rest) = some (k, p)) :
    ∃ t, p = t ++ 0x21 :: rest ∧ Plain t ∧ t.length % 2 ^ 32 = 0 ∧ 2 ^ 32 ≤ t.length := by
  have hread := unescape_appendEscaped s rest
  unfold appendEscaped at h hp hread
  rw [List.length_append, List.length_singleton] at h
  rw [List.append_assoc, List.singleton_append] at hread hp
  generalize ht : s.flatMap escapeByte = e at *
  have he : Plain e := ht ▸ plain_flatMap_escapeByte s
  rw [decodeEscaped_plain he, hread, Option.bind_some] at hp
  split_ifs at hp with hlt
  obtain rfl := congrArg Prod.snd (Option.some.inj hp)
  refine ⟨e.drop (e.length % 2 ^ 32), List.drop_append_of_le_length (Nat.mod_le _ _),
    he.drop _, ?_, ?_⟩
  · rw [List.length_drop]
    omega
  · rw [List.length_drop]
    omega

/-- A number of `w` bytes is written in `w` bytes. -/
@[simp] theorem length_beBytes (w n : ℕ) : (beBytes w n).length = w := by
  simp [beBytes]

/-- A number that fits is read back. -/
theorem beNat_beBytes (w n : ℕ) : beNat (beBytes w n) = n % 256 ^ w := by
  unfold beNat beBytes
  rw [List.reverse_reverse, leNat_leBytes]

/-- `reverse_bits` turns the bits around. -/
theorem getLsbD_reverseBits (v : UInt32) {i : ℕ} (h : i < 32) :
    (reverseBits v).toBitVec.getLsbD i = v.toBitVec.getLsbD (31 - i) := by
  unfold reverseBits swapBits
  interval_cases i <;> simp

/-- Bits that are reversed twice are as before. -/
theorem reverseBits_reverseBits (v : UInt32) : reverseBits (reverseBits v) = v := by
  rw [← UInt32.toBitVec_inj]
  refine BitVec.eq_of_getLsbD_eq fun i h => ?_
  rw [getLsbD_reverseBits _ h, getLsbD_reverseBits _ (by omega)]
  congr 1
  omega

/-- What is written is read back. -/
theorem ofNat_beNat_keyEncodeU64 (u : UInt64) : UInt64.ofNat (beNat (keyEncodeU64 u)) = u := by
  rw [keyEncodeU64, beNat_beBytes, Nat.mod_eq_of_lt (lt_of_lt_of_eq u.toNat_lt (by norm_num))]
  exact UInt64.ofNat_toNat

/-- What is written is read back. -/
theorem ofNat_beNat_keyEncodeU32 (u : UInt32) : UInt32.ofNat (beNat (keyEncodeU32 u)) = u := by
  rw [keyEncodeU32, beNat_beBytes, Nat.mod_eq_of_lt (lt_of_lt_of_eq u.toNat_lt (by norm_num))]
  exact UInt32.ofNat_toNat

/-- Eight bytes. -/
@[simp] theorem length_keyEncodeU64 (u : UInt64) : (keyEncodeU64 u).length = 8 :=
  length_beBytes _ _

/-- Four bytes. -/
@[simp] theorem length_keyEncodeU32 (u : UInt32) : (keyEncodeU32 u).length = 4 :=
  length_beBytes _ _

/-- The numbers behind the name and the suffix are read back. -/
theorem keyDecodeTail_keyEncode (o : GhObject) (snap generation : UInt64) :
    keyDecodeTail o (keyEncodeU64 snap ++ keyEncodeU64 generation ++ [onodeKeySuffix]) =
      .ok { o with snap := snap, generation := generation } := by
  unfold keyDecodeTail
  have h1 : (keyEncodeU64 snap ++ keyEncodeU64 generation ++ [onodeKeySuffix]).take 8 =
      keyEncodeU64 snap := by
    rw [List.append_assoc, List.take_left' (length_keyEncodeU64 snap)]
  have h2 : ((keyEncodeU64 snap ++ keyEncodeU64 generation ++ [onodeKeySuffix]).drop 8).take 8 =
      keyEncodeU64 generation := by
    rw [List.append_assoc, List.drop_left' (length_keyEncodeU64 snap),
      List.take_left' (length_keyEncodeU64 generation)]
  have h3 : (keyEncodeU64 snap ++ keyEncodeU64 generation ++ [onodeKeySuffix]).drop 16 =
      [onodeKeySuffix] := List.drop_left' (by simp)
  simp only [h1, h2, h3, ofNat_beNat_keyEncodeU64, ne_eq, not_true_eq_false, if_false,
    List.headD_nil]

/-- The prefix of a key has 13 bytes. -/
@[simp] theorem length_keyEncodePrefix (o : GhObject) : (keyEncodePrefix o).length = 13 := by
  simp [keyEncodePrefix]

/-- The fields of the prefix are read back. -/
theorem keyDecodePrefix_keyEncodePrefix (o : GhObject) (rest : Str) :
    (keyEncodePrefix o ++ rest).headD 0 - 0x80 = o.shardId ∧
      (UInt64.ofNat (beNat (((keyEncodePrefix o ++ rest).drop 1).take 8)) -
        0x8000000000000000).toInt64 = o.pool ∧
      reverseBits (UInt32.ofNat (beNat (((keyEncodePrefix o ++ rest).drop 9).take 4))) = o.hash := by
  have h1 : ((keyEncodePrefix o ++ rest).drop 1).take 8 =
      keyEncodeU64 (o.pool.toUInt64 + 0x8000000000000000) := by
    unfold keyEncodePrefix
    rw [List.cons_append, List.cons_append, List.drop_one, List.tail_cons, List.append_assoc,
      List.take_left' (length_keyEncodeU64 _)]
  have h2 : ((keyEncodePrefix o ++ rest).drop 9).take 4 = keyEncodeU32 o.getBitwiseKeyU32 := by
    unfold keyEncodePrefix
    rw [List.append_assoc, List.drop_left' (by simp),
      List.take_left' (length_keyEncodeU32 _)]
  refine ⟨?_, ?_, ?_⟩
  · show o.shardId + 0x80 - 0x80 = o.shardId
    exact UInt8.add_sub_cancel _ _
  · rw [h1, ofNat_beNat_keyEncodeU64, UInt64.add_sub_cancel]
    exact Int64.toInt64_toUInt64 o.pool
  · rw [h2, ofNat_beNat_keyEncodeU32]
    exact reverseBits_reverseBits o.hash

/-- The names of an object take less than 2 GiB each in its key, with their terminators. -/
structure Short (o : GhObject) : Prop where
  /-- The namespace. -/
  nspace : (appendEscaped o.nspace).length < 2 ^ 31
  /-- The key. -/
  getKey : (appendEscaped o.getKey).length < 2 ^ 31
  /-- The name. -/
  oid : (appendEscaped o.oid).length < 2 ^ 31

instance (o : GhObject) : Decidable o.Short :=
  decidable_of_iff ((appendEscaped o.nspace).length < 2 ^ 31 ∧
    (appendEscaped o.getKey).length < 2 ^ 31 ∧ (appendEscaped o.oid).length < 2 ^ 31)
    ⟨fun h => ⟨h.1, h.2.1, h.2.2⟩, fun h => ⟨h.nspace, h.getKey, h.oid⟩⟩

/-- What a key has behind its names. -/
def encodedNumbers (o : GhObject) : Str :=
  keyEncodeU64 o.snap ++ keyEncodeU64 o.generation ++ [onodeKeySuffix]

/-- The parts of a key. -/
theorem keyEncodeObject_eq (o : GhObject) : keyEncodeObject o =
    keyEncodePrefix o ++ (appendEscaped o.nspace ++ (keyEncodeName o ++ encodedNumbers o)) := by
  simp only [keyEncodeObject, encodedNumbers, List.append_assoc]

/-- A key that is there, and is not the name, is what `get_key` returns. -/
theorem Storable.getKey_eq {o : GhObject} (h : o.Storable) :
    o.getKey = o.oid ∧ o.key = [] ∨ o.getKey ≠ o.oid ∧ o.getKey = o.key := by
  by_cases hnil : o.key = []
  · exact .inl ⟨if_pos hnil, hnil⟩
  · have hget : o.getKey = o.key := if_neg hnil
    exact .inr ⟨fun heq => hnil (h.key (hget.symm.trans heq)), hget⟩

/-- The mark between a key and a name is not that of a name alone. -/
theorem marks_differ (o : GhObject) :
    ∃ c : UInt8, (if o.oid.nums < o.getKey.nums then (0x3e : UInt8) else 0x3c) = c ∧ c ≠ 0x3d ∧
      (c = 0x3c ∨ c = 0x3e) := by
  split_ifs
  · exact ⟨0x3e, rfl, by decide, .inr rfl⟩
  · exact ⟨0x3c, rfl, by decide, .inl rfl⟩

/-- The key and the name, and what is behind them, are read back. -/
theorem keyDecodeName_keyEncodeName {o o' : GhObject} (h : o.Storable) (hs : o.Short) :
    keyDecodeName o' (keyEncodeName o ++ encodedNumbers o) =
      .ok { o' with key := o.key, oid := o.oid, snap := o.snap, generation := o.generation } := by
  unfold keyDecodeName keyEncodeName encodedNumbers
  rcases h.getKey_eq with ⟨hk, hkey⟩ | ⟨hk, hkey⟩
  · rw [if_neg (not_not.mpr hk), List.append_assoc, decodeEscaped_appendEscaped hs.oid, hkey]
    exact keyDecodeTail_keyEncode _ _ _
  · obtain ⟨c, hc, hne, hmark⟩ := marks_differ o
    rw [if_pos hk, hc, List.append_assoc, decodeEscaped_appendEscaped hs.getKey, hkey]
    simp only [List.drop_succ_cons, List.drop_zero, List.cons_append, List.headD_cons]
    rw [if_neg hne, if_pos hmark, decodeEscaped_appendEscaped hs.oid]
    exact keyDecodeTail_keyEncode _ _ _

/-- No suffix is found inside a name. -/
theorem keyDecodeTail_plain (o : GhObject) {t : Str} (ht : Plain t) (h : 18 ≤ t.length)
    (rest : Str) : ∃ r, keyDecodeTail o (t ++ rest) = .error r := by
  have hlen : (t.drop 16).length = t.length - 16 := List.length_drop
  obtain ⟨c, d, u, hu⟩ : ∃ c d u, t.drop 16 = c :: d :: u := by
    rcases hu : t.drop 16 with _ | ⟨c, _ | ⟨d, u⟩⟩
    · rw [hu, List.length_nil] at hlen
      omega
    · rw [hu, List.length_singleton] at hlen
      omega
    · exact ⟨c, d, u, rfl⟩
  have hd : d ≠ 0 := (ht.drop 16 d (by simp [hu])).1
  have hdrop : (t ++ rest).drop 16 = c :: d :: (u ++ rest) := by
    rw [List.drop_append_of_le_length (by omega), hu, List.cons_append, List.cons_append]
  unfold keyDecodeTail
  rw [hdrop]
  dsimp only
  split_ifs with hsuffix hend
  · exact ⟨_, rfl⟩
  · exact ⟨_, rfl⟩
  · exact absurd hd hend

/-- A long key, or a long name, is not read back. -/
theorem keyDecodeName_long (o : GhObject) {o' : GhObject}
    (h : ¬((appendEscaped o.getKey).length < 2 ^ 31 ∧ (appendEscaped o.oid).length < 2 ^ 31)) :
    ∃ r, keyDecodeName o' (keyEncodeName o ++ encodedNumbers o) = .error r := by
  obtain ⟨tail, htail⟩ : ∃ tail, keyEncodeName o ++ encodedNumbers o =
      appendEscaped o.getKey ++ tail := by
    unfold keyEncodeName
    by_cases hk : o.getKey = o.oid
    · rw [if_neg (not_not.mpr hk), hk]
      exact ⟨_, List.append_assoc _ _ _⟩
    · rw [if_pos hk]
      exact ⟨_, List.append_assoc _ _ _⟩
  by_cases hkey : (appendEscaped o.getKey).length < 2 ^ 31
  · have hoid : 2 ^ 31 ≤ (appendEscaped o.oid).length := not_lt.mp fun hlt => h ⟨hkey, hlt⟩
    have hk : o.getKey ≠ o.oid := fun heq => by
      rw [heq] at hkey
      omega
    obtain ⟨c, hc, hne, hmark⟩ := marks_differ o
    unfold keyDecodeName keyEncodeName
    rw [if_pos hk, hc, List.append_assoc, decodeEscaped_appendEscaped hkey]
    simp only [List.drop_succ_cons, List.drop_zero, List.cons_append, List.headD_cons]
    rw [if_neg hne, if_pos hmark]
    cases hd : decodeEscaped (appendEscaped o.oid ++ encodedNumbers o) with
    | none => exact ⟨_, rfl⟩
    | some q =>
      obtain ⟨t, ht, hplain, -, hlen⟩ := decodeEscaped_long hoid hd
      dsimp only
      rw [ht, List.drop_append_of_le_length (by omega)]
      exact keyDecodeTail_plain _ (hplain.drop 1) (by rw [List.length_drop]; omega) _
  · rw [htail]
    unfold keyDecodeName
    cases hd : decodeEscaped (appendEscaped o.getKey ++ tail) with
    | none => exact ⟨_, rfl⟩
    | some q =>
      -- What follows is looked for inside the key.
      obtain ⟨t, ht, hplain, hmod, hlen⟩ := decodeEscaped_long (not_lt.mp hkey) hd
      have hrest : q.2.drop 2 = t.drop 2 ++ 0x21 :: tail := by
        rw [ht, List.drop_append_of_le_length (by omega)]
      dsimp only
      rw [hrest]
      split_ifs
      · exact keyDecodeTail_plain _ (hplain.drop 2) (by rw [List.length_drop]; omega) _
      · rw [decodeEscaped_eq_none (hplain.drop 2) _ (by rw [List.length_drop]; omega)]
        exact ⟨_, rfl⟩
      · exact ⟨_, rfl⟩

/-- An object is read back from its key if, and only if, its names are short. -/
theorem keyDecodeObject_keyEncodeObject_iff {o : GhObject} (h : o.Storable) {o' : GhObject} :
    keyDecodeObject (keyEncodeObject o) = .ok o' ↔ o.Short ∧ o' = o := by
  obtain ⟨hs, hp, hh⟩ := keyDecodePrefix_keyEncodePrefix o (appendEscaped o.nspace ++
    (keyEncodeName o ++ encodedNumbers o))
  have hmax := h.max
  unfold keyDecodeObject
  rw [keyEncodeObject_eq, hs, hp, hh, if_neg (by simp), List.drop_left' (length_keyEncodePrefix o)]
  dsimp only
  by_cases hn : (appendEscaped o.nspace).length < 2 ^ 31
  · rw [decodeEscaped_appendEscaped hn]
    dsimp only
    rw [List.drop_one, List.tail_cons]
    by_cases hname : (appendEscaped o.getKey).length < 2 ^ 31 ∧
        (appendEscaped o.oid).length < 2 ^ 31
    · have hshort : o.Short := ⟨hn, hname.1, hname.2⟩
      rw [keyDecodeName_keyEncodeName h hshort, and_iff_right hshort, Except.ok.injEq, eq_comm]
      refine Eq.congr_right ?_
      cases o
      simp_all
    · obtain ⟨r, hr⟩ := keyDecodeName_long o hname
      rw [hr]
      exact iff_of_false (fun h => nomatch h) fun h => hname ⟨h.1.getKey, h.1.oid⟩
  · refine iff_of_false (fun hok => ?_) fun h => hn h.1.nspace
    cases hd : decodeEscaped (appendEscaped o.nspace ++ (keyEncodeName o ++ encodedNumbers o)) with
    | none =>
      rw [hd] at hok
      cases hok
    | some q =>
      -- The next name is what is left of the namespace.
      obtain ⟨t, ht, hplain, hmod, hlen⟩ := decodeEscaped_long (not_lt.mp hn) hd
      rw [hd] at hok
      dsimp only at hok
      rw [ht, List.drop_append_of_le_length (by omega), keyDecodeName,
        decodeEscaped_eq_none (hplain.drop 1) _ (by rw [List.length_drop]; omega)] at hok
      cases hok

/-- The prefix determines its fields. -/
theorem keyEncodePrefix_inj {o o' : GhObject} (h : keyEncodePrefix o = keyEncodePrefix o') :
    o.shardId = o'.shardId ∧ o.pool = o'.pool ∧ o.hash = o'.hash := by
  obtain ⟨hs, hp, hh⟩ := keyDecodePrefix_keyEncodePrefix o []
  obtain ⟨hs', hp', hh'⟩ := keyDecodePrefix_keyEncodePrefix o' []
  rw [h] at hs hp hh
  exact ⟨hs.symm.trans hs', hp.symm.trans hp', hh.symm.trans hh'⟩

/-- The numbers behind the names are determined by their bytes. -/
theorem encodedNumbers_inj {o o' : GhObject} (h : encodedNumbers o = encodedNumbers o') :
    o.snap = o'.snap ∧ o.generation = o'.generation := by
  have htail := keyDecodeTail_keyEncode {} o.snap o.generation
  rw [show keyEncodeU64 o.snap ++ keyEncodeU64 o.generation ++ [onodeKeySuffix] =
    keyEncodeU64 o'.snap ++ keyEncodeU64 o'.generation ++ [onodeKeySuffix] from h,
    keyDecodeTail_keyEncode] at htail
  simp only [Except.ok.injEq, GhObject.mk.injEq] at htail
  exact ⟨htail.2.2.2.2.2.1.symm, htail.2.2.2.2.2.2.1.symm⟩

/-- The key and the name are determined by their bytes, also with the numbers behind them. -/
theorem keyEncodeName_inj {o o' : GhObject} (h : o.Storable) (h' : o'.Storable)
    (heq : keyEncodeName o ++ encodedNumbers o = keyEncodeName o' ++ encodedNumbers o') :
    o.key = o'.key ∧ o.oid = o'.oid ∧ encodedNumbers o = encodedNumbers o' := by
  obtain ⟨c, hc, hne, -⟩ := marks_differ o
  obtain ⟨c', hc', hne', -⟩ := marks_differ o'
  unfold keyEncodeName at heq
  rw [hc, hc'] at heq
  rcases h.getKey_eq with ⟨hk, hkey⟩ | ⟨hk, hkey⟩ <;>
    rcases h'.getKey_eq with ⟨hk', hkey'⟩ | ⟨hk', hkey'⟩
  · rw [if_neg (not_not.mpr hk), if_neg (not_not.mpr hk'), List.append_assoc,
      List.append_assoc] at heq
    obtain ⟨hoid, hrest⟩ := appendEscaped_append_inj heq
    exact ⟨hkey.trans hkey'.symm, hoid, (List.cons.inj hrest).2⟩
  · rw [if_neg (not_not.mpr hk), if_pos hk', List.append_assoc, List.append_assoc] at heq
    exact absurd (List.cons.inj (appendEscaped_append_inj heq).2).1.symm hne'
  · rw [if_pos hk, if_neg (not_not.mpr hk'), List.append_assoc, List.append_assoc] at heq
    exact absurd (List.cons.inj (appendEscaped_append_inj heq).2).1 hne
  · rw [if_pos hk, if_pos hk', List.append_assoc, List.append_assoc] at heq
    obtain ⟨hget, hrest⟩ := appendEscaped_append_inj heq
    obtain ⟨hoid, hnumbers⟩ := appendEscaped_append_inj (List.cons.inj hrest).2
    exact ⟨hkey.symm.trans (hget.trans hkey'), hoid, hnumbers⟩

/-- Distinct objects have distinct keys, however long their names are. -/
theorem keyEncodeObject_inj {o o' : GhObject} (h : o.Storable) (h' : o'.Storable)
    (heq : keyEncodeObject o = keyEncodeObject o') : o = o' := by
  rw [keyEncodeObject_eq, keyEncodeObject_eq] at heq
  obtain ⟨hhead, hnames⟩ := List.append_inj heq (by simp)
  obtain ⟨hnspace, hname⟩ := appendEscaped_append_inj hnames
  obtain ⟨hkey, hoid, hnumbers⟩ := keyEncodeName_inj h h' hname
  obtain ⟨hshard, hpool, hhash⟩ := keyEncodePrefix_inj hhead
  obtain ⟨hsnap, hgen⟩ := encodedNumbers_inj hnumbers
  have hmax := h.max.trans h'.max.symm
  cases o
  cases o'
  simp_all

end GhObject

end CxxLab.Common
