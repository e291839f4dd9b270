import CxxLab.Common.Object
import CxxLab.Lib.LexOrder

/-!
# The order of object keys

Objects are listed in the order of their keys, which is the order of unsigned bytes, and bounds of a
listing are compared with `operator<`. The two orders agree on the numbers of an object, which are
stored with the most significant byte first, and on names of plain characters. They differ in three
places. `append_escaped` compares a `char`, so that the bytes from 128 on are escaped with '#' and
come before the characters from '$' on. `key_encode_shard` adds 128 to an unsigned number, which
turns the upper half of the shards, with `NO_SHARD`, before the lower one. And of the objects with
one key, those with a name above it are marked with '<'.
-/

namespace CxxLab.Common.GhObject

open Codec LexOrder

/-! ## What was encoded is decoded -/

/-- The object as the constructor makes it: a key that is the name is left out. -/
def constructed (o : GhObject) : GhObject := if o.key = o.oid then { o with key := [] } else o

/-- What the constructor makes can be stored. -/
theorem storable_constructed {o : GhObject} (h : o.max = false) : o.constructed.Storable := by
  unfold constructed
  split_ifs with hk
  · exact ⟨h, fun _ => rfl⟩
  · exact ⟨h, fun h => absurd h hk⟩

/-- The constructor leaves the key of an object. -/
theorem keyEncodeObject_constructed (o : GhObject) :
    keyEncodeObject o.constructed = keyEncodeObject o := by
  unfold constructed
  split_ifs with hk
  · have hget : GhObject.getKey { o with key := [] } = o.getKey := by
      unfold getKey
      split_ifs <;> simp_all
    unfold keyEncodeObject keyEncodeName
    rw [hget]
    rfl
  · rfl

/-- The constructor leaves what `get_key` answers. -/
theorem getKey_constructed (o : GhObject) : o.constructed.getKey = o.getKey := by
  unfold constructed
  split_ifs with hk
  · unfold getKey
    split_ifs <;> simp_all
  · rfl

/-- The constructor leaves the lengths of the names. -/
theorem short_constructed {o : GhObject} : o.constructed.Short ↔ o.Short := by
  have hnspace : o.constructed.nspace = o.nspace := by
    unfold constructed
    split_ifs <;> rfl
  have hoid : o.constructed.oid = o.oid := by
    unfold constructed
    split_ifs <;> rfl
  have hget := getKey_constructed o
  exact ⟨fun h => ⟨hnspace ▸ h.nspace, hget ▸ h.getKey, hoid ▸ h.oid⟩,
    fun h => ⟨hnspace ▸ h.nspace, hget ▸ h.getKey, hoid ▸ h.oid⟩⟩

/-- An object is read back from its key exactly when its names take less than 2 GiB each; two objects
with one key are the same. -/
theorem object_key_round_trips_iff (o : GhObject) (h : o.max = false) :
    (keyDecodeObject (keyEncodeObject o) = .ok o.constructed ↔ o.Short) ∧
      ∀ o' : GhObject, o'.max = false → keyEncodeObject o = keyEncodeObject o' →
        o.constructed = o'.constructed := by
  have hd := @keyDecodeObject_keyEncodeObject_iff _ (storable_constructed h) o.constructed
  rw [keyEncodeObject_constructed, short_constructed, and_iff_left rfl] at hd
  refine ⟨hd, fun o' h' heq => keyEncodeObject_inj (storable_constructed h)
    (storable_constructed h') ?_⟩
  rw [keyEncodeObject_constructed, keyEncodeObject_constructed, heq]

/-- An object whose strings have bytes of every kind, in a negative pool. -/
def oddObject : GhObject :=
  { pool := -5, hash := 0x80000001, nspace := [0, 0x21, 0xff], key := [0x7e, 0x23], oid := [0x3c],
    snap := 7, shardId := 3 }

/-- The odd object has short names. -/
theorem object_key_round_trips_iff_oddObject :
    (keyDecodeObject (keyEncodeObject oddObject) = .ok oddObject ↔ oddObject.Short) ∧
      ∀ o' : GhObject, o'.max = false → keyEncodeObject oddObject = keyEncodeObject o' →
        oddObject.constructed = o'.constructed :=
  object_key_round_trips_iff oddObject (by decide)

/-- An object whose namespace is `n` zero bytes. -/
def zeros (n : ℕ) : GhObject := { pool := 1, nspace := List.replicate n 0, oid := [0x61] }

/-- The escaped form of 715827883 zero bytes has 2 GiB and one byte: `decode_escaped` returns a negative
number. -/
theorem zeros_not_read :
    ¬ keyDecodeObject (keyEncodeObject (zeros 715827883)) = .ok (zeros 715827883).constructed := by
  obtain ⟨n, hn⟩ : ∃ n, n = 715827883 := ⟨_, rfl⟩
  have hlen : (appendEscaped (zeros n).nspace).length = 3 * n + 1 := by
    have hbyte : escapeByte 0 = [0x23, 0x30, 0x30] := by decide
    simp [appendEscaped, zeros, List.length_flatMap, hbyte, mul_comm]
  have hiff := (object_key_round_trips_iff (zeros n) rfl).1
  rw [← hn, hiff]
  intro hshort
  have := hshort.nspace
  omega

/-! ## Escaped strings -/

/-- Where a byte comes in the order of escaped bytes: first those that are escaped with '#', then
the plain ones, then those that are escaped with '~'. -/
def escapeRank (c : UInt8) : ℕ :=
  if isLow c then c.toNat else if isHigh c then 0x200 + c.toNat else 0x100 + c.toNat

/-- The kinds of bytes. -/
theorem isLow_iff (c : UInt8) : isLow c = true ↔ c.toNat ≤ 0x23 ∨ 0x80 ≤ c.toNat := by
  have h : ∀ n : Fin 256, isLow (UInt8.ofFin n) = true ↔
      (UInt8.ofFin n).toNat ≤ 0x23 ∨ 0x80 ≤ (UInt8.ofFin n).toNat := by decide +kernel
  exact h c.toFin

/-- The bytes from '~' on that are not negative as a `char`. -/
theorem isHigh_iff (c : UInt8) : isHigh c = true ↔ 0x7e ≤ c.toNat ∧ c.toNat < 0x80 := by
  have h : ∀ n : Fin 256, isHigh (UInt8.ofFin n) = true ↔
      0x7e ≤ (UInt8.ofFin n).toNat ∧ (UInt8.ofFin n).toNat < 0x80 := by decide +kernel
  exact h c.toFin

/-- The digits compare as their values. -/
theorem hexDigit_eq (n : UInt8) (h : n.toNat < 16) :
    (hexDigit n).toNat = if n.toNat < 10 then 0x30 + n.toNat else 0x57 + n.toNat := by
  have hall : ∀ m : Fin 16, (hexDigit (UInt8.ofNat m)).toNat =
      if (m : ℕ) < 10 then 0x30 + (m : ℕ) else 0x57 + (m : ℕ) := by decide +kernel
  have := hall ⟨n.toNat, h⟩
  rwa [UInt8.ofNat_toNat] at this

/-- The digits of two bytes compare as the bytes. -/
theorem hexDigits_lt_iff (c d : UInt8) (x y : List ℕ) (hcd : c ≠ d) :
    (hexDigit (c >>> 4)).toNat :: (hexDigit (c &&& 0x0f)).toNat :: x <
      (hexDigit (d >>> 4)).toNat :: (hexDigit (d &&& 0x0f)).toNat :: y ↔ c.toNat < d.toNat := by
  have hhi : ∀ e : UInt8, (e >>> 4).toNat = e.toNat / 16 := by
    intro e
    simp [Nat.shiftRight_eq_div_pow]
  have hlo : ∀ e : UInt8, (e &&& 0x0f).toNat = e.toNat % 16 := by
    intro e
    simpa using Nat.and_two_pow_sub_one_eq_mod e.toNat 4
  have hne : c.toNat ≠ d.toNat := fun h => hcd (UInt8.toNat_inj.mp h)
  have hc := c.toNat_lt
  have hd := d.toNat_lt
  have hlt : ∀ e : UInt8, (e >>> 4).toNat < 16 ∧ (e &&& 0x0f).toNat < 16 := by
    intro e
    have := e.toNat_lt
    rw [hhi, hlo]
    omega
  rw [List.cons_lt_cons_iff, List.cons_lt_cons_iff, hexDigit_eq _ (hlt c).1,
    hexDigit_eq _ (hlt c).2, hexDigit_eq _ (hlt d).1, hexDigit_eq _ (hlt d).2, hhi, hhi, hlo, hlo]
  constructor
  · rintro (h | ⟨h, h' | ⟨h', -⟩⟩)
    · split_ifs at h <;> omega
    · split_ifs at h h' <;> omega
    · split_ifs at h h' <;> omega
  · intro h
    by_cases heq : c.toNat / 16 = d.toNat / 16
    · refine .inr ⟨by rw [heq], .inl ?_⟩
      split_ifs <;> omega
    · refine .inl ?_
      split_ifs <;> omega

/-- The three kinds of bytes, what they are escaped to, and their ranks. -/
theorem escapeByte_cases (c : UInt8) :
    ((c.toNat ≤ 0x23 ∨ 0x80 ≤ c.toNat) ∧ escapeRank c = c.toNat ∧ (escapeByte c).nums =
      [0x23, (hexDigit (c >>> 4)).toNat, (hexDigit (c &&& 0x0f)).toNat]) ∨
    (0x24 ≤ c.toNat ∧ c.toNat < 0x7e ∧ escapeRank c = 0x100 + c.toNat ∧
      (escapeByte c).nums = [c.toNat]) ∨
    (0x7e ≤ c.toNat ∧ c.toNat < 0x80 ∧ escapeRank c = 0x200 + c.toNat ∧ (escapeByte c).nums =
      [0x7e, (hexDigit (c >>> 4)).toNat, (hexDigit (c &&& 0x0f)).toNat]) := by
  have hlow := isLow_iff c
  have hhigh := isHigh_iff c
  unfold escapeRank escapeByte
  split_ifs with h1 h2
  · exact .inl ⟨hlow.mp h1, rfl, rfl⟩
  · exact .inr (.inr ⟨(hhigh.mp h2).1, (hhigh.mp h2).2, rfl, rfl⟩)
  · have h1' := mt hlow.mpr h1
    have h2' := mt hhigh.mpr h2
    exact .inr (.inl ⟨by omega, by omega, rfl, rfl⟩)

/-- The escaped bytes, with the terminator '!'. -/
def escapes : Code UInt8 ℕ where
  word c := (escapeByte c).nums
  rank := escapeRank
  stop := 0x21
  word_lt_iff c d hcd x y := by
    have hdigits := hexDigits_lt_iff c d x y hcd
    have := c.toNat_lt
    have := d.toNat_lt
    rcases escapeByte_cases c with ⟨hc, hr, hw⟩ | ⟨hc, hc', hr, hw⟩ | ⟨hc, hc', hr, hw⟩ <;>
      rcases escapeByte_cases d with ⟨hd, hr', hw'⟩ | ⟨hd, hd', hr', hw'⟩ | ⟨hd, hd', hr', hw'⟩ <;>
      rw [hw, hw', hr, hr'] <;> simp only [List.cons_append, List.nil_append] <;>
      rw [List.cons_lt_cons_iff]
    case inl.inl => simpa using hdigits
    case inr.inr.inr.inr => simpa using hdigits
    case inr.inl.inr.inl =>
      have hne : c.toNat ≠ d.toNat := fun h => hcd (UInt8.toNat_inj.mp h)
      simp [hne]
    all_goals
      constructor
      · rintro (h | ⟨h, -⟩) <;> omega
      · intro h
        exact .inl (by omega)
  rank_inj c d h := by
    have := d.toNat_lt
    have := c.toNat_lt
    rw [← UInt8.toNat_inj]
    rcases escapeByte_cases c with ⟨hc, hr, -⟩ | ⟨hc, hc', hr, -⟩ | ⟨hc, hc', hr, -⟩ <;>
      rcases escapeByte_cases d with ⟨hd, hr', -⟩ | ⟨hd, hd', hr', -⟩ | ⟨hd, hd', hr', -⟩ <;> omega
  stop_lt c x y := by
    rcases escapeByte_cases c with ⟨-, -, hw⟩ | ⟨hc, -, -, hw⟩ | ⟨-, -, -, hw⟩ <;>
      rw [hw, List.cons_append, List.cons_lt_cons_iff] <;> exact .inl (by omega)

/-- The numbers of two strings. -/
theorem nums_append (s t : Str) : (s ++ t).nums = s.nums ++ t.nums := List.map_append ..

/-- The escaped form of a string, as an order of numbers. -/
theorem nums_appendEscaped (s : Str) : (appendEscaped s).nums = escapes.encode s := by
  unfold appendEscaped Code.encode
  rw [nums_append]
  show List.map _ _ ++ _ = _
  rw [List.map_flatMap]
  rfl

/-! ## The order of keys -/

/-- Numbers with their most significant byte first compare as numbers. -/
theorem beBytes_lt_iff (w : ℕ) {m n : ℕ} (hm : m < 256 ^ w) (hn : n < 256 ^ w) :
    (beBytes w m).nums < (beBytes w n).nums ↔ m < n := by
  induction w generalizing m n with
  | zero =>
    have hm' : m = 0 := by simpa using hm
    have hn' : n = 0 := by simpa using hn
    simp [hm', hn']
  | succ w ih =>
    have hsucc : ∀ k, (beBytes (w + 1) k).nums = (beBytes w (k / 256)).nums ++ [k % 256] := by
      intro k
      unfold beBytes
      rw [leBytes, List.reverse_cons, nums_append]
      simp [Str.nums]
    have hdiv : ∀ k, k < 256 ^ (w + 1) → k / 256 < 256 ^ w := by
      intro k hk
      rw [Nat.pow_succ] at hk
      exact Nat.div_lt_of_lt_mul (by omega)
    have hlen : (beBytes w (m / 256)).nums.length = (beBytes w (n / 256)).nums.length := by
      simp [Str.nums]
    have heq : (beBytes w (m / 256)).nums = (beBytes w (n / 256)).nums ↔ m / 256 = n / 256 := by
      constructor
      · intro h
        have := congrArg beNat (Str.nums_inj h)
        rwa [beNat_beBytes, beNat_beBytes, Nat.mod_eq_of_lt (hdiv m hm),
          Nat.mod_eq_of_lt (hdiv n hn)] at this
      · intro h
        rw [h]
    rw [hsucc, hsucc, append_lt_append_iff hlen, Prod.Lex.toLex_lt_toLex,
      ih (hdiv m hm) (hdiv n hn), heq, List.cons_lt_cons_iff]
    simp only [List.not_lt_nil, and_false, or_false]
    omega

/-- A number before what follows. -/
theorem beBytes_append_lt_iff (w : ℕ) {m n : ℕ} (hm : m < 256 ^ w) (hn : n < 256 ^ w)
    (x y : List ℕ) : (beBytes w m).nums ++ x < (beBytes w n).nums ++ y ↔
      toLex (m, x) < toLex (n, y) := by
  rw [append_lt_append_iff (by simp [Str.nums]), Prod.Lex.toLex_lt_toLex,
    Prod.Lex.toLex_lt_toLex, beBytes_lt_iff w hm hn]
  have heq : (beBytes w m).nums = (beBytes w n).nums ↔ m = n := by
    constructor
    · intro h
      have := congrArg beNat (Str.nums_inj h)
      rwa [beNat_beBytes, beNat_beBytes, Nat.mod_eq_of_lt hm, Nat.mod_eq_of_lt hn] at this
    · intro h
      rw [h]
  rw [heq]

/-- The character that says how the name compares with the key. -/
def mark (o : GhObject) : UInt8 :=
  if o.getKey = o.oid then 0x3d else if o.oid.nums < o.getKey.nums then 0x3e else 0x3c

/-- The name, where it is not the key. -/
def markedName (o : GhObject) : Str := if o.getKey = o.oid then [] else appendEscaped o.oid

/-- The names of a key: the key, its mark, and the name where it is another one. -/
theorem keyEncodeName_eq (o : GhObject) :
    keyEncodeName o = appendEscaped o.getKey ++ o.mark :: o.markedName := by
  unfold keyEncodeName mark markedName
  by_cases h : o.getKey = o.oid
  · rw [if_neg (not_not.mpr h), if_pos h, if_pos h, h]
  · rw [if_pos h, if_neg h, if_neg h]

/-- The fields in a key, in the order in which the keys compare. -/
def keyFields (o : GhObject) :
    ℕ ×ₗ ℕ ×ₗ ℕ ×ₗ List ℕ ×ₗ List ℕ ×ₗ ℕ ×ₗ List ℕ ×ₗ ℕ ×ₗ ℕ :=
  toLex ((o.shardId + 0x80).toNat, toLex ((o.pool.toUInt64 + 0x8000000000000000).toNat,
    toLex (o.getBitwiseKeyU32.toNat, toLex (o.nspace.map escapeRank,
      toLex (o.getKey.map escapeRank, toLex (o.mark.toNat, toLex (o.oid.map escapeRank,
        toLex (o.snap.toNat, o.generation.toNat))))))))

/-- The ranks of its bytes say what a string is. -/
theorem map_escapeRank_inj {s t : Str} : s.map escapeRank = t.map escapeRank ↔ s = t :=
  (List.map_injective_iff.mpr escapes.rank_inj).eq_iff

/-- The name and what is behind it, of two objects with one key and one mark. -/
theorem markedName_lt_iff {a b : GhObject} (hkey : a.getKey = b.getKey)
    (hmark : a.mark = b.mark) (x y : List ℕ) :
    a.markedName.nums ++ x < b.markedName.nums ++ y ↔
      toLex (a.oid.map escapeRank, x) < toLex (b.oid.map escapeRank, y) := by
  have hiff : ∀ o : GhObject, o.mark = 0x3d ↔ o.getKey = o.oid := by
    intro o
    unfold mark
    split_ifs with h1 h2
    · exact ⟨fun _ => h1, fun _ => rfl⟩
    · exact ⟨fun h => absurd h (by decide), fun h => absurd h h1⟩
    · exact ⟨fun h => absurd h (by decide), fun h => absurd h h1⟩
  unfold markedName
  by_cases ha : a.getKey = a.oid
  · -- Both names are the key.
    have hb : b.getKey = b.oid := (hiff b).mp (hmark ▸ (hiff a).mpr ha)
    rw [if_pos ha, if_pos hb, ← ha, ← hb, hkey, Prod.Lex.toLex_lt_toLex]
    simp [Str.nums]
  · have hb : b.getKey ≠ b.oid := fun h => ha ((hiff a).mp (hmark ▸ (hiff b).mpr h))
    rw [if_neg ha, if_neg hb, nums_appendEscaped, nums_appendEscaped]
    exact escapes.encode_lt_iff _ _ _ _

/-- The keys of two objects compare as their fields. -/
theorem keyEncodeObject_lt_iff (a b : GhObject) :
    (keyEncodeObject a).nums < (keyEncodeObject b).nums ↔ a.keyFields < b.keyFields := by
  have hsplit : ∀ o : GhObject, (keyEncodeObject o).nums = (o.shardId + 0x80).toNat ::
      ((keyEncodeU64 (o.pool.toUInt64 + 0x8000000000000000)).nums ++
        ((keyEncodeU32 o.getBitwiseKeyU32).nums ++ (escapes.encode o.nspace ++
          (escapes.encode o.getKey ++ o.mark.toNat :: (o.markedName.nums ++
            ((keyEncodeU64 o.snap).nums ++ ((keyEncodeU64 o.generation).nums ++
              Str.nums [onodeKeySuffix]))))))) := by
    intro o
    unfold keyEncodeObject keyEncodePrefix
    rw [keyEncodeName_eq]
    simp only [← nums_appendEscaped, Str.nums, List.map_cons, List.map_append, List.append_assoc,
      List.cons_append]
  have h64 : ∀ (u v : UInt64) (x y : List ℕ), (keyEncodeU64 u).nums ++ x <
      (keyEncodeU64 v).nums ++ y ↔ toLex (u.toNat, x) < toLex (v.toNat, y) := fun u v =>
    beBytes_append_lt_iff 8 (lt_of_lt_of_eq u.toNat_lt (by norm_num))
      (lt_of_lt_of_eq v.toNat_lt (by norm_num))
  have h32 : ∀ (u v : UInt32) (x y : List ℕ), (keyEncodeU32 u).nums ++ x <
      (keyEncodeU32 v).nums ++ y ↔ toLex (u.toNat, x) < toLex (v.toNat, y) := fun u v =>
    beBytes_append_lt_iff 4 (lt_of_lt_of_eq u.toNat_lt (by norm_num))
      (lt_of_lt_of_eq v.toNat_lt (by norm_num))
  rw [hsplit, hsplit, cons_lt_cons_iff]
  unfold keyFields
  refine lex_congr fun _ => ?_
  rw [h64]
  refine lex_congr fun _ => ?_
  rw [h32]
  refine lex_congr fun _ => ?_
  rw [escapes.encode_lt_iff]
  refine lex_congr fun _ => ?_
  rw [escapes.encode_lt_iff]
  refine lex_congr fun hkey => ?_
  rw [cons_lt_cons_iff]
  refine lex_congr fun hmark => ?_
  rw [markedName_lt_iff (map_escapeRank_inj.mp hkey) (UInt8.toNat_inj.mp hmark)]
  refine lex_congr fun _ => ?_
  rw [h64]
  refine lex_congr fun _ => ?_
  rw [h64, Prod.Lex.toLex_lt_toLex]
  simp

/-! ## Where the two orders agree -/

/-- Two bytes that escaping puts into the wrong order: one from 128 on, and one from '$' on. -/
def Swapped (c d : UInt8) : Prop :=
  0x24 ≤ c ∧ c < 0x80 ∧ 0x80 ≤ d ∨ 0x24 ≤ d ∧ d < 0x80 ∧ 0x80 ≤ c

instance (c d : UInt8) : Decidable (Swapped c d) :=
  inferInstanceAs (Decidable (_ ∧ _ ∧ _ ∨ _ ∧ _ ∧ _))

/-- The first bytes in which two strings differ are not put into the wrong order. -/
def SameOrder : Str → Str → Prop
  | c :: s, d :: t => if c = d then SameOrder s t else ¬ Swapped c d
  | _, _ => True

instance decidableSameOrder : (s t : Str) → Decidable (SameOrder s t)
  | c :: s, d :: t =>
    have := decidableSameOrder s t
    inferInstanceAs (Decidable (if c = d then SameOrder s t else ¬ Swapped c d))
  | [], _ => inferInstanceAs (Decidable True)
  | _ :: _, [] => inferInstanceAs (Decidable True)

/-- Where the order of keys is that of objects: in the first field in which two objects differ,
their shards are in one half, or the strings have no two bytes in the wrong order; and of two
objects with one key the names are on one side of it. -/
def KeysAgree (a b : GhObject) : Prop :=
  if a.shardId ≠ b.shardId then a.shardId < 0x80 ↔ b.shardId < 0x80
  else if a.pool ≠ b.pool ∨ a.hash ≠ b.hash then True
  else if a.nspace ≠ b.nspace then SameOrder a.nspace b.nspace
  else if a.getKey ≠ b.getKey then SameOrder a.getKey b.getKey
  else (a.oid = a.getKey ↔ b.oid = b.getKey) ∧
    (a.oid.nums < a.getKey.nums ↔ b.oid.nums < b.getKey.nums) ∧ SameOrder a.oid b.oid

instance (a b : GhObject) : Decidable (KeysAgree a b) := by
  unfold KeysAgree
  infer_instance

/-- Escaped bytes compare as the bytes, unless they are in the wrong order. -/
theorem escapeRank_lt_iff {c d : UInt8} (hcd : c ≠ d) :
    (escapeRank c < escapeRank d ↔ c.toNat < d.toNat) ↔ ¬ Swapped c d := by
  have := c.toNat_lt
  have := d.toNat_lt
  have hne : c.toNat ≠ d.toNat := fun h => hcd (UInt8.toNat_inj.mp h)
  simp only [Swapped, UInt8.le_iff_toNat_le, UInt8.lt_iff_toNat_lt, UInt8.reduceToNat]
  rcases escapeByte_cases c with ⟨hc, hr, -⟩ | ⟨hc, hc', hr, -⟩ | ⟨hc, hc', hr, -⟩ <;>
    rcases escapeByte_cases d with ⟨hd, hr', -⟩ | ⟨hd, hd', hr', -⟩ | ⟨hd, hd', hr', -⟩ <;> omega

/-- Escaped strings compare as the strings, unless bytes are in the wrong order. -/
theorem map_escapeRank_lt_iff (s t : Str) :
    (s.map escapeRank < t.map escapeRank ↔ s.nums < t.nums) ↔ SameOrder s t := by
  induction s generalizing t with
  | nil => cases t <;> simp [SameOrder, Str.nums]
  | cons c s ih =>
    cases t with
    | nil => simp [SameOrder, Str.nums]
    | cons d t =>
      have hrank : escapeRank c = escapeRank d ↔ c = d := escapes.rank_inj.eq_iff
      have h := @lex_agree_iff _ _ _ _ _ _ _ _ (escapeRank c) (escapeRank d) c.toNat d.toNat
        (hrank.trans UInt8.toNat_inj.symm) (s.map escapeRank) (t.map escapeRank)
        (Str.nums s) (Str.nums t)
      rw [← cons_lt_cons_iff, ← cons_lt_cons_iff] at h
      simp only [hrank] at h
      rw [SameOrder]
      refine h.trans ?_
      split_ifs with hcd
      · exact ih t
      · exact escapeRank_lt_iff hcd

/-- The marks of two objects with one key compare the other way round. -/
theorem mark_lt_iff {a b : GhObject} (hkey : a.getKey = b.getKey) :
    (a.mark = b.mark ↔ (a.oid = a.getKey ↔ b.oid = b.getKey) ∧
      (a.oid.nums < a.getKey.nums ↔ b.oid.nums < b.getKey.nums)) ∧
    (a.mark ≠ b.mark → (a.mark.toNat < b.mark.toNat ↔ b.oid.nums < a.oid.nums)) := by
  have hmark : ∀ o : GhObject, o.oid.nums < o.getKey.nums ∧ o.mark = 0x3e ∧ o.oid ≠ o.getKey ∨
      o.oid.nums = o.getKey.nums ∧ o.mark = 0x3d ∧ o.oid = o.getKey ∨
      o.getKey.nums < o.oid.nums ∧ o.mark = 0x3c ∧ o.oid ≠ o.getKey := by
    intro o
    unfold mark
    rcases lt_trichotomy o.oid.nums o.getKey.nums with h | h | h
    · have hne : o.oid ≠ o.getKey := fun e => h.ne (congrArg Str.nums e)
      exact .inl ⟨h, by rw [if_neg hne.symm, if_pos h], hne⟩
    · have heq := Str.nums_inj h
      exact .inr (.inl ⟨h, if_pos heq.symm, heq⟩)
    · have hne : o.oid ≠ o.getKey := fun e => h.ne (congrArg Str.nums e.symm)
      exact .inr (.inr ⟨h, by rw [if_neg hne.symm, if_neg h.asymm], hne⟩)
  rw [hkey]
  rcases hmark a with ⟨ha, hma, hea⟩ | ⟨ha, hma, hea⟩ | ⟨ha, hma, hea⟩ <;>
    rcases hmark b with ⟨hb, hmb, heb⟩ | ⟨hb, hmb, heb⟩ | ⟨hb, hmb, heb⟩ <;>
    rw [hma, hmb] <;> rw [hkey] at ha hea
  case inl.inl => exact ⟨by simp [hea, heb, ha, hb], fun h => absurd rfl h⟩
  case inr.inl.inr.inl => exact ⟨by simp [hea, heb], fun h => absurd rfl h⟩
  case inr.inr.inr.inr =>
    exact ⟨by simp [hea, heb, ha.asymm, hb.asymm], fun h => absurd rfl h⟩
  case inl.inr.inl =>
    exact ⟨by simp [hea, heb], fun _ => iff_of_false (by decide) (by rw [hb]; exact ha.asymm)⟩
  case inl.inr.inr =>
    exact ⟨by simp [ha, hb.asymm], fun _ => iff_of_false (by decide) (ha.trans hb).asymm⟩
  case inr.inl.inl =>
    exact ⟨by simp [hea, heb], fun _ => iff_of_true (by decide) (by rw [ha]; exact hb)⟩
  case inr.inl.inr.inr =>
    exact ⟨by simp [hea, heb], fun _ => iff_of_false (by decide) (by rw [ha]; exact hb.asymm)⟩
  case inr.inr.inl =>
    exact ⟨by simp [ha.asymm, hb], fun _ => iff_of_true (by decide) (hb.trans ha)⟩
  case inr.inr.inr.inl =>
    exact ⟨by simp [hea, heb], fun _ => iff_of_true (by decide) (by rw [hb]; exact ha)⟩

/-- The names of two objects with one key, and what is behind them. -/
theorem name_agree_iff {a b : GhObject} (hkey : a.getKey = b.getKey) :
    (toLex (a.mark.toNat, toLex (a.oid.map escapeRank, toLex (a.snap.toNat, a.generation.toNat))) <
        toLex (b.mark.toNat, toLex (b.oid.map escapeRank,
          toLex (b.snap.toNat, b.generation.toNat))) ↔
      toLex (a.oid.nums, toLex (a.snap.toNat, a.generation.toNat)) <
        toLex (b.oid.nums, toLex (b.snap.toNat, b.generation.toNat))) ↔
    (a.oid = a.getKey ↔ b.oid = b.getKey) ∧
      (a.oid.nums < a.getKey.nums ↔ b.oid.nums < b.getKey.nums) ∧ SameOrder a.oid b.oid := by
  obtain ⟨hmark, hlt⟩ := mark_lt_iff hkey
  rw [← and_assoc, ← hmark]
  have hoid : a.oid.map escapeRank = b.oid.map escapeRank ↔ a.oid.nums = b.oid.nums :=
    map_escapeRank_inj.trans ⟨congrArg _, Str.nums_inj⟩
  by_cases hm : a.mark = b.mark
  · have hsame : ∀ x y : List ℕ ×ₗ ℕ ×ₗ ℕ,
        toLex (a.mark.toNat, x) < toLex (b.mark.toNat, y) ↔ x < y := by
      intro x y
      rw [Prod.Lex.toLex_lt_toLex, hm]
      simp
    rw [hsame, lex_agree_iff hoid]
    split_ifs with h
    · rw [map_escapeRank_inj] at h
      have hself : ∀ s : Str, SameOrder s s := by
        intro s
        induction s with
        | nil => trivial
        | cons c s ih => rwa [SameOrder, if_pos rfl]
      exact iff_of_true Iff.rfl ⟨hm, h ▸ hself a.oid⟩
    · rw [map_escapeRank_lt_iff]
      exact ⟨fun h => ⟨hm, h⟩, fun h => h.2⟩
  · -- The marks decide the order of the keys, and the names that of the objects.
    have hne : a.oid.nums ≠ b.oid.nums := by
      intro h
      refine hm (hmark.mpr ?_)
      rw [h, hkey, Str.nums_inj h]
      exact ⟨Iff.rfl, Iff.rfl⟩
    have hne' : a.mark.toNat ≠ b.mark.toNat := fun h => hm (UInt8.toNat_inj.mp h)
    have hfront : ∀ {x y : List ℕ ×ₗ ℕ ×ₗ ℕ},
        toLex (a.mark.toNat, x) < toLex (b.mark.toNat, y) ↔ a.mark.toNat < b.mark.toNat := by
      intro x y
      rw [Prod.Lex.toLex_lt_toLex]
      simp [hne']
    have hname : ∀ {x y : ℕ ×ₗ ℕ},
        toLex (a.oid.nums, x) < toLex (b.oid.nums, y) ↔ a.oid.nums < b.oid.nums := by
      intro x y
      rw [Prod.Lex.toLex_lt_toLex]
      simp [hne]
    rw [hfront, hname, hlt hm]
    refine iff_of_false (fun h => ?_) fun h => hm h.1
    rcases lt_or_gt_of_ne hne with hl | hl
    · exact hl.asymm (h.mpr hl)
    · exact hl.asymm (h.mp hl)

/-- The keys of two objects are in the order of the objects exactly where the first difference of
the objects says so. -/
theorem key_order_agrees_iff (a b : GhObject) (ha : a.max = false) (hb : b.max = false) :
    ((keyEncodeObject a).nums < (keyEncodeObject b).nums ↔ a.lt b = true) ↔ KeysAgree a b := by
  have hrank : a.rank < b.rank ↔ a.fields < b.fields := by
    unfold rank
    rw [if_neg (by simp [ha]), if_neg (by simp [hb]), WithTop.coe_lt_coe]
  have hshard : ∀ s : UInt8, (s + 0x80).toNat = (s.toNat + 128) % 256 := fun s => UInt8.toNat_add ..
  have hshardA := a.shardId.toNat_lt
  have hshardB := b.shardId.toNat_lt
  -- Field by field: the keys agree with the objects on the first field that differs, or beyond it.
  rw [keyEncodeObject_lt_iff, lt_iff, hrank]
  unfold keyFields fields KeysAgree
  rw [lex_agree_iff (by rw [hshard, hshard]; omega)]
  by_cases hs : a.shardId = b.shardId
  case neg =>
    have hne : a.shardId.toNat ≠ b.shardId.toNat := fun h => hs (UInt8.toNat_inj.mp h)
    rw [if_neg (by rw [hshard, hshard]; omega), if_pos hs]
    simp only [UInt8.lt_iff_toNat_lt, hshard, UInt8.reduceToNat]
    omega
  -- The pool is signed, its key is not.
  have hpool : ∀ p : Int64,
      ((p.toUInt64 + 0x8000000000000000).toNat : ℤ) = p.toInt + 0x8000000000000000 := by
    intro p
    have h1 : p.toInt = p.toUInt64.toBitVec.toInt := rfl
    have h2 := BitVec.toInt_eq_toNat_cond p.toUInt64.toBitVec
    have h3 : p.toUInt64.toBitVec.toNat = p.toUInt64.toNat := rfl
    have h4 := p.toUInt64.toNat_lt
    rw [UInt64.toNat_add, h1, h2, h3]
    simp only [UInt64.reduceToNat]
    split_ifs <;> omega
  rw [if_pos (by rw [hs]), if_neg (not_not.mpr hs), lex_agree_iff (by
    have h1 := hpool a.pool
    have h2 := hpool b.pool
    omega)]
  by_cases hp : a.pool = b.pool
  case neg =>
    have hne : a.pool.toInt ≠ b.pool.toInt := fun h => hp (Int64.toInt_inj.mp h)
    have h1 := hpool a.pool
    have h2 := hpool b.pool
    rw [if_neg (by omega), if_pos (.inl hp)]
    exact iff_of_true (by omega) trivial
  rw [if_pos (by rw [hp]), lex_agree_iff Iff.rfl]
  by_cases hh : a.hash = b.hash
  case neg =>
    have hne : a.getBitwiseKeyU32.toNat ≠ b.getBitwiseKeyU32.toNat := by
      intro h
      have := congrArg reverseBits (UInt32.toNat_inj.mp h)
      unfold getBitwiseKeyU32 at this
      rw [reverseBits_reverseBits, reverseBits_reverseBits] at this
      exact hh this
    rw [if_neg hne, if_pos (.inr hh)]
    exact iff_of_true Iff.rfl trivial
  -- Names agree in order of their escaped characters.
  have hinj : ∀ {s t : Str}, s.map escapeRank = t.map escapeRank ↔ s.nums = t.nums := by
    intro s t
    exact map_escapeRank_inj.trans ⟨congrArg _, Str.nums_inj⟩
  rw [if_pos (by unfold getBitwiseKeyU32; rw [hh]), if_neg (by simp [hp, hh]), lex_agree_iff hinj]
  by_cases hn : a.nspace = b.nspace
  case neg =>
    rw [if_neg (mt map_escapeRank_inj.mp hn), if_pos hn]
    exact map_escapeRank_lt_iff _ _
  rw [if_pos (by rw [hn]), if_neg (not_not.mpr hn), lex_agree_iff hinj]
  by_cases hk : a.getKey = b.getKey
  case neg =>
    rw [if_neg (mt map_escapeRank_inj.mp hk), if_pos hk]
    exact map_escapeRank_lt_iff _ _
  rw [if_pos (by rw [hk]), if_neg (not_not.mpr hk)]
  exact name_agree_iff hk

/-- Two plain names with a key, in different pools, and two that differ in a byte from 128 on. -/
theorem key_order_agrees_iff_plain :
    (((keyEncodeObject { pool := -1, oid := [0x61] }).nums <
        (keyEncodeObject { pool := 2, oid := [0x41] }).nums ↔
      lt { pool := -1, oid := [0x61] } { pool := 2, oid := [0x41] } = true) ↔
      KeysAgree { pool := -1, oid := [0x61] } { pool := 2, oid := [0x41] }) ∧
    KeysAgree { pool := -1, oid := [0x61] } { pool := 2, oid := [0x41] } ∧
    ¬ KeysAgree { oid := [0x41] } { oid := [0xc3, 0xa9] } :=
  ⟨key_order_agrees_iff _ _ (by decide) (by decide), by decide +kernel, by decide +kernel⟩

/-- A letter and a byte above 127; shard 0 and `NO_SHARD`; a name below its key and one above it. -/
theorem key_order_turned :
    (lt { oid := [0x41] } { oid := [0xc3, 0xa9] } = true ∧
      ¬ (keyEncodeObject { oid := [0x41] }).nums < (keyEncodeObject { oid := [0xc3, 0xa9] }).nums) ∧
    (lt { oid := [0x41], shardId := 0 } { oid := [0x41] } = true ∧
      ¬ (keyEncodeObject { oid := [0x41], shardId := 0 }).nums <
        (keyEncodeObject { oid := [0x41] }).nums) ∧
    lt { key := [0x62], oid := [0x61] } { key := [0x62], oid := [0x63] } = true ∧
      ¬ (keyEncodeObject { key := [0x62], oid := [0x61] }).nums <
        (keyEncodeObject { key := [0x62], oid := [0x63] }).nums := by
  decide +kernel

end CxxLab.Common.GhObject
