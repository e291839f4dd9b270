import Mathlib.Data.Nat.Basic
import Mathlib.Tactic

/-!
# Reading back what was written

Fixed-width little-endian integers as byte lists, and readers that take bytes from the front of a
list and return what is left. A reader returns `none` where the program throws because the bytes
have run out. Each `get` has one lemma: on what the matching `put` wrote, followed by anything, it
returns the value and the rest. With these as `simp` lemmas the round trip of a record is a
computation.
-/

namespace CxxLab.Codec

/-- The `w` low bytes of `n`, least significant first. -/
def leBytes : ℕ → ℕ → List UInt8
  | 0, _ => []
  | w + 1, n => UInt8.ofNat n :: leBytes w (n / 256)

/-- The number with the given bytes, least significant first. -/
def leNat : List UInt8 → ℕ
  | [] => 0
  | b :: bs => b.toNat + 256 * leNat bs

/-- A number of `w` bytes is encoded in `w` bytes. -/
@[simp] theorem length_leBytes (w n : ℕ) : (leBytes w n).length = w := by
  induction w generalizing n with
  | zero => rfl
  | succ w ih => simp [leBytes, ih]

/-- The bytes carry the number modulo their range. -/
theorem leNat_leBytes (w n : ℕ) : leNat (leBytes w n) = n % 256 ^ w := by
  induction w generalizing n with
  | zero => simp [leBytes, leNat, Nat.mod_one]
  | succ w ih =>
    have hb : (UInt8.ofNat n).toNat = n % 256 := UInt8.toNat_ofNat'
    rw [leBytes, leNat, ih, hb, pow_succ, mul_comm (256 ^ w) 256, Nat.mod_mul]

/-- The number of some bytes fits them. -/
theorem leNat_lt (bs : List UInt8) : leNat bs < 256 ^ bs.length := by
  induction bs with
  | nil => exact Nat.zero_lt_one
  | cons b bs ih =>
    have hb := b.toNat_lt
    rw [leNat, List.length_cons, pow_succ]
    omega

/-- Bytes that are read as a number are written again. -/
theorem leBytes_leNat (bs : List UInt8) : leBytes bs.length (leNat bs) = bs := by
  induction bs with
  | nil => rfl
  | cons b bs ih =>
    have hb := b.toNat_lt
    have hdiv : (b.toNat + 256 * leNat bs) / 256 = leNat bs := by omega
    have hlow : UInt8.ofNat (b.toNat + 256 * leNat bs) = b := by
      rw [← UInt8.toNat_inj, UInt8.toNat_ofNat']
      omega
    rw [List.length_cons, leBytes, leNat, hdiv, hlow, ih]

/-- Takes `n` bytes from the front. -/
def getBytes (n : ℕ) (p : List UInt8) : Option (List UInt8 × List UInt8) :=
  if n ≤ p.length then some (p.take n, p.drop n) else none

/-- The bytes that were put in front are read. -/
@[simp] theorem getBytes_append {n : ℕ} {bs : List UInt8} (rest : List UInt8)
    (h : bs.length = n) : getBytes n (bs ++ rest) = some (bs, rest) := by
  subst h
  simp [getBytes]

/-- Reads a little-endian number of `w` bytes. -/
def getNat (w : ℕ) (p : List UInt8) : Option (ℕ × List UInt8) :=
  (getBytes w p).map fun r => (leNat r.1, r.2)

/-- A number that fits is read back. -/
theorem getNat_leBytes {w n : ℕ} (h : n < 256 ^ w) (rest : List UInt8) :
    getNat w (leBytes w n ++ rest) = some (n, rest) := by
  rw [getNat, getBytes_append rest (length_leBytes w n), Option.map_some, leNat_leBytes,
    Nat.mod_eq_of_lt h]

/-- Writes a byte. -/
def putU8 (v : UInt8) : List UInt8 := [v]

/-- Reads a byte. -/
def getU8 : List UInt8 → Option (UInt8 × List UInt8)
  | [] => none
  | b :: p => some (b, p)

/-- What is written is read back. -/
@[simp] theorem getU8_putU8 (v : UInt8) (rest : List UInt8) :
    getU8 (putU8 v ++ rest) = some (v, rest) := rfl

/-- One byte. -/
@[simp] theorem length_putU8 (v : UInt8) : (putU8 v).length = 1 := rfl

/-- Writes 16 bits. -/
def putU16 (v : UInt16) : List UInt8 := leBytes 2 v.toNat

/-- Reads 16 bits. -/
def getU16 (p : List UInt8) : Option (UInt16 × List UInt8) :=
  (getNat 2 p).map fun r => (UInt16.ofNat r.1, r.2)

/-- What is written is read back. -/
@[simp] theorem getU16_putU16 (v : UInt16) (rest : List UInt8) :
    getU16 (putU16 v ++ rest) = some (v, rest) := by
  have hv : v.toNat < 256 ^ 2 := v.toNat_lt
  simp [getU16, putU16, getNat_leBytes hv]

/-- Two bytes. -/
@[simp] theorem length_putU16 (v : UInt16) : (putU16 v).length = 2 := length_leBytes _ _

/-- Writes 32 bits. -/
def putU32 (v : UInt32) : List UInt8 := leBytes 4 v.toNat

/-- Reads 32 bits. -/
def getU32 (p : List UInt8) : Option (UInt32 × List UInt8) :=
  (getNat 4 p).map fun r => (UInt32.ofNat r.1, r.2)

/-- What is written is read back. -/
@[simp] theorem getU32_putU32 (v : UInt32) (rest : List UInt8) :
    getU32 (putU32 v ++ rest) = some (v, rest) := by
  have hv : v.toNat < 256 ^ 4 := v.toNat_lt
  simp [getU32, putU32, getNat_leBytes hv]

/-- Four bytes. -/
@[simp] theorem length_putU32 (v : UInt32) : (putU32 v).length = 4 := length_leBytes _ _

/-- Writes 64 bits. -/
def putU64 (v : UInt64) : List UInt8 := leBytes 8 v.toNat

/-- Reads 64 bits. -/
def getU64 (p : List UInt8) : Option (UInt64 × List UInt8) :=
  (getNat 8 p).map fun r => (UInt64.ofNat r.1, r.2)

/-- What is written is read back. -/
@[simp] theorem getU64_putU64 (v : UInt64) (rest : List UInt8) :
    getU64 (putU64 v ++ rest) = some (v, rest) := by
  have hv : v.toNat < 256 ^ 8 := v.toNat_lt
  simp [getU64, putU64, getNat_leBytes hv]

/-- Eight bytes. -/
@[simp] theorem length_putU64 (v : UInt64) : (putU64 v).length = 8 := length_leBytes _ _

/-! ## Sequences -/

section

variable {α β : Type*} {put : α → List UInt8} {get : List UInt8 → Option (β × List UInt8)}

/-- Reads `n` values one after the other. -/
def getMany (get : List UInt8 → Option (β × List UInt8)) :
    ℕ → List UInt8 → Option (List β × List UInt8)
  | 0, p => some ([], p)
  | n + 1, p => do
    let (b, p) ← get p
    let (bs, p) ← getMany get n p
    some (b :: bs, p)

/-- Values that were written one after the other are read one after the other. -/
theorem getMany_flatMap {f : α → β} {as : List α} (rest : List UInt8)
    (h : ∀ a ∈ as, ∀ rest, get (put a ++ rest) = some (f a, rest)) :
    getMany get as.length (as.flatMap put ++ rest) = some (as.map f, rest) := by
  induction as with
  | nil => rfl
  | cons a as ih =>
    have ih := ih fun a ha => h a (List.mem_cons_of_mem _ ha)
    simp [getMany, h a List.mem_cons_self, ih]

/-- One of the values takes no more bytes than all of them. -/
theorem length_le_flatMap {as : List α} {a : α} (h : a ∈ as) :
    (put a).length ≤ (as.flatMap put).length := by
  obtain ⟨l, r, rfl⟩ := List.append_of_mem h
  simp only [List.flatMap_append, List.flatMap_cons, List.length_append]
  omega

/-- There are no more values than bytes. -/
theorem card_le_flatMap (hput : ∀ a, 0 < (put a).length) (as : List α) :
    as.length ≤ (as.flatMap put).length := by
  induction as with
  | nil => exact le_refl _
  | cons a as ih =>
    have := hput a
    simp only [List.flatMap_cons, List.length_append, List.length_cons]
    omega

end

end CxxLab.Codec
