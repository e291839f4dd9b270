import CxxLab.Bluestore.Blob
import CxxLab.Lib.Codec

/-!
# The operations on whole use trackers

Copies, the encoding, `split` and `add_tail` of `bluestore_blob_use_tracker_t`. A tracker has one
counter in the place of the pointer to many, and each operation makes the new one its own way:
copies through `init`, which keeps a single counter where the array has one element, and `split`
through `allocate`, which takes an array of any length.
-/

namespace CxxLab.Bluestore.Object.UseTracker

open Codec

/-- `num_au`. -/
def numAu (t : UseTracker) : UInt32 :=
  match t.count with
  | .total _ => 0
  | .perAu bytes => UInt32.ofNat bytes.length

/-- The counters, of which there is one if `num_au` is 0. -/
def counts (t : UseTracker) : List UInt32 :=
  match t.count with
  | .total n => [n]
  | .perAu bytes => bytes

/-! ## Copies -/

/-- What the copy constructor and `operator=` do to a tracker that is clear. It stops with `none`
where `memcpy` has no room: `init` made fewer counters than are copied. -/
def copied (other : UseTracker) : Option UseTracker :=
  if h : 0 < other.auSize then
    let t := init (other.auSize * (if other.numAu = 0 then 1 else other.numAu)) other.auSize h
    match other.count, t.count with
    | .total n, .total _ => some ⟨other.auSize, .total n, by simp⟩
    | .total _, .perAu _ => none
    | .perAu bytes, .perAu room =>
      if bytes.length ≤ room.length then
        some ⟨other.auSize, .perAu (bytes ++ room.drop bytes.length), fun _ => h⟩
      else none
    | .perAu _, .total _ => none
  else some new

/-- The copy constructor. -/
def copy (other : UseTracker) : Option UseTracker := copied other

/-- `operator=` of two trackers that are not the same object; `clear` leaves nothing of the old
one. -/
def assign (_old rhs : UseTracker) : Option UseTracker := copied rhs

/-! ## The encoding -/

/-- `encode`. -/
def encode (t : UseTracker) : List UInt8 :=
  putU32 t.auSize ++
    if t.auSize = 0 then []
    else putU32 t.numAu ++
      match t.count with
      | .total n => putU32 n
      | .perAu bytes => bytes.flatMap putU32

/-- `decode`; `none` where the input is too short. -/
def decode (p : List UInt8) : Option (UseTracker × List UInt8) := do
  let (au, p) ← getU32 p
  if h : 0 < au then
    let (num, p) ← getU32 p
    if num = 0 then
      let (n, p) ← getU32 p
      some (⟨au, .total n, by simp⟩, p)
    else
      let (bytes, p) ← getMany getU32 num.toNat p
      some (⟨au, .perAu bytes, fun _ => h⟩, p)
  else some (new, p)

/-! ## Splits -/

/-- `can_split`. -/
def canSplit (t : UseTracker) : Bool := t.numAu > 0

/-- `can_split_at`; `none` where the assertion fails that there is a unit size. -/
def canSplitAt (t : UseTracker) (blobOffset : UInt32) : Option Bool :=
  if t.auSize = 0 then none
  else some (blobOffset % t.auSize == 0 && blobOffset < t.numAu * t.auSize)

/-- The counters that `split` copied to a new array at the address `ptr`. Without any, `num_au` is 0
and `total_bytes` is the low half of the address. -/
def allocated (au : UInt32) (h : 0 < au) (bytes : List UInt32) (ptr : UInt32) : UseTracker :=
  ⟨au, if bytes = [] then .total ptr else .perAu bytes, fun _ => h⟩

/-- `split`, with the low halves of the addresses of the new arrays: the left tracker and the right
one. It stops with `none` where the split unit is beyond the last counter; `can_split` rules out a
tracker with one counter. -/
def split (t : UseTracker) (blobOffset ptr ptr' : UInt32) : Option (UseTracker × UseTracker) :=
  match h : t.count with
  | .total _ => none
  | .perAu bytes =>
    let splitAu := (blobOffset / t.auSize).toNat
    if bytes.length < splitAu then none
    else
      have hau := t.au_pos ⟨bytes, h⟩
      some (allocated t.auSize hau (bytes.take splitAu) ptr',
        allocated t.auSize hau (bytes.drop splitAu) ptr)

/-! ## Growth -/

/-- `add_tail`; `none` where it divides by zero. -/
def addTail (t : UseTracker) (newLen au : UInt32) : Option UseTracker :=
  let fullSize := t.auSize * (if t.numAu = 0 then 1 else t.numAu)
  if newLen = fullSize then some t
  else
    match h : t.count with
    | .total oldTotal =>
      if hau : 0 < au then
        let t' := init newLen au hau
        match t'.count with
        | .total _ => some t'
        | .perAu bytes => some ⟨au, .perAu (bytes.set 0 oldTotal), fun _ => hau⟩
      else none
    | .perAu bytes =>
      if au = 0 then none
      else
        let num := (newLen / au).toNat
        if num > bytes.length then
          some ⟨t.auSize, .perAu (bytes ++ List.replicate (num - bytes.length) 0),
            fun _ => t.au_pos ⟨bytes, h⟩⟩
        else some t

/-! ## What the operations keep -/

/-- A tracker that is well formed: an array of counters has an element and `num_au` counts them, and
one that was never initialised counts nothing. -/
structure Valid (t : UseTracker) : Prop where
  counters : ∀ bytes, t.count = .perAu bytes → bytes ≠ [] ∧ bytes.length < 2 ^ 32
  unset : t.auSize = 0 → t.count = .total 0

/-- Copies keep a tracker whose array has two elements or more and for which the sum in `init` does
not wrap around. -/
def Copyable (t : UseTracker) : Prop :=
  ∀ bytes, t.count = .perAu bytes →
    2 ≤ bytes.length ∧ t.auSize.toNat * bytes.length + t.auSize.toNat ≤ 2 ^ 32

/-- The units of a length that is a multiple of their size, as `init` computes them: too few of them
where the sum wraps around. -/
theorem init_units {full au : UInt32} {num : ℕ} (hau : 0 < au)
    (hfull : full.toNat = au.toNat * num % 2 ^ 32) :
    (au.toNat * num + au.toNat ≤ 2 ^ 32 → ((full + au - 1) / au).toNat = num) ∧
      (2 ^ 32 < au.toNat * num + au.toNat → ((full + au - 1) / au).toNat < num) := by
  have hpos : 0 < au.toNat := UInt32.lt_iff_toNat_lt.mp hau
  have hlt : au.toNat < 2 ^ 32 := au.toNat_lt
  have hsum : (full + au - 1).toNat = (au.toNat * num + au.toNat - 1) % 2 ^ 32 := by
    rw [UInt32.toNat_sub, UInt32.toNat_add, hfull]
    simp only [UInt32.toNat_one]
    omega
  rw [UInt32.toNat_div, hsum]
  constructor
  · intro hle
    rw [Nat.mod_eq_of_lt (by omega), Nat.div_eq_iff hpos, Nat.mul_comm]
    omega
  · intro hgt
    rw [Nat.div_lt_iff_lt_mul hpos, Nat.mul_comm num]
    omega

/-- `init` makes counters where there is more than one unit. -/
theorem count_init {full au : UInt32} (hau : 0 < au) :
    (init full au hau).count = if (full + au - 1) / au ≤ 1 then .total 0
      else .perAu (List.replicate ((full + au - 1) / au).toNat 0) := rfl

/-- How many counters `init` makes: none of their own for one unit. -/
theorem init_count_cases {full au : UInt32} (hau : 0 < au) :
    (((full + au - 1) / au).toNat ≤ 1 ∧ (init full au hau).count = .total 0) ∨
      (2 ≤ ((full + au - 1) / au).toNat ∧ (init full au hau).count =
        .perAu (List.replicate ((full + au - 1) / au).toNat 0)) := by
  have hle : (full + au - 1) / au ≤ 1 ↔ ((full + au - 1) / au).toNat ≤ 1 :=
    UInt32.le_iff_toNat_le
  rw [count_init hau]
  split_ifs with h
  · exact .inl ⟨hle.mp h, rfl⟩
  · exact .inr ⟨by rw [hle] at h; omega, rfl⟩

/-- A copy of a tracker with one counter. -/
theorem copied_total {au n : UInt32} (hau : 0 < au)
    (h : (∃ b, UseCount.total n = .perAu b) → 0 < au) :
    copied ⟨au, .total n, h⟩ = some ⟨au, .total n, h⟩ := by
  have hfull : (au * 1).toNat = au.toNat * 1 % 2 ^ 32 := by rw [UInt32.toNat_mul]; rfl
  obtain ⟨hexact, hwrap⟩ := init_units hau hfull
  have hle : ((au * 1 + au - 1) / au).toNat ≤ 1 := by
    rcases Nat.lt_or_ge (2 ^ 32) (au.toNat * 1 + au.toNat) with hgt | hle
    · exact (hwrap hgt).le
    · exact (hexact hle).le
  have hcount : (init (au * 1) au hau).count = .total 0 := by
    rcases @init_count_cases (au * 1) au hau with ⟨-, hc⟩ | ⟨hge, -⟩
    · exact hc
    · exact absurd hge (by omega)
  unfold copied
  rw [dif_pos (show 0 < (⟨au, .total n, h⟩ : UseTracker).auSize from hau)]
  simp only [numAu, if_true, hcount]

/-- A copy of a tracker with an array. -/
theorem copied_perAu {au : UInt32} {bytes : List UInt32} (hau : 0 < au)
    (hne : bytes ≠ []) (hlen : bytes.length < 2 ^ 32)
    (h : (∃ b, UseCount.perAu bytes = .perAu b) → 0 < au) :
    copied ⟨au, .perAu bytes, h⟩ = some ⟨au, .perAu bytes, h⟩ ↔
      2 ≤ bytes.length ∧ au.toNat * bytes.length + au.toNat ≤ 2 ^ 32 := by
  have hpos : 0 < bytes.length := List.length_pos_iff.mpr hne
  have hnum : (UInt32.ofNat bytes.length).toNat = bytes.length := by
    rw [UInt32.toNat_ofNat']
    exact Nat.mod_eq_of_lt hlen
  have hnum0 : UInt32.ofNat bytes.length ≠ 0 := by
    intro h0
    rw [h0] at hnum
    exact hpos.ne hnum
  have hfull : (au * UInt32.ofNat bytes.length).toNat = au.toNat * bytes.length % 2 ^ 32 := by
    rw [UInt32.toNat_mul, hnum]
  obtain ⟨hexact, hwrap⟩ := init_units hau hfull
  have hset : 0 < (⟨au, .perAu bytes, h⟩ : UseTracker).auSize := hau
  rcases @init_count_cases (au * UInt32.ofNat bytes.length) au hau with ⟨hle, hc⟩ | ⟨hge, hc⟩
  · -- The copy has one counter in the place of the array.
    have hcopied : copied ⟨au, .perAu bytes, h⟩ = none := by
      unfold copied
      rw [dif_pos hset]
      simp only [numAu, hnum0, if_false, hc]
    rw [hcopied]
    refine iff_of_false (Option.some_ne_none _).symm fun hall => ?_
    have := hexact hall.2
    omega
  · have hcopied : ∀ room, (init (au * UInt32.ofNat bytes.length) au hau).count = .perAu room →
        copied ⟨au, .perAu bytes, h⟩ = if bytes.length ≤ room.length then
          some ⟨au, .perAu (bytes ++ room.drop bytes.length), fun _ => hau⟩ else none := by
      intro room hroom
      unfold copied
      rw [dif_pos hset]
      simp only [numAu, hnum0, if_false, hroom]
    rw [hcopied _ hc, List.length_replicate]
    rcases Nat.lt_or_ge (2 ^ 32) (au.toNat * bytes.length + au.toNat) with hgt | hle
    · have hshort := hwrap hgt
      rw [if_neg (by omega)]
      exact iff_of_false (Option.some_ne_none _).symm fun hall => absurd hall.2 (by omega)
    · have hall := hexact hle
      rw [if_pos hall.ge, List.drop_eq_nil_of_le (by rw [List.length_replicate]; exact hall.le),
        List.append_nil]
      exact iff_of_true rfl ⟨by omega, hle⟩

/-- Copies keep a well formed tracker exactly when it is copyable. -/
theorem copied_iff {t : UseTracker} (hv : t.Valid) : copied t = some t ↔ t.Copyable := by
  obtain ⟨au, count, hau⟩ := t
  cases count with
  | total n =>
    refine iff_of_true ?_ nofun
    rcases eq_or_ne au 0 with rfl | hne
    · have hzero : n = 0 := UseCount.total.inj (hv.unset rfl)
      subst hzero
      rfl
    · exact copied_total (UInt32.pos_iff_ne_zero.mpr hne) hau
  | perAu bytes =>
    obtain ⟨hne, hlen⟩ := hv.counters bytes rfl
    rw [copied_perAu (hau ⟨bytes, rfl⟩) hne hlen]
    simp [Copyable]

/-- A tracker that was written is read back. -/
theorem decode_encode {t : UseTracker} (hv : t.Valid) (rest : List UInt8) :
    decode (encode t ++ rest) = some (t, rest) := by
  obtain ⟨au, count, hau⟩ := t
  unfold encode decode
  rw [List.append_assoc]
  simp only [getU32_putU32, Option.bind_eq_bind, Option.bind_some]
  rcases eq_or_ne au 0 with rfl | hne
  · have hzero : count = .total 0 := hv.unset rfl
    subst hzero
    rfl
  · have hpos : 0 < au := UInt32.pos_iff_ne_zero.mpr hne
    rw [dif_pos hpos, if_neg hne, List.append_assoc]
    simp only [getU32_putU32, Option.bind_some]
    cases count with
    | total n => simp [numAu]
    | perAu bytes =>
      obtain ⟨hnil, hlen⟩ := hv.counters bytes rfl
      have hnum : (UInt32.ofNat bytes.length).toNat = bytes.length := by
        rw [UInt32.toNat_ofNat']
        exact Nat.mod_eq_of_lt hlen
      have hnum0 : UInt32.ofNat bytes.length ≠ 0 := by
        intro h0
        rw [h0] at hnum
        exact (List.length_pos_iff.mpr hnil).ne hnum
      have hread := @getMany_flatMap _ _ putU32 getU32 id bytes rest
        fun n _ rest => getU32_putU32 n rest
      simp only [numAu, hnum0, if_false, hnum, hread, Option.bind_some, List.map_id]

/-! ## Splits and growth -/

/-- A tracker that can be split has counters of its units. -/
theorem numAu_toNat {t : UseTracker} (hv : t.Valid) (h : t.canSplit = true) :
    ∃ bytes, t.count = .perAu bytes ∧ t.numAu.toNat = bytes.length := by
  obtain ⟨au, count, hau⟩ := t
  cases count with
  | total n => exact absurd h Bool.false_ne_true
  | perAu bytes =>
    refine ⟨bytes, rfl, ?_⟩
    rw [numAu, UInt32.toNat_ofNat']
    exact Nat.mod_eq_of_lt (hv.counters bytes rfl).2

/-- Both trackers are well formed and of the same unit, and together they have the counters. -/
structure SplitOf (t l r : UseTracker) : Prop where
  left : l.Valid
  right : r.Valid
  leftSize : l.auSize = t.auSize
  rightSize : r.auSize = t.auSize
  counts : l.counts ++ r.counts = t.counts

/-- A tracker with an array of counters is valid. -/
theorem valid_allocated {au : UInt32} (hau : 0 < au) {bytes : List UInt32} (hne : bytes ≠ [])
    (hlen : bytes.length < 2 ^ 32) (ptr : UInt32) : (allocated au hau bytes ptr).Valid where
  counters b hb := by
    have hcount : (allocated au hau bytes ptr).count = .perAu bytes := if_neg hne
    obtain rfl := UseCount.perAu.inj (hcount.symm.trans hb)
    exact ⟨hne, hlen⟩
  unset h0 := absurd (show au = 0 from h0) (UInt32.pos_iff_ne_zero.mp hau)

/-- Its counters are those of the array. -/
theorem counts_allocated {au : UInt32} (hau : 0 < au) {bytes : List UInt32} (hne : bytes ≠ [])
    (ptr : UInt32) : (allocated au hau bytes ptr).counts = bytes := by
  simp [allocated, UseTracker.counts, hne]

/-- A split that is allowed gives two trackers with the counters exactly when it is not at offset 0,
whatever the addresses of the arrays are. -/
theorem split_iff {t : UseTracker} (hv : t.Valid) {off : UInt32} (hsplit : t.canSplit = true)
    (hat : t.canSplitAt off = some true) (ptr ptr' : UInt32) :
    (∃ l r, t.split off ptr ptr' = some (l, r) ∧ SplitOf t l r) ↔ off ≠ 0 := by
  obtain ⟨bytes, hcount, hnum⟩ := numAu_toNat hv hsplit
  obtain ⟨hne, hlen⟩ := hv.counters bytes hcount
  have hau := t.au_pos ⟨bytes, hcount⟩
  have hpos : 0 < t.auSize.toNat := UInt32.lt_iff_toNat_lt.mp hau
  have hat' : off % t.auSize = 0 ∧ off < t.numAu * t.auSize := by
    unfold canSplitAt at hat
    rw [if_neg (UInt32.pos_iff_ne_zero.mp hau)] at hat
    simpa using hat
  have hmod : off.toNat % t.auSize.toNat = 0 := by
    rw [← UInt32.toNat_mod, hat'.1]
    rfl
  -- The product may wrap around, which makes the bound smaller.
  have hlt : off.toNat < bytes.length * t.auSize.toNat := by
    have hlt := UInt32.lt_iff_toNat_lt.mp hat'.2
    rw [UInt32.toNat_mul, hnum] at hlt
    exact hlt.trans_le (Nat.mod_le _ _)
  have hdiv : (off / t.auSize).toNat < bytes.length := by
    rw [UInt32.toNat_div]
    exact Nat.div_lt_of_lt_mul (by rwa [Nat.mul_comm])
  have hres : t.split off ptr ptr' =
      some (allocated t.auSize hau (bytes.take (off / t.auSize).toNat) ptr',
        allocated t.auSize hau (bytes.drop (off / t.auSize).toNat) ptr) := by
    unfold split
    split
    · rename_i n hn
      rw [hcount] at hn
      cases hn
    · rename_i b hb
      obtain rfl := UseCount.perAu.inj (hcount.symm.trans hb)
      exact if_neg hdiv.le.not_gt
  have hright : bytes.drop (off / t.auSize).toNat ≠ [] := by
    rw [ne_eq, List.drop_eq_nil_iff]
    omega
  have hcounts : t.counts = bytes := by rw [UseTracker.counts, hcount]
  constructor
  · rintro ⟨l, r, hlr, h⟩ rfl
    obtain ⟨rfl, rfl⟩ := Prod.mk.inj (Option.some.inj (hres.symm.trans hlr))
    -- The left tracker has a counter more than there are units on the left.
    have hcat := congrArg List.length h.counts
    rw [hcounts, List.length_append, counts_allocated hau hright] at hcat
    simp [allocated, UseTracker.counts] at hcat
  · intro hoff
    have hoff' : 0 < off.toNat := UInt32.lt_iff_toNat_lt.mp (UInt32.pos_iff_ne_zero.mpr hoff)
    have hfirst : 0 < (off / t.auSize).toNat := by
      rw [UInt32.toNat_div]
      exact Nat.div_pos (Nat.le_of_dvd hoff' (Nat.dvd_of_mod_eq_zero hmod)) hpos
    have hleft : bytes.take (off / t.auSize).toNat ≠ [] := by
      rw [ne_eq, List.take_eq_nil_iff]
      simp only [not_or]
      exact ⟨by omega, hne⟩
    refine ⟨_, _, hres, ?_, ?_, rfl, rfl, ?_⟩
    · exact valid_allocated hau hleft (by rw [List.length_take]; omega) ptr'
    · exact valid_allocated hau hright (by rw [List.length_drop]; omega) ptr
    · rw [counts_allocated hau hleft, counts_allocated hau hright, List.take_append_drop, hcounts]

/-- The tracker is of the same unit and has the counters and zeros for new units, of which there are
`num` in all. -/
structure GrownTo (t t' : UseTracker) (num : ℕ) : Prop where
  size : t'.auSize = t.auSize
  counts : t'.counts = t.counts ++ List.replicate (num - t.counts.length) 0

/-- `add_tail` to a larger multiple of the unit keeps the counters and adds zeros exactly when there
is an array already or the sum in `init` does not wrap around. -/
theorem addTail_iff {t : UseTracker} (hv : t.Valid) (hau : 0 < t.auSize) {newLen : UInt32} {num : ℕ}
    (hnum : newLen.toNat = t.auSize.toNat * num) (hmore : t.counts.length < num) :
    (∃ t', t.addTail newLen t.auSize = some t' ∧ GrownTo t t' num) ↔
      t.numAu ≠ 0 ∨ newLen.toNat + t.auSize.toNat ≤ 2 ^ 32 := by
  have hpos : 0 < t.auSize.toNat := UInt32.lt_iff_toNat_lt.mp hau
  have hlen : newLen.toNat < 2 ^ 32 := newLen.toNat_lt
  obtain ⟨au, count, hap⟩ := t
  dsimp only at hau hnum hpos ⊢
  cases count with
  -- One counter grows to several.
  | total n =>
    have hone : 1 < num := hmore
    have hne : newLen ≠ au * 1 := by
      rintro rfl
      rw [UInt32.mul_one] at hnum
      have := Nat.mul_lt_mul_of_pos_left hone hpos
      omega
    -- So many units make up the new length, but for the wrap.
    have hfull : newLen.toNat = au.toNat * num % 2 ^ 32 := by
      rw [← hnum, Nat.mod_eq_of_lt hlen]
    obtain ⟨hexact, hwrap⟩ := init_units hau hfull
    have hres : addTail ⟨au, .total n, hap⟩ newLen au =
        match (init newLen au hau).count with
        | .total _ => some (init newLen au hau)
        | .perAu bytes => some ⟨au, .perAu (bytes.set 0 n), fun _ => hau⟩ := by
      unfold addTail
      simp only [numAu, if_true, hne, if_false, dif_pos hau]
    rw [hres]
    have hzero : ¬ (⟨au, .total n, hap⟩ : UseTracker).numAu ≠ 0 := fun h => h rfl
    rw [or_iff_right hzero, hnum]
    have hold : (⟨au, .total n, hap⟩ : UseTracker).counts = [n] := rfl
    -- The number of counters decides.
    have hlength : ∀ t' : UseTracker, GrownTo ⟨au, .total n, hap⟩ t' num → t'.counts.length = num := by
      intro t' h
      rw [h.counts, hold, List.length_append, List.length_replicate, List.length_singleton]
      omega
    rcases @init_count_cases newLen au hau with ⟨hle, hc⟩ | ⟨hge, hc⟩
    · have hunit : (init newLen au hau).counts.length = 1 := by rw [UseTracker.counts, hc]; rfl
      rw [hc]
      refine iff_of_false ?_ fun hfit => ?_
      · rintro ⟨t', ht', h⟩
        obtain rfl := Option.some.inj ht'
        exact hone.ne (hunit.symm.trans (hlength _ h))
      · have := hexact hfit
        omega
    · rw [hc]
      constructor
      · rintro ⟨t', ht', h⟩
        obtain rfl := Option.some.inj ht'
        have hcount := hlength _ h
        rw [UseTracker.counts, List.length_set, List.length_replicate] at hcount
        by_contra hwide
        have := hwrap (not_le.mp hwide)
        omega
      · intro hfit
        refine ⟨_, rfl, rfl, ?_⟩
        rw [hexact hfit, hold]
        obtain ⟨k, rfl⟩ : ∃ k, num = k + 1 := ⟨num - 1, by omega⟩
        rfl
  -- Several counters get more behind them, which are zero.
  | perAu bytes =>
    obtain ⟨hne, hlen'⟩ := hv.counters bytes rfl
    have hcard : (UInt32.ofNat bytes.length).toNat = bytes.length := by
      rw [UInt32.toNat_ofNat']
      exact Nat.mod_eq_of_lt hlen'
    have hnum0 : UInt32.ofNat bytes.length ≠ 0 := by
      intro h0
      rw [h0] at hcard
      exact (List.length_pos_iff.mpr hne).ne hcard
    have hmore' : bytes.length < num := hmore
    have hsmall : au.toNat * bytes.length < newLen.toNat := by
      rw [hnum]
      exact Nat.mul_lt_mul_of_pos_left hmore' hpos
    have hne' : newLen ≠ au * UInt32.ofNat bytes.length := by
      rintro rfl
      rw [UInt32.toNat_mul, hcard, Nat.mod_eq_of_lt (by omega)] at hsmall
      exact lt_irrefl _ hsmall
    -- So many counters the new length asks for.
    have hdiv : (newLen / au).toNat = num := by
      rw [UInt32.toNat_div, hnum, Nat.mul_div_cancel_left _ hpos]
    refine iff_of_true ⟨⟨au, .perAu (bytes ++ List.replicate (num - bytes.length) 0), fun _ => hau⟩,
      ?_, rfl, rfl⟩ (.inl hnum0)
    unfold addTail
    simp only [numAu, hnum0, if_false, hne', UInt32.pos_iff_ne_zero.mp hau, hdiv]
    exact if_pos hmore'

/-! ## The operations together -/

/-- For every well formed tracker: copies are equal to it exactly when it has one counter or an array
of two elements or more and the sum in `init` does not wrap around; the encoding is read back; an
allowed split gives two trackers with its counters exactly when it is not at offset 0; and growth to
a larger multiple of the unit keeps the counters and adds zeros exactly when there is an array
already or that sum does not wrap around. -/
theorem operations_keep_iff {t : UseTracker} (hv : t.Valid) :
    ((t.copy = some t ∧ ∀ old : UseTracker, old.assign t = some t) ↔ t.Copyable) ∧
      (∀ rest, decode (t.encode ++ rest) = some (t, rest)) ∧
      (∀ off ptr ptr', t.canSplit = true → t.canSplitAt off = some true →
        ((∃ l r, t.split off ptr ptr' = some (l, r) ∧ SplitOf t l r) ↔ off ≠ 0)) ∧
      ∀ (newLen : UInt32) (num : ℕ), 0 < t.auSize → newLen.toNat = t.auSize.toNat * num →
        t.counts.length < num →
        ((∃ t', t.addTail newLen t.auSize = some t' ∧ GrownTo t t' num) ↔
          t.numAu ≠ 0 ∨ newLen.toNat + t.auSize.toNat ≤ 2 ^ 32) := by
  refine ⟨⟨fun h => (copied_iff hv).mp h.1, fun h => ?_⟩, decode_encode hv, ?_, ?_⟩
  · exact ⟨(copied_iff hv).mpr h, fun _ => (copied_iff hv).mpr h⟩
  · intro off ptr ptr' hsplit hat
    exact split_iff hv hsplit hat ptr ptr'
  · intro newLen num hau hnum hmore
    exact addTail_iff hv hau hnum hmore

/-- A tracker of two units. -/
def pair : UseTracker := ⟨0x1000, .perAu [0x1000, 0x800], fun _ => by decide⟩

/-- The tracker of two units is valid. -/
theorem valid_pair : pair.Valid where
  counters b hb := by
    obtain rfl := UseCount.perAu.inj hb
    exact ⟨by decide, by decide⟩
  unset h0 := absurd h0 (by decide)

/-- The tracker of two units is copied. -/
theorem operations_keep_pair : pair.copy = some pair := by
  have hcopy : pair.Copyable := by
    intro bytes hb
    obtain rfl := UseCount.perAu.inj hb
    decide
  exact ((operations_keep_iff valid_pair).1.mpr hcopy).1

/-- A split in the middle leaves a tracker with one element, which no copy keeps. -/
theorem half_not_copied :
    ∃ l r, pair.canSplit = true ∧ pair.canSplitAt 0x1000 = some true ∧
      pair.split 0x1000 0 0 = some (l, r) ∧ l.Valid ∧ l.copy = none := by
  refine ⟨⟨0x1000, .perAu [0x1000], fun _ => by decide⟩, ⟨0x1000, .perAu [0x800], fun _ => by decide⟩,
    rfl, rfl, rfl, ⟨?_, fun h0 => absurd h0 (by decide)⟩, rfl⟩
  intro b hb
  obtain rfl := UseCount.perAu.inj hb
  exact ⟨by decide, by decide⟩

end CxxLab.Bluestore.Object.UseTracker
