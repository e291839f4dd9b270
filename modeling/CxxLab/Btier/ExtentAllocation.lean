import CxxLab.Blk.AvlPlaces
import CxxLab.Btier.Engine

/-!
# The allocation of extents

`allocate_extent` and `allocate_raw` of `btier/extent_map.cc` over the allocators that `btier.cc`
gives them, one `AvlAllocator` for a tier. The engine leaves open what its allocators answer; here
their answer is the code's. Both functions want the size in one piece and use the first extent that
they get, also when the allocator has made up the size from several, and go from FAST to SLOW when
there is too little, also when that little is taken. `allocations_right_iff` says when neither
happens.
-/

namespace CxxLab.Btier

open Blk

/-- The bytes of a location. -/
def DiskLocation.bytes (loc : DiskLocation) : Set ℕ :=
  {x | loc.offset.toNat ≤ x ∧ x < loc.offset.toNat + loc.length.toNat}

/-- What the extent map has of the allocators. -/
structure TierAllocators where
  /-- `block_size`, which is also that of the allocators. -/
  blockSize : ℕ
  /-- The sizes of the devices. -/
  deviceSize : Tier → ℕ
  /-- `allocators`: the allocator of a tier, if one was added. -/
  allocator : Tier → Option (AvlAllocator Unit)

namespace TierAllocators

/-- The configuration of the allocator of a tier. -/
def cfg (a : TierAllocators) (t : Tier) : AvlConfig Unit := .plain (a.deviceSize t) a.blockSize

/-- The free bytes of a tier: the ranges of its allocator, as `foreach` tells them. -/
def free (a : TierAllocators) (t : Tier) : Set ℕ :=
  ((a.allocator t).map AvlAllocator.freeBytes).getD ∅

/-- `round_up_to` of words. -/
def roundUpTo (n d : ℕ) : ℕ := if n % d = 0 then n else (n + (d - n % d)) % wordEnd

/-- `aligned_size`. -/
def alignedSize (a : TierAllocators) (size : ℕ) : ℕ :=
  if roundUpTo size a.blockSize = 0 then a.blockSize else roundUpTo size a.blockSize

/-- What the allocator of a tier comes to. -/
inductive Answer where
  /-- There is no allocator. -/
  | noAllocator
  /-- It has returned too little. -/
  | tooLittle
  /-- The first extent that it has returned. -/
  | granted (loc : DiskLocation)

/-- The call of the allocator of a tier; `none` is a failed assertion. `pastEnd` is what the
allocator reads behind its last range. -/
def allocateOn (pastEnd : ℕ) (a : TierAllocators) (t : Tier) (size : ℕ) :
    Option (Answer × TierAllocators) :=
  let aligned := a.alignedSize size
  match a.allocator t with
  | none => some (.noAllocator, a)
  | some tree =>
    (AvlAllocator.allocate (a.cfg t) tree pastEnd aligned a.blockSize aligned).map fun p =>
      (match p.2 with
        | [] => .tooLittle
        | e :: _ =>
          if AvlAllocator.allocateReturn p.2 < Int.bmod aligned wordEnd then .tooLittle
          else .granted ⟨UInt64.ofNat e.1, UInt32.ofNat e.2, t⟩,
        { a with allocator := Function.update a.allocator t (some p.1) })

/-- `allocate_raw`. -/
def allocateRaw (pastEnd : Tier → ℕ) (a : TierAllocators) (t : Tier) (size : ℕ) :
    Option (Option DiskLocation × TierAllocators) :=
  match a.allocateOn (pastEnd t) t size with
  | none => none
  | some (.noAllocator, a) => some (none, a)
  | some (.granted loc, a) => some (some loc, a)
  | some (.tooLittle, a) =>
    if t = .fast then
      (a.allocateOn (pastEnd .slow) .slow size).map fun
        | (.granted loc, a) => (some loc, a)
        | (_, a) => (none, a)
    else some (none, a)

/-- The second part of `allocate_extent`: the entry of the extent, and its header. -/
def enterExtent (env : Env) (e : Engine) (loc : DiskLocation) : UInt64 × Engine :=
  let id := e.nextExtentId
  (id, { e with
    nextExtentId := id + 1
    entries := e.entries.insert id { location := loc }
    freeLists := Function.update e.freeLists loc.tier
      (Engine.freeInsert (loc.length - headerSize, id) (e.freeLists loc.tier)) }.writeExtentHeader
    env id loc)

/-- `allocate_extent`. -/
def allocateExtent (pastEnd : Tier → ℕ) (env : Env) (e : Engine) (a : TierAllocators) (t : Tier)
    (size : ℕ) : Option (Option (UInt64 × DiskLocation) × TierAllocators × Engine) :=
  (a.allocateRaw pastEnd t size).map fun
    | (none, a) => (none, a, e)
    | (some loc, a) => (some ((enterExtent env e loc).1, loc), a, (enterExtent env e loc).2)

/-! ## What an allocation should come to -/

/-- What a call should come to, for free bytes before it: when it returns a location, that is long
enough and was free, it and nothing else has left the free bytes of its tier, and the other tier has
its own; when it fails, both tiers have theirs. A call in which an assertion fails does neither. -/
def Right (a : TierAllocators) (size : ℕ) : Option (Option DiskLocation × TierAllocators) → Prop
  | none => True
  | some (none, a') => ∀ t, a'.free t = a.free t
  | some (some loc, a') =>
    size ≤ loc.length.toNat ∧ loc.bytes ⊆ a.free loc.tier ∧
      a'.free loc.tier = a.free loc.tier \ loc.bytes ∧ ∀ t, t ≠ loc.tier → a'.free t = a.free t

section

variable (pastEnd : ℕ) (a : TierAllocators) (t : Tier) (size : ℕ)

/-- The largest extent that the allocators make for the size. -/
def largest : ℕ := AvlAllocator.maxExtent (a.cfg t) (a.alignedSize size) (a.alignedSize size)

/-- The tier has an allocator, and it finds no place. -/
def NonePlaced : Prop :=
  ∃ tree ∈ a.allocator t, AvlAllocator.NoPlace (a.cfg t) tree pastEnd (a.largest t size) a.blockSize

/-- The tier has an allocator, and it finds a place for the aligned size in one piece. -/
def WholePlaced : Prop :=
  ∃ tree ∈ a.allocator t, a.largest t size = a.alignedSize size ∧
    AvlAllocator.WholePlace (a.cfg t) tree pastEnd (a.alignedSize size) a.blockSize

/-- A tier is asked well: it has no allocator, or one that finds no place, or a place for the aligned
size in one piece, and that is not below the size. -/
def TierFits : Prop :=
  a.allocator t = none ∨ NonePlaced pastEnd a t size ∨
    WholePlaced pastEnd a t size ∧ size ≤ a.alignedSize size

end

/-- Every tier that is asked fits: the one of the call, and after FAST with no place SLOW. A block
size that is no power of two, or one that leaves no extent below 4 GiB, fails an assertion
instead. -/
def Fits (pastEnd : Tier → ℕ) (a : TierAllocators) (t : Tier) (size : ℕ) : Prop :=
  isp2 a.blockSize = true → 0 < a.largest t size →
    TierFits (pastEnd t) a t size ∧
      (t = .fast → NonePlaced (pastEnd t) a t size → TierFits (pastEnd .slow) a .slow size)

/-! ## One tier -/

variable {a : TierAllocators} {t : Tier} {size pastEnd : ℕ}

/-- The bytes of an extent that fits its fields. -/
theorem bytes_extent {offset length : ℕ} (ho : offset < wordEnd) (hl : length < 0x100000000)
    (t : Tier) : (⟨UInt64.ofNat offset, UInt32.ofNat length, t⟩ : DiskLocation).bytes =
      AvlAllocator.bytesOf [(offset, length)] := by
  have ho' : (UInt64.ofNat offset).toNat = offset := UInt64.toNat_ofNat_of_lt' ho
  have hl' : (UInt32.ofNat length).toNat = length := UInt32.toNat_ofNat_of_lt' hl
  rw [AvlAllocator.bytesOf_singleton]
  unfold DiskLocation.bytes
  rw [ho', hl']

/-- The aligned size is at most a block longer. -/
theorem alignedSize_le (a : TierAllocators) (size : ℕ) :
    a.alignedSize size ≤ size + a.blockSize := by
  have hround : roundUpTo size a.blockSize ≤ size + a.blockSize := by
    unfold roundUpTo
    split_ifs
    · omega
    · exact (Nat.mod_le _ _).trans (by omega)
  unfold alignedSize
  split_ifs
  · omega
  · exact hround

/-- It is a word, and a multiple of the block size. -/
theorem alignedSize_word {k : ℕ} (hk : k < 64) (hbs : a.blockSize = 2 ^ k)
    (hsize : size < wordEnd) :
    a.alignedSize size < wordEnd ∧ a.alignedSize size % a.blockSize = 0 := by
  have hb : 2 ^ k < wordEnd := by
    rw [wordEnd_eq]
    exact Nat.pow_lt_pow_right (by norm_num) hk
  have hdvd : 2 ^ k ∣ wordEnd := by
    rw [wordEnd_eq]
    exact pow_dvd_pow 2 hk.le
  have hround : roundUpTo size (2 ^ k) < wordEnd ∧ 2 ^ k ∣ roundUpTo size (2 ^ k) := by
    unfold roundUpTo
    split_ifs with hrem
    · exact ⟨hsize, Nat.dvd_of_mod_eq_zero hrem⟩
    · refine ⟨Nat.mod_lt _ (by rw [wordEnd_eq]; positivity), ?_⟩
      rw [Nat.dvd_mod_iff hdvd]
      have hlt := Nat.mod_lt size (Nat.two_pow_pos k)
      have hdiv := Nat.div_add_mod size (2 ^ k)
      exact ⟨size / 2 ^ k + 1, by rw [Nat.mul_add]; omega⟩
  unfold alignedSize
  rw [hbs]
  split_ifs
  · exact ⟨hb, Nat.mod_self _⟩
  · exact ⟨hround.1, Nat.mod_eq_zero_of_dvd hround.2⟩

/-- The largest extent fits the length of a location; and when the size is longer, a block does. -/
theorem largest_le {k : ℕ} (hk : k < 64) (hbs : a.blockSize = 2 ^ k) :
    a.largest t size ≤ AvlAllocator.extentCap ∧
      (0 < a.largest t size → AvlAllocator.extentCap ≤ a.alignedSize size →
        a.blockSize ≤ AvlAllocator.extentCap) := by
  have hwant : (if a.alignedSize size = 0 then a.alignedSize size else a.alignedSize size) =
      a.alignedSize size := by split_ifs <;> rfl
  unfold largest AvlAllocator.maxExtent
  rw [hwant]
  dsimp only
  change (if _ then p2align AvlAllocator.extentCap a.blockSize else _) ≤ _ ∧
    (0 < (if _ then p2align AvlAllocator.extentCap a.blockSize else _) → _)
  split_ifs with hcap
  · refine ⟨p2align_le _ _, fun hpos _ => ?_⟩
    rw [hbs, p2align_eq hk (by decide)] at hpos
    rw [hbs]
    exact (Nat.div_pos_iff.mp (Nat.pos_of_mul_pos_right hpos)).2
  · exact ⟨by omega, fun _ h => absurd h hcap⟩

/-- What the allocator of a tier is: reached by calls, for a device and blocks whose sizes are
words. -/
structure Sound (a : TierAllocators) (t : Tier) : Prop where
  /-- `block_size` is a word. -/
  blockSize : a.blockSize < wordEnd
  /-- The size of a device is a signed word. -/
  deviceSize : a.deviceSize t < 0x8000000000000000
  /-- Calls that keep their promises reach the allocator. -/
  reached : ∀ tree ∈ a.allocator t, AvlAllocator.Reached (a.cfg t) tree

/-- How a call of the allocator of a tier stands. -/
inductive Answered (pastEnd : ℕ) (a : TierAllocators) (t : Tier) (size : ℕ) :
    Answer → Set ℕ → Prop where
  /-- There is no allocator. -/
  | noAllocator (h : a.allocator t = none) : Answered pastEnd a t size .noAllocator (a.free t)
  /-- No place was found. -/
  | nothing (h : NonePlaced pastEnd a t size) : Answered pastEnd a t size .tooLittle (a.free t)
  /-- One extent was taken. -/
  | whole (loc : DiskLocation) (some : ¬NonePlaced pastEnd a t size)
    (h : WholePlaced pastEnd a t size) (tier : loc.tier = t)
    (length : loc.length.toNat = a.alignedSize size) (free : loc.bytes ⊆ a.free t) :
    Answered pastEnd a t size (.granted loc) (a.free t \ loc.bytes)
  /-- Something was taken that is no location for the size. -/
  | part (answer : Answer) (left : Set ℕ) (some : ¬NonePlaced pastEnd a t size)
    (short : ¬WholePlaced pastEnd a t size) (taken : left ≠ a.free t)
    (loc : ∀ loc, answer = .granted loc → loc.tier = t ∧
      (size ≤ loc.length.toNat → left ≠ a.free t \ loc.bytes))
    (asked : answer ≠ .noAllocator) (tree : a.allocator t ≠ none) :
    Answered pastEnd a t size answer left

/-- The free bytes after a tier has another allocator. -/
theorem free_update (a : TierAllocators) (t u : Tier) (tree : AvlAllocator Unit) :
    { a with allocator := Function.update a.allocator t (some tree) }.free u =
      if u = t then tree.freeBytes else a.free u := by
  unfold free
  dsimp only
  split_ifs with h
  · rw [h, Function.update_self]
    rfl
  · rw [Function.update_of_ne h]

/-- What the tree of a tier finds, the tier finds. -/
theorem nonePlaced_iff {tree : AvlAllocator Unit} (h : a.allocator t = some tree) :
    NonePlaced pastEnd a t size ↔
      AvlAllocator.NoPlace (a.cfg t) tree pastEnd (a.largest t size) a.blockSize := by
  simp [NonePlaced, h]

/-- So with the place for all. -/
theorem wholePlaced_iff {tree : AvlAllocator Unit} (h : a.allocator t = some tree) :
    WholePlaced pastEnd a t size ↔ a.largest t size = a.alignedSize size ∧
      AvlAllocator.WholePlace (a.cfg t) tree pastEnd (a.alignedSize size) a.blockSize := by
  simp [WholePlaced, h]

/-- Extents of which the first is not empty take something. -/
theorem bytesOf_head_ne {F : Set ℕ} {e : ℕ × ℕ} {es : List (ℕ × ℕ)} (hpos : 0 < e.2)
    (hfree : ∀ x, e.1 ≤ x → x < e.1 + e.2 → x ∈ F) :
    F \ AvlAllocator.bytesOf (e :: es) ≠ F := by
  intro heq
  have hin : e.1 ∈ F \ AvlAllocator.bytesOf (e :: es) := by
    rw [heq]
    exact hfree _ le_rfl (by omega)
  exact hin.2 ⟨e, List.mem_cons_self, le_rfl, by omega⟩

/-- More extents take more than the first. -/
theorem bytesOf_rest_ne {F : Set ℕ} {e : ℕ × ℕ} {es : List (ℕ × ℕ)}
    (hrest : AvlAllocator.bytesOf es ⊆ F \ AvlAllocator.bytesOf [e]) (hpos : ∀ q ∈ es, 0 < q.2)
    (hne : es ≠ []) :
    F \ AvlAllocator.bytesOf (e :: es) ≠ F \ AvlAllocator.bytesOf [e] := by
  intro heq
  obtain ⟨q, qs, rfl⟩ := List.exists_cons_of_ne_nil hne
  have hq : q.1 ∈ AvlAllocator.bytesOf (q :: qs) :=
    ⟨q, List.mem_cons_self, le_rfl, by have := hpos q List.mem_cons_self; omega⟩
  have hin := hrest hq
  rw [← heq] at hin
  obtain ⟨r, hr, hx⟩ := hq
  exact hin.2 ⟨r, List.mem_cons_of_mem _ hr, hx⟩

/-- What is returned for one extent. -/
theorem allocateReturn_singleton {offset length : ℕ} (hpos : 0 < length)
    (hle : length ≤ AvlAllocator.extentCap) :
    AvlAllocator.allocateReturn [(offset, length)] = length := by
  have htotal : AvlAllocator.total [(offset, length)] = length := List.sum_singleton
  have hcap : AvlAllocator.extentCap = 0xFFFFFFFF := rfl
  have hpos' : ∀ e ∈ [(offset, length)], 0 < e.2 := fun e he => by
    rw [List.mem_singleton.mp he]
    exact hpos
  rw [AvlAllocator.allocateReturn_eq hpos' (by omega), if_neg (List.cons_ne_nil _ _), htotal]

/-- The cast of a word to a signed one. -/
theorem bmod_word {n : ℕ} (h : n < wordEnd) :
    Int.bmod n wordEnd = if n < 0x8000000000000000 then (n : ℤ) else n - wordEnd := by
  rw [Int.bmod_def]
  unfold wordEnd at *
  split_ifs <;> omega

/-- The call of the allocator of a tier: no assertion fails, and it stands in one of four ways. -/
theorem Sound.allocateOn (hs : a.Sound t) (hsize : size < wordEnd)
    (hbs : isp2 a.blockSize = true) (hpos : 0 < a.largest t size) (pastEnd : ℕ) :
    ∃ answer next, TierAllocators.allocateOn pastEnd a t size =
        some (answer, { a with allocator := next }) ∧
      (∀ u, u ≠ t → next u = a.allocator u) ∧
      Answered pastEnd a t size answer ({ a with allocator := next }.free t) := by
  -- The unit of the call is the block size, a power of two.
  obtain ⟨hu0, -, k, hk⟩ := unit_le hbs hs.blockSize
  have hk64 : k < 64 := by
    have hlt := hs.blockSize
    rw [hk, wordEnd_eq] at hlt
    exact (Nat.pow_lt_pow_iff_right (by norm_num)).mp hlt
  obtain ⟨hword, hdvd⟩ := alignedSize_word hk64 hk hsize
  obtain ⟨hcap, hblock⟩ := @largest_le a t size k hk64 hk
  have hsizele := alignedSize_le a size
  have hcapeq : AvlAllocator.extentCap = 0xFFFFFFFF := rfl
  have hword64 : wordEnd = 0x10000000000000000 := rfl
  have hword32 : UInt32.size = 0x100000000 := rfl
  unfold TierAllocators.allocateOn
  cases htree : a.allocator t with
  | none => exact ⟨.noAllocator, a.allocator, rfl, fun _ _ => rfl, .noAllocator htree⟩
  | some tree =>
    obtain ⟨hrep, hwithin⟩ := (hs.reached tree htree).stands hs.deviceSize hs.blockSize
    have hfree : a.free t = tree.freeBytes := by
      unfold free
      rw [htree]
      rfl
    -- The bytes of a tier are below 2^63.
    have hlow : ∀ x ∈ tree.freeBytes, x < 0x8000000000000000 := fun x hx =>
      (hwithin.mem x hx).trans hs.deviceSize
    obtain ⟨tree', es, hcall, hout⟩ :=
      hrep.allocate_outcome hwithin rfl hbs hs.blockSize hdvd hword hpos pastEnd
    have hcall' : AvlAllocator.allocate (a.cfg t) tree pastEnd (a.alignedSize size) a.blockSize
      (a.alignedSize size) = some (tree', es) := hcall
    dsimp only
    rw [hcall', Option.map_some]
    refine ⟨_, _, rfl, fun u hu => Function.update_of_ne hu _ _, ?_⟩
    rw [free_update, if_pos rfl]
    -- What the allocator gave: nothing, all that was wanted in one piece, or pieces.
    cases hout with
    | none place left =>
      rw [left.freeBytes_eq, ← hfree]
      exact .nothing ((nonePlaced_iff htree).mpr place)
    | whole offset limit some place free left =>
      have hlim : a.alignedSize size ≤ AvlAllocator.extentCap := limit ▸ hcap
      have hpos' : 0 < a.alignedSize size := limit ▸ hpos
      have ho := hlow offset (free offset le_rfl (by omega))
      have hbytes : DiskLocation.bytes ⟨UInt64.ofNat offset, UInt32.ofNat (a.alignedSize size), t⟩ =
          AvlAllocator.bytesOf [(offset, a.alignedSize size)] :=
        bytes_extent (by omega) (by omega) t
      have hret : ¬AvlAllocator.allocateReturn [(offset, a.alignedSize size)] <
          Int.bmod (a.alignedSize size) wordEnd := by
        rw [allocateReturn_singleton hpos' hlim, bmod_word hword, if_pos (by omega)]
        exact lt_irrefl _
      dsimp only
      rw [if_neg hret, left.freeBytes_eq, ← hfree, ← hbytes]
      refine .whole _ (fun h => some ((nonePlaced_iff htree).mp h))
        ((wholePlaced_iff htree).mpr ⟨limit, place⟩) rfl ?_ ?_
      · exact UInt32.toNat_ofNat_of_lt' (by omega)
      · rw [hbytes, hfree, AvlAllocator.bytesOf_singleton]
        exact fun x hx => free x hx.1 hx.2
    | part offset length es some short lt le pos free rest restPos left =>
      have hlim : length ≤ AvlAllocator.extentCap := le.trans hcap
      have ho := hlow offset (free offset le_rfl (by omega))
      have hbytes : DiskLocation.bytes ⟨UInt64.ofNat offset, UInt32.ofNat length, t⟩ =
          AvlAllocator.bytesOf [(offset, length)] :=
        bytes_extent (by omega) (by omega) t
      refine .part _ _ (fun h => some ((nonePlaced_iff htree).mp h))
        (fun h => short ((wholePlaced_iff htree).mp h)) ?_ ?_ ?_ (by simp [htree])
      · rw [left.freeBytes_eq, hfree]
        exact bytesOf_head_ne pos free
      · intro loc hloc
        dsimp only at hloc
        split_ifs at hloc with hret
        obtain rfl := Answer.granted.inj hloc
        refine ⟨rfl, fun hlong => ?_⟩
        rw [left.freeBytes_eq, hfree, hbytes]
        refine bytesOf_rest_ne rest restPos fun hnil => hret ?_
        -- A single extent that is shorter passes only for a negative size, and is then too short.
        have hlen : (UInt32.ofNat length).toNat = length := UInt32.toNat_ofNat_of_lt' (by omega)
        change size ≤ (UInt32.ofNat length).toNat at hlong
        rw [hnil, allocateReturn_singleton pos hlim, bmod_word hword]
        have hblock' := hblock hpos
        split_ifs <;> omega
      · dsimp only
        split_ifs <;> simp

/-- Where the allocator does not take the arguments, a failed assertion or nothing happens. -/
theorem allocateOn_unasked (h : isp2 a.blockSize = true → a.largest t size = 0) (pastEnd : ℕ) :
    allocateOn pastEnd a t size = none ∨ allocateOn pastEnd a t size = some (.noAllocator, a) ∨
      allocateOn pastEnd a t size = some (.tooLittle, a) := by
  unfold allocateOn
  cases htree : a.allocator t with
  | none => exact .inr (.inl rfl)
  | some tree =>
    dsimp only
    cases hcall : AvlAllocator.allocate (a.cfg t) tree pastEnd (a.alignedSize size) a.blockSize
      (a.alignedSize size) with
    | none => exact .inl rfl
    | some out =>
      have hbs : isp2 a.blockSize = true ∧ a.alignedSize size % a.blockSize = 0 := by
        by_contra hno
        rw [AvlAllocator.allocate, if_neg hno] at hcall
        cases hcall
      have hu0 : 0 < a.blockSize := by
        have hp := hbs.1
        simp only [isp2, Bool.decide_and, Bool.and_eq_true, decide_eq_true_eq] at hp
        exact hp.1
      rw [AvlAllocator.allocate, if_pos hbs] at hcall
      change AvlAllocator.allocateLoop _ _ _ (a.largest t size) _ _ _ = _ at hcall
      rw [h hbs.1] at hcall
      obtain rfl := AvlAllocator.allocateLoop_zero hu0 hcall
      refine .inr (.inr ?_)
      rw [Option.map_some]
      dsimp only
      rw [← htree, Function.update_eq_self]

/-! ## Both tiers -/

/-- The location of an answer. -/
def Answer.location : Answer → Option DiskLocation
  | .granted loc => some loc
  | _ => none

/-- The tier where the call ends decides whether it is right. -/
theorem Answered.right_iff {answer : Answer} {a' : TierAllocators}
    (h : Answered pastEnd a t size answer (a'.free t))
    (hothers : ∀ u, u ≠ t → a'.free u = a.free u) :
    Right a size (some (answer.location, a')) ↔ TierFits pastEnd a t size := by
  have hall : a'.free t = a.free t → ∀ u, a'.free u = a.free u := fun ht u => by
    by_cases hu : u = t
    · rw [hu, ht]
    · exact hothers u hu
  obtain ⟨left, hleft⟩ : ∃ left, a'.free t = left := ⟨_, rfl⟩
  rw [hleft] at h hall
  cases h with
  | noAllocator h => exact ⟨fun _ => .inl h, fun _ => hall rfl⟩
  | nothing h => exact ⟨fun _ => .inr (.inl h), fun _ => hall rfl⟩
  | whole loc some h tier length free =>
    subst tier
    have hsome : a.allocator loc.tier ≠ none := fun hnone => by
      obtain ⟨tree, htree, -⟩ := h
      rw [hnone] at htree
      cases htree
    calc Right a size (.some (.some loc, a'))
        ↔ size ≤ a.alignedSize size :=
          ⟨fun hr => length ▸ hr.1, fun hr => ⟨length ▸ hr, free, hleft, hothers⟩⟩
      _ ↔ TierFits pastEnd a loc.tier size := by
          simp [TierFits, hsome, some, h]
  | part _ _ some short taken hloc asked tree =>
    refine iff_of_false ?_ (by simp [TierFits, some, short, tree])
    cases answer with
    | noAllocator => exact absurd rfl asked
    | tooLittle => exact fun hr => taken (hleft ▸ hr t)
    | granted loc =>
      obtain ⟨rfl, hne⟩ := hloc loc rfl
      exact fun hr => hne hr.1 (hleft ▸ hr.2.2.1)

/-- An answer with an extent, or with no allocator, comes with a place or none to look at. -/
theorem Answered.some {answer : Answer} {left : Set ℕ}
    (h : Answered pastEnd a t size answer left) (hne : answer ≠ .tooLittle) :
    ¬NonePlaced pastEnd a t size := by
  cases h with
  | noAllocator h =>
    rintro ⟨tree, htree, -⟩
    rw [h] at htree
    cases htree
  | nothing h => exact absurd rfl hne
  | whole loc some => exact some
  | part _ _ some => exact some

/-- A location is on the tier that was asked. -/
theorem Answered.tier {loc : DiskLocation} {left : Set ℕ}
    (h : Answered pastEnd a t size (.granted loc) left) : loc.tier = t := by
  cases h with
  | whole _ _ _ tier => exact tier
  | part _ _ _ _ _ hloc => exact (hloc loc rfl).1

/-- Too little is nothing, or something that is taken all the same. -/
theorem Answered.tooLittle {left : Set ℕ} (h : Answered pastEnd a t size .tooLittle left) :
    NonePlaced pastEnd a t size ∧ left = a.free t ∨
      ¬TierFits pastEnd a t size ∧ left ≠ a.free t := by
  cases h with
  | nothing h => exact .inl ⟨h, rfl⟩
  | part _ _ some short taken hloc asked tree =>
    exact .inr ⟨by simp [TierFits, some, short, tree], taken⟩

/-- Whether a call is right depends on the free bytes before it only. -/
theorem right_congr {b : TierAllocators} (h : ∀ u, b.free u = a.free u)
    (r : Option (Option DiskLocation × TierAllocators)) : Right b size r ↔ Right a size r := by
  rcases r with _ | ⟨_ | loc, a'⟩
  · exact Iff.rfl
  · simp only [Right, h]
  · simp only [Right, h]

/-- Whether a tier fits depends on its own allocator only. -/
theorem tierFits_congr {next : Tier → Option (AvlAllocator Unit)}
    (h : next t = a.allocator t) :
    TierFits pastEnd { a with allocator := next } t size ↔ TierFits pastEnd a t size := by
  unfold TierFits NonePlaced WholePlaced
  dsimp only
  rw [h]
  exact Iff.rfl

/-- The free bytes of a tier are those of its allocator. -/
theorem free_congr {next : Tier → Option (AvlAllocator Unit)} (h : next t = a.allocator t) :
    { a with allocator := next }.free t = a.free t := by
  unfold free
  dsimp only
  rw [h]

/-- `allocate_raw` is right exactly when the tiers that it asks fit. -/
theorem allocateRaw_right_iff (hs : ∀ t, a.Sound t) (hsize : size < wordEnd)
    (pastEnd : Tier → ℕ) (t : Tier) :
    Right a size (allocateRaw pastEnd a t size) ↔ Fits pastEnd a t size := by
  by_cases hask : isp2 a.blockSize = true ∧ 0 < a.largest t size
  · obtain ⟨hbs, hpos⟩ := hask
    obtain ⟨answer, next, hcall, hothers, hans⟩ :=
      (hs t).allocateOn hsize hbs hpos (pastEnd t)
    have hfits : Fits pastEnd a t size ↔ TierFits (pastEnd t) a t size ∧
        (t = .fast → NonePlaced (pastEnd t) a t size → TierFits (pastEnd .slow) a .slow size) :=
      ⟨fun h => h hbs hpos, fun h _ _ => h⟩
    have hone := hans.right_iff fun u hu => free_congr (hothers u hu)
    unfold allocateRaw
    rw [hcall, hfits]
    -- The slow tier is asked behind the fast one only.
    have hlast : answer ≠ .tooLittle ∨ t ≠ .fast →
        (Right a size (some (answer.location, { a with allocator := next })) ↔
          TierFits (pastEnd t) a t size ∧ (t = .fast → NonePlaced (pastEnd t) a t size →
            TierFits (pastEnd .slow) a .slow size)) := by
      intro hend
      rw [hone, iff_self_and]
      intro _ ht hnone
      rcases hend with hne | hne
      · exact absurd hnone (hans.some hne)
      · exact absurd ht hne
    -- The answer of the first tier is the last, or too little was found on the fast one.
    cases answer with
    | noAllocator => exact hlast (.inl (by simp))
    | granted loc => exact hlast (.inl (by simp))
    | tooLittle =>
      dsimp only
      by_cases ht : t = .fast
      · subst ht
        rw [if_pos rfl]
        -- SLOW has its allocator, and its answer is that of the call.
        have hnext : next .slow = a.allocator .slow := hothers .slow (by simp)
        have hs' : Sound { a with allocator := next } .slow :=
          ⟨(hs .slow).blockSize, (hs .slow).deviceSize, fun tree htree =>
            (hs .slow).reached tree (by rw [← hnext]; exact htree)⟩
        obtain ⟨answer', next', hcall', hothers', hans'⟩ :=
          hs'.allocateOn hsize hbs hpos (pastEnd .slow)
        have hother : ∀ u, u ≠ .slow → { a with allocator := next' }.free u =
            { a with allocator := next }.free u := fun u hu => by
          unfold free
          dsimp only
          rw [hothers' u hu]
        have hslow := hans'.right_iff hother
        rw [tierFits_congr hnext] at hslow
        rw [hcall', Option.map_some]
        have hmatch : (match (answer', ({ a with allocator := next' } : TierAllocators)) with
            | (Answer.granted loc, a) => (Option.some loc, a)
            | (_, a) => (Option.none, a)) = (answer'.location, { a with allocator := next' }) := by
          cases answer' <;> rfl
        rw [hmatch]
        rcases hans.tooLittle with ⟨hnone, hleft⟩ | ⟨hnot, hleft⟩
        · have hsame : ∀ u, { a with allocator := next }.free u = a.free u := fun u => by
            by_cases hu : u = .fast
            · rw [hu, hleft]
            · exact free_congr (hothers u hu)
          rw [← right_congr hsame, hslow]
          exact ⟨fun h => ⟨.inr (.inl hnone), fun _ _ => h⟩, fun h => h.2 rfl hnone⟩
        · -- What FAST has lost it does not get back.
          refine iff_of_false (fun hr => hleft ?_) fun h => hnot h.1
          rw [← hother .fast (by simp)]
          cases answer' with
          | granted loc => exact hr.2.2.2 .fast (by rw [hans'.tier]; simp)
          | _ => exact hr .fast
      · rw [if_neg ht]
        exact hlast (.inr ht)
  -- Nothing is asked of either tier.
  · have hzero : isp2 a.blockSize = true → a.largest t size = 0 := fun hbs => by
      by_contra hne
      exact hask ⟨hbs, Nat.pos_of_ne_zero hne⟩
    refine iff_of_true ?_ fun hbs hpos => absurd ⟨hbs, hpos⟩ hask
    have hslow := allocateOn_unasked (t := .slow) hzero (pastEnd .slow)
    unfold allocateRaw
    rcases allocateOn_unasked hzero (pastEnd t) with h | h | h
    · rw [h]
      trivial
    · rw [h]
      exact fun _ => rfl
    · rw [h]
      dsimp only
      split_ifs
      · rcases hslow with h' | h' | h' <;> rw [h']
        · trivial
        · exact fun _ => rfl
        · exact fun _ => rfl
      · exact fun _ => rfl

/-- `allocate_extent` has the allocation of `allocate_raw`. -/
theorem allocateExtent_eq (pastEnd : Tier → ℕ) (env : Env) (e : Engine) (a : TierAllocators)
    (t : Tier) (size : ℕ) :
    (allocateExtent pastEnd env e a t size).map (fun p => (p.1.map Prod.snd, p.2.1)) =
      allocateRaw pastEnd a t size := by
  unfold allocateExtent
  rcases allocateRaw pastEnd a t size with _ | ⟨_ | loc, a'⟩ <;> rfl

/-- For all states of the allocators that calls reach, and for every size, both calls are right
exactly when the tiers that are asked fit. -/
theorem allocations_right_iff (hs : ∀ t, a.Sound t) (hsize : size < wordEnd)
    (pastEnd : Tier → ℕ) (t : Tier) :
    (Right a size (allocateRaw pastEnd a t size) ↔ Fits pastEnd a t size) ∧
      ∀ env e, Right a size ((allocateExtent pastEnd env e a t size).map fun p =>
        (p.1.map Prod.snd, p.2.1)) ↔ Fits pastEnd a t size := by
  have hraw := allocateRaw_right_iff hs hsize pastEnd t
  refine ⟨hraw, fun env e => ?_⟩
  rw [allocateExtent_eq]
  exact hraw

/-- Two free blocks, with one between them that is not free. -/
def twoBlocks : List AvlAllocator.Call := [.initAddFree 0 0x1000, .initAddFree 0x2000 0x1000]

/-- Both tiers have two free blocks apart. -/
def fragmented : TierAllocators where
  blockSize := 0x1000
  deviceSize _ := 0x10000
  allocator _ := (Runs.exec (AvlAllocator.call (.plain 0x10000 0x1000)) .init twoBlocks).map
    AvlAllocator.Modelled.trees

/-- The blocks may be added. -/
theorem fragmented_sound (t : Tier) : fragmented.Sound t where
  blockSize := by decide
  deviceSize := by
    change (0x10000 : ℕ) < 0x8000000000000000
    decide
  reached tree htree := by
    have hmap : (Runs.exec (AvlAllocator.call (.plain 0x10000 0x1000)) .init twoBlocks).map
      AvlAllocator.Modelled.trees = some tree := htree
    obtain ⟨s, hs, rfl⟩ := Option.map_eq_some_iff.mp hmap
    have hdev : ∀ n ≤ 0x10000, n ≤ (fragmented.cfg t).deviceSize := fun _ hn => hn
    refine ⟨twoBlocks, s, ⟨⟨hdev _ (by decide), fun x _ hx => hx⟩, fun s1 h1 => ?_⟩, hs, rfl⟩
    have hfree := AvlAllocator.free_of_initAddFree h1
    refine ⟨⟨hdev _ (by decide), fun x hx => ?_⟩, fun _ _ => trivial⟩
    simp [hfree, AvlAllocator.Modelled.init, AvlAllocator.bytesOf] at hx ⊢
    omega

/-- One of them is allocated as it should be. -/
theorem allocations_right_oneBlock :
    Right fragmented 0x1000 (allocateRaw (fun _ => 0) fragmented .slow 0x1000) := by
  have hplace : (fragmented.allocator .slow).map (fun tree => decide
      (fragmented.largest .slow 0x1000 = fragmented.alignedSize 0x1000 ∧
        AvlAllocator.WholePlace (fragmented.cfg .slow) tree 0 (fragmented.alignedSize 0x1000)
          fragmented.blockSize)) = some true := by
    decide +kernel
  obtain ⟨tree, htree, hwhole⟩ := Option.map_eq_some_iff.mp hplace
  refine (allocations_right_iff fragmented_sound (by decide) (fun _ => 0) .slow).1.mpr
    fun _ _ => ⟨.inr (.inr ⟨⟨tree, htree, of_decide_eq_true hwhole⟩, by decide⟩), ?_⟩
  exact fun h => absurd h (by decide)

/-- Two blocks from FAST are returned as a location of one block. Three are refused, and FAST has
lost what it had. -/
theorem fragments_lost :
    (∀ t, fragmented.Sound t) ∧
      ¬Right fragmented 0x2000 (allocateRaw (fun _ => 0) fragmented .fast 0x2000) ∧
      ¬Right fragmented 0x3000 (allocateRaw (fun _ => 0) fragmented .fast 0x3000) := by
  have hshort : (allocateRaw (fun _ => 0) fragmented .fast 0x2000).map Prod.fst =
      some (some ⟨0, 0x1000, .fast⟩) := by
    decide +kernel
  have hlost : (allocateRaw (fun _ => 0) fragmented .fast 0x3000).map (fun p =>
      (p.1, (p.2.allocator .fast).map AvlAllocator.rangeTree)) = some (none, some []) := by
    decide +kernel
  have hhad : (fragmented.allocator .fast).map AvlAllocator.rangeTree =
      some [(0, 0x1000), (0x2000, 0x3000)] := by
    decide +kernel
  refine ⟨fragmented_sound, fun hr => ?_, fun hr => ?_⟩
  · obtain ⟨⟨loc, a'⟩, hcall, hloc⟩ := Option.map_eq_some_iff.mp hshort
    rw [hcall, show loc = some ⟨0, 0x1000, .fast⟩ from hloc] at hr
    exact absurd hr.1 (by decide)
  · obtain ⟨⟨loc, a'⟩, hcall, heq⟩ := Option.map_eq_some_iff.mp hlost
    obtain ⟨hloc, htree⟩ := Prod.mk.inj heq
    rw [hcall, show loc = none from hloc] at hr
    obtain ⟨tree, htree, hempty⟩ := Option.map_eq_some_iff.mp htree
    obtain ⟨tree0, htree0, hranges⟩ := Option.map_eq_some_iff.mp hhad
    have hin : (0 : ℕ) ∈ fragmented.free .fast := by
      unfold free
      rw [htree0]
      exact ⟨(0, 0x1000), by rw [hranges]; exact List.mem_cons_self, by decide, by decide⟩
    rw [← hr .fast] at hin
    unfold free at hin
    rw [htree] at hin
    obtain ⟨r, hr, -⟩ := hin
    rw [hempty] at hr
    cases hr

end TierAllocators

end CxxLab.Btier
