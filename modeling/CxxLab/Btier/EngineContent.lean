import CxxLab.Btier.EngineSpace
import CxxLab.Btier.JournalReplay
import CxxLab.Lib.Runs

/-!
# The content of the engine

What the engine is for: `get` returns the value of the last successful `put` of a key, until it is
deleted. `Content` is the invariant behind it. Over the space in order, the key map and its reverse
index agree, a key's slot lies in the used part of its extent and holds its value, and the live
bytes of an extent cover the slots of its keys and the slots that a call has reserved and not yet
entered. So an extent without live bytes has no keys, and can go.
-/

namespace CxxLab.Btier

open Engine

namespace Engine

/-! ## Slots -/

/-- The start of a slot on the device. -/
def slotStart (loc : DiskLocation) (offset : UInt32) : ℕ :=
  loc.offset.toNat + headerSize.toNat + offset.toNat

/-- The slot `kl` is in the used part of its extent, is not empty, and holds `v`. -/
def Holds (e : Engine) (kl : KeyLocation) (v : Value) : Prop :=
  ∃ x, e.entries.lookup kl.extentId = some x ∧
    kl.offset.toNat + kl.length.toNat ≤ x.usedBytes.toNat ∧ 0 < kl.length.toNat ∧
    e.devRead x.location.tier (slotStart x.location kl.offset) kl.length.toNat = v

/-- The length of the slot of a key. -/
def slotLength (e : Engine) (k : Key) : ℕ := ((e.keyMap k).map fun kl => kl.length.toNat).getD 0

/-- The bytes that the keys of an extent need. -/
def keyBytes (e : Engine) (id : UInt64) : ℕ := ((e.reverseIndex id).map e.slotLength).sum

/-- The bytes that one key needs in an extent. -/
def oldBytes (e : Engine) (k : Key) (id : UInt64) : ℕ :=
  match e.keyMap k with
  | some kl => if kl.extentId = id then kl.length.toNat else 0
  | none => 0

/-- The journal is between two transactions. -/
structure JournalReady (env : Env) (j : Journal) : Prop where
  /-- The data area is what the superblock leaves. -/
  dataSize : j.dataSize + kSuperblockSize = env.journalSize
  /-- No transaction is open. -/
  idle : ∀ id, j.activeTxns id = none

/-- The key map and the reverse index agree. -/
structure Indexed (e : Engine) : Prop where
  /-- The reverse index is exact. -/
  mem : ∀ k id, k ∈ e.reverseIndex id ↔ ∃ kl, e.keyMap k = some kl ∧ kl.extentId = id
  /-- It has no key twice. -/
  nodup : ∀ id, (e.reverseIndex id).Nodup

/-- The engine holds the key/value map `m`, while a call holds the locations `held` and has `res`
bytes of each extent reserved. -/
structure Content (env : Env) (held : List DiskLocation) (res : UInt64 → ℕ) (e : Engine)
    (m : Key → Option Value) : Prop where
  /-- The space is in order. -/
  space : Space env held e
  /-- The journal is between two transactions. -/
  journal : JournalReady env e.journal
  /-- The key map and the reverse index agree. -/
  indexed : Indexed e
  /-- The live bytes of an extent cover its keys and what is reserved. -/
  live : ∀ id x, e.entries.lookup id = some x → e.keyBytes id + res id ≤ x.liveBytes.toNat
  /-- A key's slot holds its value. -/
  slot : ∀ k kl, e.keyMap k = some kl → ∃ v, m k = some v ∧ e.Holds kl v
  /-- A key that is not there has no value. -/
  absent : ∀ k, e.keyMap k = none → m k = none

/-- The engine between two calls. -/
def Stores (env : Env) (e : Engine) (m : Key → Option Value) : Prop :=
  Content env [] (fun _ => 0) e m

/-- What `get` returns for an entry of the map. -/
def lookupResult : Option Value → Except Status Value
  | some v => .ok v
  | none => .error .enoent

section

variable {env : Env} {held held' : List DiskLocation} {res res' : UInt64 → ℕ} {e e' : Engine}
  {m : Key → Option Value}

/-- The invariant says what `get` returns. -/
theorem Content.get (h : Content env held res e m) (k : Key) : e.get k = lookupResult (m k) := by
  unfold Engine.get
  cases hk : e.keyMap k with
  | none => rw [h.absent k hk]; rfl
  | some kl =>
    obtain ⟨v, hv, x, hx, -, -, hread⟩ := h.slot k kl hk
    simp only [hx, hv]
    exact congrArg _ hread

/-- An operation on the extents and the devices keeps the content when it keeps the slots of the
keys. -/
theorem Content.keep (h : Content env held res e m) (hs : Space env held' e')
    (hj : JournalReady env e'.journal) (hk : e'.keyMap = e.keyMap)
    (hr : e'.reverseIndex = e.reverseIndex)
    (hl : ∀ id x, e'.entries.lookup id = some x → e.keyBytes id + res' id ≤ x.liveBytes.toNat)
    (hh : ∀ k kl v, e.keyMap k = some kl → e.Holds kl v → e'.Holds kl v) :
    Content env held' res' e' m where
  space := hs
  journal := hj
  indexed := ⟨by rw [hk, hr]; exact h.indexed.mem, by rw [hr]; exact h.indexed.nodup⟩
  live id x hx := by
    have : e'.keyBytes id = e.keyBytes id := by
      unfold keyBytes slotLength
      rw [hk, hr]
    rw [this]
    exact hl id x hx
  slot k kl hkl := by
    rw [hk] at hkl
    obtain ⟨v, hv, hold⟩ := h.slot k kl hkl
    exact ⟨v, hv, hh k kl v hkl hold⟩
  absent k hkl := h.absent k (by rwa [hk] at hkl)

/-- Less may be reserved. -/
theorem Content.mono (h : Content env held res e m) (hle : ∀ id, res' id ≤ res id) :
    Content env held res' e m :=
  h.keep h.space h.journal rfl rfl
    (fun id x hx => (Nat.add_le_add_left (hle id) _).trans (h.live id x hx)) fun _ _ _ _ hh => hh

/-- An extent that is not there has no keys. -/
theorem Content.no_keys (h : Content env held res e m) {id : UInt64}
    (hid : e.entries.lookup id = none) : e.reverseIndex id = [] := by
  rw [List.eq_nil_iff_forall_not_mem]
  intro k hk
  obtain ⟨kl, hkl, rfl⟩ := (h.indexed.mem k id).mp hk
  obtain ⟨-, -, x, hx, -⟩ := h.slot k kl hkl
  rw [hid] at hx
  cases hx

/-- An extent whose keys need no bytes has no keys: slots are not empty. -/
theorem Content.no_keys_of_zero (h : Content env held res e m) {id : UInt64}
    (hid : e.keyBytes id = 0) : e.reverseIndex id = [] := by
  rw [List.eq_nil_iff_forall_not_mem]
  intro k hk
  obtain ⟨kl, hkl, -⟩ := (h.indexed.mem k id).mp hk
  obtain ⟨-, -, x, -, -, hpos, -⟩ := h.slot k kl hkl
  have hzero := List.sum_eq_zero_iff.mp hid _ (List.mem_map_of_mem hk)
  simp only [slotLength, hkl, Option.map_some, Option.getD_some] at hzero
  omega

/-! ## The key map -/

/-- Where a key is indexed after a `put`. -/
theorem keyPut_reverseIndex (h : Indexed e) (k : Key) (loc : KeyLocation) (id : UInt64) :
    ((e.keyPut k loc).reverseIndex id).Perm
      ((if id = loc.extentId then [k] else []) ++ (e.reverseIndex id).erase k) := by
  have hout : ∀ id, (∀ kl, e.keyMap k = some kl → kl.extentId ≠ id) → k ∉ e.reverseIndex id := by
    intro id hne hmem
    obtain ⟨kl, hkl, hid⟩ := (h.mem k id).mp hmem
    exact hne kl hkl hid
  -- The index without the key's old entry, where that is in another extent.
  obtain ⟨rev, hrev⟩ : ∃ rev, rev = (match e.keyMap k with
    | some old =>
      if old.extentId ≠ loc.extentId then
        Function.update e.reverseIndex old.extentId ((e.reverseIndex old.extentId).erase k)
      else e.reverseIndex
    | none => e.reverseIndex) := ⟨_, rfl⟩
  have hput : (e.keyPut k loc).reverseIndex =
      Function.update rev loc.extentId ((rev loc.extentId).insert k) := by rw [hrev]; rfl
  have hother : id ≠ loc.extentId → rev id = (e.reverseIndex id).erase k := by
    intro hid
    rw [hrev]
    cases hk : e.keyMap k with
    | none => exact (List.erase_of_not_mem (hout id (by simp [hk]))).symm
    | some old =>
      simp only
      split_ifs with ho
      · by_cases hoid : old.extentId = id
        · subst hoid
          simp
        · rw [Function.update_of_ne (Ne.symm hoid), List.erase_of_not_mem]
          exact hout id (by simpa [hk] using hoid)
      · rw [List.erase_of_not_mem]
        refine hout id ?_
        intro kl hkl
        obtain rfl := Option.some.inj (hk.symm.trans hkl)
        rw [not_not.mp ho]
        exact Ne.symm hid
  have hself : rev loc.extentId = e.reverseIndex loc.extentId := by
    rw [hrev]
    cases hk : e.keyMap k with
    | none => rfl
    | some old =>
      simp only
      split_ifs with ho
      · rw [Function.update_of_ne (Ne.symm ho)]
      · rfl
  rw [hput]
  by_cases hid : id = loc.extentId
  · subst hid
    rw [Function.update_self, hself, if_pos rfl]
    by_cases hmem : k ∈ e.reverseIndex loc.extentId
    · rw [List.insert_of_mem hmem]
      exact List.perm_cons_erase hmem
    · rw [List.insert_of_not_mem hmem, List.erase_of_not_mem hmem]
      exact List.Perm.refl _
  · rw [Function.update_of_ne hid, if_neg hid, hother hid]
    exact List.Perm.refl _

/-- Where a key is indexed after an `erase`. -/
theorem keyErase_reverseIndex (h : Indexed e) (k : Key) (id : UInt64) :
    (e.keyErase k).reverseIndex id = (e.reverseIndex id).erase k := by
  have hout : (∀ kl, e.keyMap k = some kl → kl.extentId ≠ id) → k ∉ e.reverseIndex id := by
    intro hne hmem
    obtain ⟨kl, hkl, hid⟩ := (h.mem k id).mp hmem
    exact hne kl hkl hid
  unfold keyErase
  cases hk : e.keyMap k with
  | none => exact (List.erase_of_not_mem (hout (by simp [hk]))).symm
  | some old =>
    by_cases hid : old.extentId = id
    · subst hid
      simp
    · simp only [Function.update_of_ne (Ne.symm hid)]
      rw [List.erase_of_not_mem (hout (by simpa [hk] using hid))]

/-- The key map after a `put`. -/
theorem keyPut_keyMap (k : Key) (loc : KeyLocation) :
    (e.keyPut k loc).keyMap = Function.update e.keyMap k (some loc) := rfl

/-- The key map after an `erase`. -/
theorem keyErase_keyMap (k : Key) : (e.keyErase k).keyMap = Function.update e.keyMap k none := by
  unfold keyErase
  cases hk : e.keyMap k with
  | none => exact (Function.update_eq_self_iff.mpr hk.symm).symm
  | some old => rfl

/-- The bytes of an extent's keys are those of one key and those of the others. -/
theorem keyBytes_split (h : Indexed e) (k : Key) (id : UInt64) :
    e.keyBytes id = e.oldBytes k id + (((e.reverseIndex id).erase k).map e.slotLength).sum := by
  unfold keyBytes oldBytes
  by_cases hmem : k ∈ e.reverseIndex id
  · obtain ⟨kl, hkl, hid⟩ := (h.mem k id).mp hmem
    rw [((List.perm_cons_erase hmem).map e.slotLength).sum_eq, List.map_cons, List.sum_cons]
    simp [slotLength, hkl, hid]
  · rw [List.erase_of_not_mem hmem]
    cases hk : e.keyMap k with
    | none => simp
    | some kl =>
      have : kl.extentId ≠ id := fun hid => hmem ((h.mem k id).mpr ⟨kl, hk, hid⟩)
      simp [this]

/-- The other keys' bytes do not depend on the entry of the key. -/
theorem others_congr (h : Indexed e) {k : Key} (hk : ∀ k', k' ≠ k → e'.keyMap k' = e.keyMap k')
    (id : UInt64) : (((e.reverseIndex id).erase k).map e'.slotLength).sum =
      (((e.reverseIndex id).erase k).map e.slotLength).sum := by
  congr 1
  apply List.map_congr_left
  intro k' hk'
  have hne : k' ≠ k := ((h.nodup id).mem_erase_iff.mp hk').1
  unfold slotLength
  rw [hk k' hne]

/-- The bytes of an extent's keys after a `put`. -/
theorem keyBytes_keyPut (h : Indexed e) (k : Key) (loc : KeyLocation) (id : UInt64) :
    (e.keyPut k loc).keyBytes id + e.oldBytes k id =
      e.keyBytes id + if id = loc.extentId then loc.length.toNat else 0 := by
  have hmap : ∀ k', k' ≠ k → (e.keyPut k loc).keyMap k' = e.keyMap k' := by
    intro k' hne
    rw [keyPut_keyMap, Function.update_of_ne hne]
  have hothers := others_congr h hmap id
  have hk : (e.keyPut k loc).slotLength k = loc.length.toNat := by simp [slotLength, keyPut]
  rw [keyBytes_split h k id]
  unfold keyBytes
  rw [((keyPut_reverseIndex h k loc id).map _).sum_eq, List.map_append, List.sum_append, hothers]
  split_ifs <;> simp [hk] <;> omega

/-- The bytes of an extent's keys after an `erase`. -/
theorem keyBytes_keyErase (h : Indexed e) (k : Key) (id : UInt64) :
    (e.keyErase k).keyBytes id + e.oldBytes k id = e.keyBytes id := by
  have hmap : ∀ k', k' ≠ k → (e.keyErase k).keyMap k' = e.keyMap k' := by
    intro k' hne
    rw [keyErase_keyMap, Function.update_of_ne hne]
  have hothers := others_congr h hmap id
  rw [keyBytes_split h k id]
  unfold keyBytes
  rw [keyErase_reverseIndex h, hothers, Nat.add_comm]

/-- The indexes agree after a `put`. -/
theorem Indexed.keyPut (h : Indexed e) (k : Key) (loc : KeyLocation) :
    Indexed (e.keyPut k loc) := by
  constructor
  · intro k' id
    rw [(keyPut_reverseIndex h k loc id).mem_iff, List.mem_append, (h.nodup id).mem_erase_iff,
      h.mem k' id, keyPut_keyMap]
    by_cases hk : k' = k
    · subst hk
      simp only [Function.update_self, Option.some.injEq]
      by_cases hid : id = loc.extentId <;> simp [hid, eq_comm]
    · simp only [Function.update_of_ne hk]
      by_cases hid : id = loc.extentId <;> simp [hid, hk]
  · intro id
    refine (keyPut_reverseIndex h k loc id).nodup_iff.mpr ?_
    have := (h.nodup id).erase k
    split_ifs
    · simpa [(h.nodup id).mem_erase_iff] using this
    · simpa using this

/-- The indexes agree after an `erase`. -/
theorem Indexed.keyErase (h : Indexed e) (k : Key) : Indexed (e.keyErase k) := by
  constructor
  · intro k' id
    rw [keyErase_reverseIndex h, (h.nodup id).mem_erase_iff, h.mem k' id, keyErase_keyMap]
    by_cases hk : k' = k
    · subst hk
      simp
    · simp [hk]
  · intro id
    rw [keyErase_reverseIndex h]
    exact (h.nodup id).erase k

/-- The parts of the state that the key map is not about. -/
theorem keyErase_frame (e : Engine) (k : Key) : e.keyErase k =
    { e with keyMap := (e.keyErase k).keyMap, reverseIndex := (e.keyErase k).reverseIndex } := by
  unfold keyErase
  cases e.keyMap k <;> rfl

/-- A key gets a slot that is reserved; the bytes of its old slot are reserved instead. -/
theorem Content.keyPut (h : Content env held res e m) {k : Key} {loc : KeyLocation} {v : Value}
    (hv : e.Holds loc v) (hres : loc.length.toNat ≤ res loc.extentId) :
    Content env held
      (fun id => res id - (if id = loc.extentId then loc.length.toNat else 0) + e.oldBytes k id)
      (e.keyPut k loc) (Function.update m k (some v)) where
  space := h.space.of_perm h.space.fresh h.space.used rfl (List.Perm.refl _)
  journal := h.journal
  indexed := h.indexed.keyPut k loc
  live id x hx := by
    have hlive := h.live id x hx
    have hbytes := keyBytes_keyPut h.indexed k loc id
    have hle : (if id = loc.extentId then loc.length.toNat else 0) ≤ res id := by
      split_ifs with hid
      · rw [hid]; exact hres
      · exact Nat.zero_le _
    omega
  slot k' kl hkl := by
    rw [keyPut_keyMap] at hkl
    by_cases hk : k' = k
    · subst hk
      rw [Function.update_self] at hkl
      obtain rfl := Option.some.inj hkl
      exact ⟨v, Function.update_self .., hv⟩
    · rw [Function.update_of_ne hk] at hkl ⊢
      exact h.slot k' kl hkl
  absent k' hk' := by
    rw [keyPut_keyMap] at hk'
    by_cases hk : k' = k
    · subst hk
      rw [Function.update_self] at hk'
      cases hk'
    · rw [Function.update_of_ne hk] at hk' ⊢
      exact h.absent k' hk'

/-- A key goes; the bytes of its slot stay reserved. -/
theorem Content.keyErase (h : Content env held res e m) (k : Key) :
    Content env held (fun id => res id + e.oldBytes k id) (e.keyErase k)
      (Function.update m k none) := by
  have hframe := keyErase_frame e k
  have hent : (e.keyErase k).entries = e.entries := by rw [hframe]
  have hslot : ∀ kl v, e.Holds kl v → (e.keyErase k).Holds kl v := by
    rintro kl v ⟨x, hx, hlen, hpos, hread⟩
    refine ⟨x, by rw [hent, hx], hlen, hpos, ?_⟩
    rw [hframe]
    exact hread
  constructor
  case space =>
    rw [hframe]
    exact h.space.of_perm h.space.fresh h.space.used rfl (List.Perm.refl _)
  case journal => rw [hframe]; exact h.journal
  case indexed => exact h.indexed.keyErase k
  case live =>
    intro id x hx
    rw [hent] at hx
    have hlive := h.live id x hx
    have hbytes := keyBytes_keyErase h.indexed k id
    omega
  case slot =>
    intro k' kl hkl
    rw [keyErase_keyMap] at hkl
    by_cases hk : k' = k
    · subst hk
      rw [Function.update_self] at hkl
      cases hkl
    · rw [Function.update_of_ne hk] at hkl ⊢
      obtain ⟨v, hv, hold⟩ := h.slot k' kl hkl
      exact ⟨v, hv, hslot kl v hold⟩
  case absent =>
    intro k' hk'
    rw [keyErase_keyMap] at hk'
    by_cases hk : k' = k
    · subst hk
      rw [Function.update_self]
    · rw [Function.update_of_ne hk] at hk' ⊢
      exact h.absent k' hk'

/-! ## What reads depend on -/

/-- A read sees the bytes of its range only. -/
theorem devRead_congr {e e' : Engine} {t : Tier} {off len : ℕ}
    (h : ∀ i, off ≤ i → i < off + len → e'.byteAt t i = e.byteAt t i) :
    e'.devRead t off len = e.devRead t off len := by
  apply List.map_congr_left
  intro i hi
  rw [List.mem_range] at hi
  exact h _ (by omega) (by omega)

/-- The bytes after a device write on a tier, when the write is behind the superblock. -/
theorem devWrite_byteAt {env : Env} {e e' : Engine} {t : Tier} {off : ℕ} {bs : List UInt8}
    (h : e.devWrite env t off bs = some e') (hoff : t = .fast → kSuperblockSize ≤ off)
    (ht : t = .fast ∨ t = .slow) (t' : Tier) (ht' : t' = .fast ∨ t' = .slow) (i : ℕ)
    (hi : t' = .fast → kSuperblockSize ≤ i) :
    e'.byteAt t' i = if t' = t ∧ off ≤ i ∧ i < off + bs.length then bs.getD (i - off) 0
      else e.byteAt t' i := by
  have hget : ∀ (a b : UInt8) (n : ℕ), n < bs.length → bs.getD n a = bs.getD n b := by
    intro a b n hn
    simp [List.getD, hn]
  unfold devWrite at h
  rcases ht with rfl | rfl
  · simp only [if_true, Device.write, Option.map_eq_some_iff, Option.ite_none_right_eq_some,
      Option.some.injEq] at h
    obtain ⟨dev, ⟨-, rfl⟩, rfl⟩ := h
    rcases ht' with rfl | rfl
    · have hoff' := hoff rfl
      have hi' := hi rfl
      simp only [byteAt, if_true, Ring.splice, true_and]
      by_cases hin : off ≤ i ∧ i < off + bs.length
      · rw [if_pos (by omega), if_pos hin, show i - kSuperblockSize - (off - kSuperblockSize) =
          i - off by omega]
        exact hget _ _ _ (by omega)
      · rw [if_neg (by omega), if_neg hin]
    · simp [byteAt]
  · rw [if_neg (by simp), Option.ite_none_right_eq_some] at h
    obtain ⟨-, h⟩ := h
    obtain rfl := Option.some.inj h
    rcases ht' with rfl | rfl
    · simp [byteAt]
    · simp only [byteAt, Ring.splice, true_and, reduceCtorEq, if_false]
      by_cases hin : off ≤ i ∧ i < off + bs.length
      · rw [if_pos hin, if_pos hin]
        exact hget _ _ _ (by omega)
      · rw [if_neg hin, if_neg hin]

/-- What was written is read. -/
theorem devRead_devWrite {env : Env} {e e' : Engine} {t : Tier} {off : ℕ} {bs : List UInt8}
    (h : e.devWrite env t off bs = some e') (hoff : t = .fast → kSuperblockSize ≤ off)
    (ht : t = .fast ∨ t = .slow) : e'.devRead t off bs.length = bs := by
  unfold devRead
  apply List.ext_getElem
  · simp
  · intro i hi1 hi2
    have hat := devWrite_byteAt h hoff ht t ht (off + i) fun hf => (hoff hf).trans (by omega)
    rw [if_pos ⟨rfl, by omega, by omega⟩] at hat
    simp [hat, hi2]

/-- A device write changes the devices and the history only. -/
theorem devWrite_frame {env : Env} {e e' : Engine} {t : Tier} {off : ℕ} {bs : List UInt8}
    (h : e.devWrite env t off bs = some e') :
    e' = { e with journal := e'.journal, slow := e'.slow, log := e'.log } ∧
      e'.journal.dataSize = e.journal.dataSize ∧ e'.journal.activeTxns = e.journal.activeTxns := by
  unfold devWrite at h
  split at h
  · simp only [Option.map_eq_some_iff] at h
    obtain ⟨dev, -, rfl⟩ := h
    exact ⟨rfl, rfl, rfl⟩
  · rw [Option.ite_none_right_eq_some] at h
    obtain ⟨-, h⟩ := h
    obtain rfl := Option.some.inj h
    exact ⟨rfl, rfl, rfl⟩

/-- A slot keeps its value when its extent keeps its place and its bytes. -/
theorem Holds.congr {kl : KeyLocation} {v : Value} (h : e.Holds kl v)
    (hx : ∀ x, e.entries.lookup kl.extentId = some x → ∃ x',
      e'.entries.lookup kl.extentId = some x' ∧ x'.location = x.location ∧
      x.usedBytes.toNat ≤ x'.usedBytes.toNat ∧
      ∀ i, x.location.offset.toNat + headerSize.toNat ≤ i →
        i < x.location.offset.toNat + headerSize.toNat + x.usedBytes.toNat →
        e'.byteAt x.location.tier i = e.byteAt x.location.tier i) : e'.Holds kl v := by
  obtain ⟨x, hlook, hlen, hpos, hread⟩ := h
  obtain ⟨x', hlook', hloc, hused, hbytes⟩ := hx x hlook
  refine ⟨x', hlook', hlen.trans hused, hpos, ?_⟩
  rw [hloc, ← hread]
  unfold slotStart
  exact devRead_congr fun i h1 h2 => hbytes i (by omega) (by omega)

/-- A byte of an extent on FAST is behind the superblock. -/
theorem superblock_le {loc : DiskLocation} (h : LocationOk env loc) {i : ℕ}
    (hi : loc.offset.toNat ≤ i) (ht : loc.tier = .fast) : env.journalSize ≤ i := by
  rcases h.area with ⟨-, hj⟩ | hslow
  · omega
  · rw [ht] at hslow
    cases hslow

/-- A device write that meets no used part of an extent keeps the slots. -/
theorem Holds.devWrite {t : Tier} {off : ℕ} {bs : List UInt8} {kl : KeyLocation} {v : Value}
    (hcfg : env.ConfigOk) (hs : Space env held e) (h : e.Holds kl v)
    (hw : e.devWrite env t off bs = some e')
    (ht : (t = .fast ∧ env.journalSize ≤ off) ∨ t = .slow)
    (hap : ∀ x, e.entries.lookup kl.extentId = some x → x.location.tier = t →
      ∀ i, slotStart x.location kl.offset ≤ i →
        i < slotStart x.location kl.offset + kl.length.toNat → i < off ∨ off + bs.length ≤ i) :
    e'.Holds kl v := by
  obtain ⟨x, hlook, hlen, hpos, hread⟩ := h
  obtain ⟨hf, -, -⟩ := devWrite_frame hw
  have hjs := hcfg.journal
  have hok := hs.ok _ (location_mem_owned hlook held)
  refine ⟨x, by rw [hf]; exact hlook, hlen, hpos, ?_⟩
  rw [← hread]
  refine devRead_congr fun i h1 h2 => ?_
  have hstart : x.location.offset.toNat ≤ i := by
    unfold slotStart at h1
    omega
  rw [devWrite_byteAt hw (by rintro rfl; simp at ht; omega) (by tauto) _
    (by have := hok.area; tauto) i
    (fun hfast => by have := superblock_le hok hstart hfast; omega), if_neg]
  rintro ⟨htt, h3, h4⟩
  have := hap x hlook htt i h1 h2
  omega

/-! ## The journal -/

/-- The journal kept its size and its open transactions, and wrote only into its data area. -/
structure Keeps (j j' : Journal) : Prop where
  /-- The size of the data area. -/
  dataSize : j'.dataSize = j.dataSize
  /-- The bytes behind the data area. -/
  data : ∀ i, j.dataSize ≤ i → j'.dev.data i = j.dev.data i
  /-- The open transactions. -/
  active : j'.activeTxns = j.activeTxns

/-- What two journal calls keep. -/
theorem Keeps.trans {j j1 j2 : Journal} (h1 : Keeps j j1) (h2 : Keeps j1 j2) : Keeps j j2 where
  dataSize := h2.dataSize.trans h1.dataSize
  data i hi := (h2.data i (by rw [h1.dataSize]; exact hi)).trans (h1.data i hi)
  active := h2.active.trans h1.active

/-- A journal that is ready stays so. -/
theorem JournalReady.keeps {j j' : Journal} (h : JournalReady env j) (hk : Keeps j j') :
    JournalReady env j' :=
  ⟨hk.dataSize ▸ h.dataSize, hk.active ▸ h.idle⟩

/-- A transaction no longer than the data area is written inside it. -/
theorem writeStart_add_le {j : Journal} {n : ℕ} (h : n ≤ j.dataSize) :
    j.writeStart n + n ≤ j.dataSize := by
  unfold Journal.writeStart
  split_ifs <;> omega

/-- A write inside the data area. -/
theorem keeps_writeAt {j : Journal} {start : ℕ} {bl : List UInt8}
    (h : start + bl.length ≤ j.dataSize) : Keeps j (j.writeAt start bl).2 := by
  unfold Journal.writeAt Device.write
  split_ifs with hcap
  · refine ⟨rfl, fun i hi => ?_, rfl⟩
    simp only [Ring.splice]
    rw [if_neg (by omega)]
  · exact ⟨rfl, fun i _ => rfl, rfl⟩

/-- A write that fits in the data area. -/
theorem keeps_padAndWrite {j : Journal} {bl : List UInt8}
    (h : (Journal.pad bl).length ≤ j.dataSize) : Keeps j (j.padAndWrite bl).2 :=
  keeps_writeAt (writeStart_add_le h)

/-- What follows a write keeps the data. -/
theorem keeps_afterWrite {j : Journal} {f : Journal → Journal} {r : Bool × Journal}
    (hr : Keeps j r.2) (hf : Keeps r.2 (f r.2)) : Keeps j (Journal.afterWrite f r).2 := by
  unfold Journal.afterWrite
  split_ifs
  · exact hr.trans hf
  · exact hr

/-- The superblock of a checkpoint is not in the data area. -/
theorem keeps_afterCheckpoint (ckptStart : ℕ) (j : Journal) :
    Keeps j (Journal.afterCheckpoint ckptStart j) :=
  ⟨rfl, fun _ _ => rfl, rfl⟩

/-- What a journal operation does to the engine. -/
structure JournalStep (e e' : Engine) : Prop where
  /-- Only the journal and the history change. -/
  frame : e' = { e with journal := e'.journal, log := e'.log }
  /-- The journal writes into its data area. -/
  keeps : Keeps e.journal e'.journal

/-- Two steps that touch the journal alone. -/
theorem JournalStep.trans {e1 e2 : Engine} (h1 : JournalStep e e1) (h2 : JournalStep e1 e2) :
    JournalStep e e2 where
  frame := by rw [h2.frame, h1.frame]
  keeps := h1.keeps.trans h2.keeps

/-- A journal operation keeps the slots. -/
theorem Holds.journalStep {kl : KeyLocation} {v : Value} (hs : Space env held e)
    (hj : JournalReady env e.journal) (h : e.Holds kl v) (hstep : JournalStep e e') :
    e'.Holds kl v := by
  refine h.congr fun x hx => ⟨x, by rw [hstep.frame]; exact hx, rfl, le_refl _, ?_⟩
  intro i h1 h2
  unfold byteAt
  split_ifs with ht
  · have := superblock_le (hs.ok _ (location_mem_owned hx held)) (i := i) (by omega) ht
    refine hstep.keeps.data _ ?_
    have := hj.dataSize
    omega
  · rw [hstep.frame]

/-- A journal operation keeps the content. -/
theorem Content.journalStep (h : Content env held res e m) (hstep : JournalStep e e') :
    Content env held res e' m := by
  have hf := hstep.frame
  refine h.keep ?_ (h.journal.keeps hstep.keeps) (by rw [hf]) (by rw [hf])
    (by rw [hf]; exact h.live) fun k kl v _ hh => hh.journalStep h.space h.journal hstep
  refine h.space.of_perm ?_ ?_ (by rw [hf]) ?_
  · rw [hf]; exact h.space.fresh
  · rw [hf]; exact h.space.used
  · rw [hf]; exact List.Perm.refl _

/-- The transaction of a record does not change its length. -/
theorem length_serializeRecord (r : JournalRecord) :
    (serializeRecord r).length = 9 + (serializeFields r).length := by
  simp [serializeRecord]
  omega

/-- The length of records with their transaction filled in. -/
theorem length_serializeRecords_txn (rs : List JournalRecord) (id : UInt64) :
    (serializeRecords (rs.map fun r => { r with txnId := id })).length =
      (serializeRecords rs).length := by
  unfold serializeRecords
  rw [List.flatMap_map, List.length_flatMap, List.length_flatMap]
  simp only [length_serializeRecord]
  rfl

/-- The length of a frame around records. -/
theorem length_frame (id : UInt64) (mark body : List UInt8) :
    (Journal.frame id mark body).length = 22 + mark.length + body.length := by
  have hb : (serializeRecord { op := .txnBegin, txnId := id }).length = 9 := by
    rw [length_serializeRecord]
    rfl
  have hc : ∀ crc, (serializeRecord { op := .txnCommit, txnId := id, crc := crc }).length = 13 := by
    intro crc
    rw [length_serializeRecord]
    simp [serializeFields]
  simp only [Journal.frame, List.length_append, hb, hc]
  omega

/-- The buffer of a transaction after its records. -/
theorem appendAll_eq (id : UInt64) (rs : List JournalRecord) (j : Journal) (tb : TxnBuffer)
    (h : j.activeTxns id = some tb) :
    rs.foldl (fun j r => (j.append id r).2) j = { j with
      activeTxns := Function.update j.activeTxns id (some
        ⟨tb.records ++ rs.map (fun r => { r with txnId := id }),
          tb.serialized ++ serializeRecords (rs.map fun r => { r with txnId := id })⟩) } := by
  induction rs generalizing j tb with
  | nil =>
    have : Function.update j.activeTxns id (some tb) = j.activeTxns := by
      rw [← h, Function.update_eq_self]
    simp [serializeRecords, this]
  | cons r rs ih =>
    obtain ⟨tb', htb'⟩ : ∃ t : TxnBuffer, t = ⟨tb.records ++ [{ r with txnId := id }],
      tb.serialized ++ serializeRecord { r with txnId := id }⟩ := ⟨_, rfl⟩
    have happ : (j.append id r).2 =
        { j with activeTxns := Function.update j.activeTxns id (some tb') } := by
      unfold Journal.append
      rw [h, htb']
    rw [List.foldl_cons, happ, ih _ tb' (Function.update_self ..), htb']
    simp [serializeRecords]

/-- A transaction that fits in the data area. -/
theorem journalTxn_step (hj : JournalReady env e.journal) {rs : List JournalRecord}
    (hfit : Journal.padded (22 + (serializeRecords rs).length) ≤ e.journal.dataSize) :
    JournalStep e (e.journalTxn rs).2 := by
  obtain ⟨id, hid⟩ : ∃ i, i = e.journal.nextTxnId := ⟨_, rfl⟩
  obtain ⟨body, hbody⟩ : ∃ b, b = serializeRecords (rs.map fun r => { r with txnId := id }) :=
    ⟨_, rfl⟩
  obtain ⟨j, hj'⟩ : ∃ j, j = rs.foldl (fun j r => (j.append id r).2) e.journal.beginTxn := ⟨_, rfl⟩
  have hbegin : e.journal.beginTxn.activeTxns =
      Function.update e.journal.activeTxns id (some ⟨[], []⟩) := by
    unfold Journal.beginTxn
    rw [← hid, hj.idle]
    rfl
  have hact : ∃ rs', j.activeTxns = Function.update e.journal.activeTxns id (some ⟨rs', body⟩) := by
    rw [hj', appendAll_eq id rs _ ⟨[], []⟩ (by rw [hbegin, Function.update_self]), hbody, hbegin]
    exact ⟨_, by rw [Function.update_idem]; rfl⟩
  obtain ⟨rs', hact⟩ := hact
  -- Without the buffer the transaction leaves, the journal is the one from before.
  have hframe : Keeps e.journal { j with activeTxns := Function.update j.activeTxns id none } := by
    refine ⟨?_, fun i _ => ?_, ?_⟩
    · rw [hj', appendAll_eq id rs _ ⟨[], []⟩ (by rw [hbegin, Function.update_self])]
      rfl
    · rw [hj', appendAll_eq id rs _ ⟨[], []⟩ (by rw [hbegin, Function.update_self])]
      rfl
    · rw [hact, Function.update_idem]
      exact Function.update_eq_self_iff.mpr (hj.idle id).symm
  obtain ⟨r, hr⟩ : ∃ r, r = { j with activeTxns := Function.update j.activeTxns id none }.padAndWrite
    (Journal.txnBytes id body) := ⟨_, rfl⟩
  have hcommit : j.commitTxn id = Journal.afterWrite Journal.afterCommit r := by
    rw [hr]
    unfold Journal.commitTxn
    rw [hact, Function.update_self]
  have hlen : (Journal.pad (Journal.txnBytes id body)).length ≤ e.journal.dataSize := by
    have hl : (Journal.txnBytes id body).length = 22 + (serializeRecords rs).length := by
      rw [Journal.txnBytes, length_frame, hbody, length_serializeRecords_txn]
      rfl
    rw [Journal.length_pad (by omega), hl]
    exact hfit
  have hkeep : Keeps e.journal r.2 := by
    refine hframe.trans ?_
    rw [hr]
    exact keeps_padAndWrite (by rw [hframe.dataSize]; exact hlen)
  have hjournal : (e.journalTxn rs).2.journal = (j.commitTxn id).2 := by
    rw [hj', hid]
    rfl
  refine ⟨rfl, ?_⟩
  rw [hjournal, hcommit]
  exact keeps_afterWrite hkeep ⟨rfl, fun _ _ => rfl, rfl⟩

/-- A checkpoint that fits in the data area. -/
theorem checkpoint_step
    (hfit : Journal.padded (31 + (serializeRecords (e.buildCheckpointState env)).length) ≤
      e.journal.dataSize) : JournalStep e (e.checkpoint env) := by
  obtain ⟨body, hbody⟩ : ∃ b, b = serializeRecords (e.buildCheckpointState env) := ⟨_, rfl⟩
  rw [← hbody] at hfit
  have hl : (Journal.checkpointBytes body).length = 31 + body.length := by
    rw [Journal.checkpointBytes, length_frame, length_serializeRecord]
    rfl
  have hkeep : Keeps e.journal (e.journal.padAndWrite (Journal.checkpointBytes body)).2 := by
    refine keeps_padAndWrite ?_
    rw [Journal.length_pad (by omega), hl]
    exact hfit
  refine ⟨rfl, ?_⟩
  show Keeps e.journal (e.journal.checkpoint (e.buildCheckpointState env)).2
  rw [Journal.checkpoint, ← hbody]
  exact keeps_afterWrite hkeep (keeps_afterCheckpoint _ _)

/-- The bytes of a checkpoint's records: one for each extent and one for each key. -/
def stateLength (e : Engine) : ℕ :=
  (e.entries.keys.map fun id => 30 + ((e.reverseIndex id).map fun k => 29 + k.length).sum).sum

/-- The length of a checkpoint does not depend on the order of the containers. -/
theorem length_buildCheckpointState (henv : env.Lawful) :
    (serializeRecords (e.buildCheckpointState env)).length = e.stateLength := by
  have hext : ∀ id loc, (serializeRecord
      { op := .extentNew, extentId := id, extentLoc := loc }).length = 30 := by
    intro id loc
    rw [length_serializeRecord]
    simp [serializeFields, putDiskLocation]
  have hkey : ∀ k kl, (serializeRecord { op := .keyPut, key := k, keyLoc := kl }).length =
      29 + k.length := by
    intro k kl
    rw [length_serializeRecord]
    simp [serializeFields, putString, putKeyLocation]
    omega
  -- The records of one extent.
  have hone : ∀ id ∈ e.entries.keys, (serializeRecords (e.extentRecords env id)).length =
      30 + ((e.reverseIndex id).map fun k => 29 + k.length).sum := by
    intro id hid
    obtain ⟨x, hx⟩ := Option.isSome_iff_exists.mp (AList.lookup_isSome.mpr hid)
    have hperm : (e.keysInExtent env id).Perm (e.reverseIndex id) := henv.keys _ _
    simp only [extentRecords, hx, serializeRecords, List.flatMap_cons, List.length_append, hext,
      List.length_flatMap, List.map_map]
    rw [← (hperm.map fun k => 29 + k.length).sum_eq]
    simp only [Function.comp_def, hkey]
  have hperm := henv.ids e.log.length e.entries.keys
  unfold buildCheckpointState stateLength serializeRecords
  rw [List.flatMap_assoc, List.length_flatMap, (hperm.map _).sum_eq]
  congr 1
  exact List.map_congr_left fun id hid => hone id hid

/-- A checkpoint when the journal is full enough. -/
theorem checkpointIf_step (henv : env.Lawful) (full : ℕ → ℕ → Bool)
    (hfit : Journal.padded (31 + e.stateLength) ≤ e.journal.dataSize) :
    JournalStep e (e.checkpointIf env full) := by
  unfold checkpointIf
  split_ifs
  · refine checkpoint_step ?_
    rw [length_buildCheckpointState henv]
    exact hfit
  · exact ⟨rfl, rfl, fun _ _ => rfl, rfl⟩

/-! ## The extent map -/

/-- An entry changes its counters, and stays where it is. -/
theorem Content.setEntry {id : UInt64} {x x' : ExtentEntry} (h : Content env held res e m)
    (hx : e.entries.lookup id = some x)
    (hf : e' = { e with entries := e.entries.insert id x', freeLists := e'.freeLists })
    (hloc : x'.location = x.location) (hused : x.usedBytes.toNat ≤ x'.usedBytes.toNat)
    (hfit : headerSize.toNat + x'.usedBytes.toNat ≤ x.location.length.toNat)
    (hlive : x'.liveBytes.toNat ≤ x'.usedBytes.toNat)
    (hres : ∀ id' y, e.entries.lookup id' = some y → id' ≠ id → res' id' ≤ res id')
    (hcover : e.keyBytes id + res' id ≤ x'.liveBytes.toNat) :
    Content env held res' e' m ∧ ∀ kl v, e.Holds kl v → e'.Holds kl v := by
  have hent : e'.entries = e.entries.insert id x' := by rw [hf]
  have hslots : ∀ kl v, e.Holds kl v → e'.Holds kl v := by
    intro kl v hh
    refine hh.congr fun y hy => ?_
    have hbytes : ∀ t i, e'.byteAt t i = e.byteAt t i := fun t i => by rw [hf]; rfl
    by_cases hid : kl.extentId = id
    · rw [hid] at hy ⊢
      obtain rfl : x = y := Option.some.inj (hx.symm.trans hy)
      exact ⟨x', by rw [hent, AList.lookup_insert], hloc, hused, fun i _ _ => hbytes _ _⟩
    · exact ⟨y, by rw [hent, AList.lookup_insert_ne hid, hy], rfl, le_refl _,
        fun i _ _ => hbytes _ _⟩
  refine ⟨h.keep ?_ ?_ (by rw [hf]) (by rw [hf]) ?_ fun k kl v _ => hslots kl v, hslots⟩
  · exact h.space.setEntry hx hent (by rw [hf]) (by rw [hf]) (by rw [hf]) hloc hfit hlive
  · rw [hf]; exact h.journal
  · intro id' y hy
    rw [hent] at hy
    rcases lookup_insert_cases hy with ⟨rfl, rfl⟩ | ⟨hne, hy⟩
    · exact hcover
    · have := h.live id' y hy
      have := hres id' y hy hne
      omega

/-- An extent is claimed for a migration, or given back. -/
theorem Content.setMigrating {id : UInt64} {x : ExtentEntry} (h : Content env held res e m)
    (hx : e.entries.lookup id = some x) (b : Bool) :
    Content env held res { e with entries := e.entries.insert id { x with migrating := b } } m ∧
      ∀ kl v, e.Holds kl v →
        { e with entries := e.entries.insert id { x with migrating := b } }.Holds kl v := by
  obtain ⟨hfit, hlive⟩ := h.space.used id x hx
  exact h.setEntry hx rfl rfl (le_refl _) hfit hlive (fun _ _ _ _ => le_refl _) (h.live id x hx)

/-- Reserved bytes die. -/
theorem Content.markDeadSlot (h : Content env held res e m) {id : UInt64} {length : UInt32}
    (hres : length.toNat ≤ res id)
    (hres' : ∀ id', res' id' ≤ if id' = id then res id - length.toNat else res id') :
    Content env held res' (e.markDeadSlot id length) m ∧
      ∀ kl v, e.Holds kl v → (e.markDeadSlot id length).Holds kl v := by
  cases hx : e.entries.lookup id with
  | none =>
    have heq : e.markDeadSlot id length = e := by
      unfold Engine.markDeadSlot
      rw [hx]
    rw [heq]
    refine ⟨h.mono fun id' => (hres' id').trans ?_, fun _ _ hh => hh⟩
    split_ifs with hid
    · rw [hid]; exact Nat.sub_le _ _
    · exact le_refl _
  | some x =>
    obtain ⟨hfit, hlive⟩ := h.space.used id x hx
    have hcover := h.live id x hx
    have hge : x.liveBytes ≥ length := by
      show length ≤ x.liveBytes
      rw [UInt32.le_iff_toNat_le]
      omega
    have hsub : (x.liveBytes - length).toNat = x.liveBytes.toNat - length.toNat :=
      UInt32.toNat_sub_of_le _ _ hge
    have hf : e.markDeadSlot id length = { e with
        entries := e.entries.insert id { x with
          liveBytes := x.liveBytes - length
          generation := x.generation + 1 }
        freeLists := (e.markDeadSlot id length).freeLists } := by
      unfold Engine.markDeadSlot updateFreeList
      simp only [hx, if_pos hge]
    refine h.setEntry hx hf rfl (le_refl _) hfit ?_ ?_ ?_
    · simp only [hsub]
      omega
    · intro id' y _ hne
      have := hres' id'
      rwa [if_neg hne] at this
    · have := hres' id
      rw [if_pos rfl] at this
      simp only [hsub]
      omega

/-- What `free` does to the state. -/
theorem freeExtent_frame (e : Engine) (id : UInt64) : e.freeExtent id = { e with
    entries := e.entries.erase id
    freeLists := (e.freeExtent id).freeLists
    deferredFree := (e.freeExtent id).deferredFree } := by
  unfold Engine.freeExtent
  cases hx : e.entries.lookup id with
  | none =>
    have : e.entries.erase id = e.entries := by
      apply AList.ext
      exact List.kerase_of_notMem_keys (AList.lookup_eq_none.mp hx)
    simp only [this]
  | some x => rfl

/-- An extent without keys goes. -/
theorem Content.freeExtent (h : Content env held res e m) {id : UInt64}
    (hid : e.reverseIndex id = []) (hres : ∀ id', id' ≠ id → res' id' ≤ res id') :
    Content env held res' (e.freeExtent id) m ∧
      ∀ kl v, kl.extentId ≠ id → e.Holds kl v → (e.freeExtent id).Holds kl v := by
  have hf := freeExtent_frame e id
  have hent : (e.freeExtent id).entries = e.entries.erase id := by rw [hf]
  have hslots : ∀ kl v, kl.extentId ≠ id → e.Holds kl v → (e.freeExtent id).Holds kl v := by
    intro kl v hne hh
    refine hh.congr fun y hy => ⟨y, ?_, rfl, le_refl _, fun i _ _ => by rw [hf]; rfl⟩
    rw [hent, AList.lookup_erase_ne hne, hy]
  refine ⟨h.keep (h.space.free id) (by rw [hf]; exact h.journal) (by rw [hf]) (by rw [hf]) ?_ ?_,
    hslots⟩
  · intro id' y hy
    rw [hent] at hy
    by_cases hne : id' = id
    · subst hne
      rw [AList.lookup_erase] at hy
      cases hy
    · rw [AList.lookup_erase_ne hne] at hy
      have := h.live id' y hy
      have := hres id' hne
      omega
  · intro k kl v hk
    refine hslots kl v ?_
    rintro rfl
    have hmem : k ∈ e.reverseIndex kl.extentId := (h.indexed.mem k _).mpr ⟨kl, hk, rfl⟩
    rw [hid] at hmem
    cases hmem

/-- The slot of a key dies, and an extent without live bytes goes with it. -/
theorem Content.retireSlot {old : KeyLocation}
    (h : Content env held (fun id => if old.extentId = id then old.length.toNat else 0) e m) :
    Content env held (fun _ => 0) (e.retireSlot old) m := by
  have hdead : Content env held (fun _ => 0) (e.markDeadSlot old.extentId old.length) m := by
    refine (h.markDeadSlot (by simp) fun id' => ?_).1
    exact Nat.zero_le _
  simp only [Engine.retireSlot]
  split_ifs with hzero
  · refine (hdead.freeExtent ?_ fun _ _ => le_refl _).1
    cases hx : (e.markDeadSlot old.extentId old.length).entries.lookup old.extentId with
    | none => exact hdead.no_keys hx
    | some x =>
      have hlive := hdead.live _ _ hx
      simp only [getLiveBytes, hx, Option.map_some, Option.getD_some] at hzero
      rw [hzero] at hlive
      exact hdead.no_keys_of_zero (Nat.le_zero.mp (by simpa using hlive))
  · exact hdead

/-- What `append_slot` does: nothing, or it reserves the bytes behind what is used. -/
theorem Content.appendSlot (hcfg : env.ConfigOk) (h : Content env held res e m) {id : UInt64}
    {size off : UInt32} (hsize : size.toNat ≤ 2 ^ 31) (happ : e.appendSlot id size = (off, e')) :
    (off = noSlot ∧ e' = e) ∨ (off ≠ noSlot ∧
      Content env held (fun i => if i = id then res id + size.toNat else res i) e' m ∧
      (∀ kl v, e.Holds kl v → e'.Holds kl v) ∧
      ∃ x x', e.entries.lookup id = some x ∧ x'.location = x.location ∧ off = x.usedBytes ∧
        x'.usedBytes.toNat = x.usedBytes.toNat + size.toNat ∧
        e' = { e with entries := e.entries.insert id x', freeLists := e'.freeLists }) := by
  unfold Engine.appendSlot at happ
  -- An unknown extent, no room in it, or the bytes behind what is used.
  cases hx : e.entries.lookup id with
  | none =>
    rw [hx] at happ
    obtain ⟨rfl, rfl⟩ := Prod.mk.inj happ
    exact .inl ⟨rfl, rfl⟩
  | some x =>
    rw [hx] at happ
    simp only at happ
    obtain ⟨hfit, hlive⟩ := h.space.used id x hx
    have hok := h.space.ok _ (location_mem_owned hx held)
    have hcover := h.live id x hx
    have hle := hok.le
    have hhead := hok.header_le hcfg
    have hheader : headerSize.toNat = 4096 := rfl
    -- All that counts is the space behind the header.
    have hcap : x.capacity.toNat = x.location.length.toNat - headerSize.toNat :=
      UInt32.toNat_sub_of_le _ _ (UInt32.le_iff_toNat_le.mpr hhead)
    split_ifs at happ with hcond
    · obtain ⟨rfl, rfl⟩ := Prod.mk.inj happ
      exact .inl ⟨rfl, rfl⟩
    · obtain ⟨rfl, rfl⟩ := Prod.mk.inj happ
      have hroom : ¬ x.usedBytes + size > x.capacity := fun hc => hcond (.inr hc)
      have hsum : (x.usedBytes + size).toNat = x.usedBytes.toNat + size.toNat := by
        rw [UInt32.toNat_add]
        exact Nat.mod_eq_of_lt (by omega)
      have hlsum : (x.liveBytes + size).toNat = x.liveBytes.toNat + size.toNat := by
        rw [UInt32.toNat_add]
        exact Nat.mod_eq_of_lt (by omega)
      have hroom' : x.usedBytes.toNat + size.toNat ≤ x.location.length.toNat - headerSize.toNat := by
        rw [← hsum, ← hcap, ← UInt32.le_iff_toNat_le]
        exact UInt32.not_lt.mp hroom
      refine .inr ⟨?_, ?_⟩
      · intro hno
        have : x.usedBytes.toNat = 4294967295 := by rw [hno]; rfl
        omega
      · obtain ⟨x', hx'⟩ : ∃ x', x' = { x with
            usedBytes := x.usedBytes + size
            liveBytes := x.liveBytes + size
            generation := x.generation + 1 } := ⟨_, rfl⟩
        have hused : x'.usedBytes.toNat = x.usedBytes.toNat + size.toNat := by rw [hx']; exact hsum
        have hlive' : x'.liveBytes.toNat = x.liveBytes.toNat + size.toNat := by rw [hx']; exact hlsum
        have hloc : x'.location = x.location := by rw [hx']
        rw [← hx']
        obtain ⟨e1, he1⟩ : ∃ e1, e1 = updateFreeList { e with
          entries := e.entries.insert id x' } id x.location.tier (x.capacity - x.usedBytes)
          (x.capacity - (x.usedBytes + size)) := ⟨_, rfl⟩
        have hf : e1 = { e with entries := e.entries.insert id x', freeLists := e1.freeLists } := by
          rw [he1]
          rfl
        obtain ⟨hcontent, hslots⟩ : Content env held
            (fun i => if i = id then res id + size.toNat else res i) e1 m ∧
            ∀ kl v, e.Holds kl v → e1.Holds kl v := by
          refine h.setEntry hx hf hloc (by omega) (by omega) (by omega) ?_ ?_
          · exact fun id' y _ hne => (if_neg hne).le
          · rw [if_pos rfl]
            omega
        rw [← he1]
        exact ⟨hcontent, hslots, x, x', rfl, hloc, rfl, hused, hf⟩

end

end Engine

end CxxLab.Btier
