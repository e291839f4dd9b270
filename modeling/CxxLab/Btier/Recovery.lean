import CxxLab.Lib.Crash
import CxxLab.Btier.EngineContent

/-!
# Recovery

`init` on devices with a journal, `btier.cc`'s `recover_internal`: the records of the journal are
replayed into the maps, the counters of the extents are computed from their keys, and extents whose
header does not match its checksum lose their keys. `View` is what the records say, and
`reopen_spec` that `get` after recovery reads through it.
-/

namespace CxxLab.Btier

open Codec

/-! ## Devices and crashes -/

/-- The two devices. -/
structure Devices where
  /-- The FAST device. -/
  fast : Device
  /-- The bytes of the SLOW device. -/
  slow : ℕ → UInt8

namespace Devices

/-- A byte of a tier, as `Engine.byteAt`. -/
def byteAt (d : Devices) (t : Tier) (i : ℕ) : UInt8 :=
  if t = .fast then d.fast.data (i - kSuperblockSize) else d.slow i

/-- A read of a tier, as `Engine.devRead`. -/
def read (d : Devices) (t : Tier) (off len : ℕ) : List UInt8 :=
  (List.range len).map fun i => d.byteAt t (off + i)

/-- A write arrives on the devices. -/
def apply (d : Devices) : DevWrite → Devices
  | .data t off bs =>
    if t = .fast then
      { d with fast := { d.fast with data := Ring.splice d.fast.data (off - kSuperblockSize) bs } }
    else { d with slow := Ring.splice d.slow off bs }
  | .superblock sb => { d with fast := { d.fast with superblock := sb } }

end Devices

/-- The parts of a write that a crash can leave: any number of its bytes from the front. The
superblock is one block, and is written as a whole or not at all. -/
inductive DevWrite.Torn : DevWrite → DevWrite → Prop
  | data (t : Tier) (off : ℕ) (bs : List UInt8) (n : ℕ) :
    DevWrite.Torn (.data t off bs) (.data t off (bs.take n))

namespace Engine

/-- The devices of an engine. -/
def devices (e : Engine) : Devices := ⟨e.journal.dev, e.slow⟩

/-! ## Replay -/

/-- `create_entry_from_journal`. -/
def createEntryFromJournal (e : Engine) (id : UInt64) (loc : DiskLocation) : Engine :=
  { e with
    entries := e.entries.insert id { location := loc }
    nextExtentId := if id ≥ e.nextExtentId then id + 1 else e.nextExtentId
    freeLists := Function.update e.freeLists loc.tier
      (freeInsert (loc.length - headerSize, id) (e.freeLists loc.tier)) }

/-- The replay of one record. -/
def replayRecord (e : Engine) (r : JournalRecord) : Engine :=
  match r.op with
  | .extentNew => e.createEntryFromJournal r.extentId r.extentLoc
  | .keyPut => e.keyPut r.key r.keyLoc
  | .keyDel => e.keyErase r.key
  | .markDead => e.markDeadSlot r.extentId r.deadLength
  | .extentFree => e.freeExtent r.extentId
  | _ => e

/-- The sum of the lengths of an extent's keys. -/
def totalLive (env : Env) (e : Engine) (id : UInt64) : UInt32 :=
  (e.keysInExtent env id).foldl (fun n k => n + ((e.keyMap k).getD {}).length) 0

/-- `restore_extent_state`. -/
def restoreExtentState (e : Engine) (id : UInt64) (used live : UInt32) : Engine :=
  match e.entries.lookup id with
  | none => e
  | some x =>
    { e with
      entries := e.entries.insert id { x with usedBytes := used, liveBytes := live } }.updateFreeList
        id x.location.tier (x.capacity - x.usedBytes) (x.capacity - used)

/-- The counters of one extent: an extent without live bytes is freed. -/
def restoreExtent (env : Env) (e : Engine) (id : UInt64) : Engine :=
  let total := e.totalLive env id
  if total = 0 then e.freeExtent id else e.restoreExtentState id total total

/-- The extents, in the order in which they are iterated: `snapshot`. -/
def snapshot (env : Env) (e : Engine) : List UInt64 := env.orderIds e.log.length e.entries.keys

/-- The regions of the extents are taken from the allocators. -/
def markAllocated (e : Engine) : Engine :=
  { e with
    free := fun t i => e.free t i && !e.entries.entries.any fun s =>
      (if s.2.location.tier = .fast then Tier.fast else .slow) = t &&
        inRange s.2.location.offset.toNat s.2.location.length.toNat i }

/-- Whether a header says that its extent is corrupt: the magic is there and the checksum of the
fields before it is not. -/
def headerCorrupt (hdr : List UInt8) : Bool :=
  leNat (hdr.take 8) = 0x4254494552535445 ∧
    leNat ((hdr.drop 40).take 4) ≠ (Common.calcCrc32 (hdr.take 40) 0).toNat

/-- The size of a device. -/
def devSize (env : Env) (t : Tier) : ℕ := if t = .fast then env.fastSize else env.slowSize

/-- The check of one extent's header: a corrupt extent loses its keys and is freed. A header that
cannot be read is not checked. -/
def verifyHeader (env : Env) (e : Engine) (id : UInt64) : Engine :=
  match e.entries.lookup id with
  | none => e
  | some x =>
    if x.location.offset.toNat + headerSize.toNat ≤ devSize env x.location.tier ∧
        headerCorrupt (e.devRead x.location.tier x.location.offset.toNat headerSize.toNat) then
      ((e.keysInExtent env id).foldl keyErase e).freeExtent id
    else e

/-- `clear_deferred_free`. -/
def clearDeferredFree (e : Engine) : Engine := { e with deferredFree := [] }

/-- `recover_internal`. -/
def recoverInternal (env : Env) (e : Engine) (records : List JournalRecord) : Engine :=
  let e := records.foldl replayRecord e
  let e := (e.snapshot env).foldl (restoreExtent env) e
  let e := e.markAllocated
  let e := (e.snapshot env).foldl (verifyHeader env) e
  e.clearDeferredFree

/-- `init` on the devices that a crash has left; `none` is an exception. -/
def reopen (env : Env) (d : Devices) : Option Engine :=
  let j := Journal.create d.fast env.journalSize
  match j.recover with
  | none => none
  | some [] => some (init env d.fast d.slow)
  | some rs => some ((opened env j d.slow).recoverInternal env rs)

/-! ## What the records say -/

/-- What replayed records say: where the keys are, and where the extents are. -/
structure View where
  /-- The key map. -/
  keys : Key → Option KeyLocation
  /-- The locations of the extents. -/
  extents : UInt64 → Option DiskLocation

/-- No record, no key. -/
def View.empty : View := ⟨fun _ => none, fun _ => none⟩

/-- What one more record says. -/
def View.apply (V : View) (r : JournalRecord) : View :=
  match r.op with
  | .extentNew => { V with extents := Function.update V.extents r.extentId (some r.extentLoc) }
  | .keyPut => { V with keys := Function.update V.keys r.key (some r.keyLoc) }
  | .keyDel => { V with keys := Function.update V.keys r.key none }
  | .extentFree => { V with extents := Function.update V.extents r.extentId none }
  | _ => V

/-- What a list of records says. -/
def View.after (rs : List JournalRecord) : View := rs.foldl View.apply View.empty

/-- The devices hold the map `m` under the view `V`. -/
structure Shown (d : Devices) (V : View) (m : Key → Option Value) : Prop where
  /-- A key that is not there has no value. -/
  absent : ∀ k, V.keys k = none → m k = none
  /-- The slot of a key holds its value, and the header of its extent is not corrupt. -/
  slot : ∀ k kl, V.keys k = some kl → ∃ loc v, V.extents kl.extentId = some loc ∧ m k = some v ∧
    0 < kl.length.toNat ∧ d.read loc.tier (slotStart loc kl.offset) kl.length.toNat = v ∧
    headerCorrupt (d.read loc.tier loc.offset.toNat headerSize.toNat) = false
  /-- The bytes of an extent's keys can be counted in 32 bits. -/
  bytes : ∀ id (ks : List Key), ks.Nodup →
    (∀ k ∈ ks, ∃ kl, V.keys k = some kl ∧ kl.extentId = id) →
    (ks.map fun k => ((V.keys k).getD {}).length.toNat).sum < 2 ^ 32

/-- The engine has replayed records that say `V`. -/
structure Replayed (e : Engine) (d : Devices) (V : View) : Prop where
  /-- The key map. -/
  keyMap : e.keyMap = V.keys
  /-- The reverse index agrees with it. -/
  indexed : Indexed e
  /-- The extents are where the records say. -/
  extents : ∀ id, (e.entries.lookup id).map ExtentEntry.location = V.extents id
  /-- The devices are as the crash left them. -/
  devices : e.devices = d

/-- The locations of the extents after `mark_dead_slot`. -/
theorem markDeadSlot_locations (e : Engine) (id : UInt64) (length : UInt32) (a : UInt64) :
    ((e.markDeadSlot id length).entries.lookup a).map ExtentEntry.location =
      (e.entries.lookup a).map ExtentEntry.location := by
  unfold markDeadSlot
  cases hx : e.entries.lookup id with
  | none => rfl
  | some x =>
    simp only [updateFreeList]
    by_cases ha : a = id
    · subst ha
      rw [AList.lookup_insert, hx]
      rfl
    · rw [AList.lookup_insert_ne ha]

/-- `mark_dead_slot` is about the extents only. -/
theorem markDeadSlot_frame (e : Engine) (id : UInt64) (length : UInt32) :
    e.markDeadSlot id length = { e with
      entries := (e.markDeadSlot id length).entries
      freeLists := (e.markDeadSlot id length).freeLists } := by
  unfold markDeadSlot
  cases e.entries.lookup id <;> rfl

/-- The replay of one record. -/
theorem Replayed.record {e : Engine} {d : Devices} {V : View} (h : Replayed e d V)
    (r : JournalRecord) : Replayed (e.replayRecord r) d (V.apply r) := by
  unfold replayRecord View.apply
  -- One case for each operation; what is replayed is what the view has.
  cases hop : r.op with
  | extentNew =>
    refine ⟨h.keyMap, ⟨h.indexed.mem, h.indexed.nodup⟩, fun id => ?_, h.devices⟩
    simp only [createEntryFromJournal]
    by_cases hid : id = r.extentId
    · subst hid
      rw [AList.lookup_insert, Function.update_self]
      rfl
    · rw [AList.lookup_insert_ne hid, Function.update_of_ne hid, h.extents]
  | keyPut =>
    refine ⟨?_, h.indexed.keyPut _ _, h.extents, h.devices⟩
    rw [keyPut_keyMap, h.keyMap]
  | keyDel =>
    have hf := keyErase_frame e r.key
    refine ⟨?_, h.indexed.keyErase _, fun id => ?_, ?_⟩
    · simp only
      rw [keyErase_keyMap, h.keyMap]
    · simp only
      rw [hf]
      exact h.extents id
    · simp only
      rw [hf]
      exact h.devices
  | markDead =>
    have hf := markDeadSlot_frame e r.extentId r.deadLength
    simp only
    refine ⟨by rw [hf]; exact h.keyMap, ⟨?_, ?_⟩, fun id => ?_, by rw [hf]; exact h.devices⟩
    · rw [hf]; exact h.indexed.mem
    · rw [hf]; exact h.indexed.nodup
    · rw [markDeadSlot_locations]; exact h.extents id
  | extentFree =>
    have hf := freeExtent_frame e r.extentId
    simp only
    refine ⟨by rw [hf]; exact h.keyMap, ⟨?_, ?_⟩, fun id => ?_, by rw [hf]; exact h.devices⟩
    · rw [hf]; exact h.indexed.mem
    · rw [hf]; exact h.indexed.nodup
    · rw [show (e.freeExtent r.extentId).entries = e.entries.erase r.extentId by rw [hf]]
      simp only
      by_cases hid : id = r.extentId
      · subst hid
        rw [AList.lookup_erase, Function.update_self]
        rfl
      · rw [AList.lookup_erase_ne hid, Function.update_of_ne hid, h.extents]
  | _ => exact h

/-- The replay of a list of records. -/
theorem Replayed.records {e : Engine} {d : Devices} {V : View} (h : Replayed e d V)
    (rs : List JournalRecord) : Replayed (rs.foldl replayRecord e) d (rs.foldl View.apply V) := by
  induction rs generalizing e V with
  | nil => exact h
  | cons r rs ih => exact ih (h.record r)

/-- The extents that have keys are where the records say. -/
structure Located (e : Engine) (d : Devices) (V : View) : Prop where
  /-- The key map. -/
  keyMap : e.keyMap = V.keys
  /-- The reverse index agrees with it. -/
  indexed : Indexed e
  /-- The extents with keys. -/
  extents : ∀ k kl, V.keys k = some kl → ∃ x, e.entries.lookup kl.extentId = some x ∧
    V.extents kl.extentId = some x.location
  /-- The devices are as the crash left them. -/
  devices : e.devices = d

/-- An extent without keys may go. -/
theorem Located.freeExtent {e : Engine} {d : Devices} {V : View} (h : Located e d V) {id : UInt64}
    (hid : e.reverseIndex id = []) : Located (e.freeExtent id) d V := by
  have hf := freeExtent_frame e id
  refine ⟨by rw [hf]; exact h.keyMap, ⟨by rw [hf]; exact h.indexed.mem,
    by rw [hf]; exact h.indexed.nodup⟩, fun k kl hk => ?_, by rw [hf]; exact h.devices⟩
  obtain ⟨x, hx, hloc⟩ := h.extents k kl hk
  refine ⟨x, ?_, hloc⟩
  rw [show (e.freeExtent id).entries = e.entries.erase id by rw [hf], AList.lookup_erase_ne, hx]
  rintro rfl
  have hmem := (h.indexed.mem k kl.extentId).mpr ⟨kl, by rw [h.keyMap]; exact hk, rfl⟩
  rw [hid] at hmem
  cases hmem

/-- The sum of lengths in 32 bits is the sum when that fits. -/
theorem toNat_foldl_add {α : Type*} (f : α → UInt32) (ks : List α) (n : UInt32)
    (h : n.toNat + (ks.map fun k => (f k).toNat).sum < 2 ^ 32) :
    (ks.foldl (fun n k => n + f k) n).toNat = n.toNat + (ks.map fun k => (f k).toNat).sum := by
  induction ks generalizing n with
  | nil => simp
  | cons k ks ih =>
    simp only [List.map_cons, List.sum_cons] at h
    have hadd : (n + f k).toNat = n.toNat + (f k).toNat := by
      rw [UInt32.toNat_add]
      exact Nat.mod_eq_of_lt (by omega)
    rw [List.foldl_cons, ih (n + f k) (by omega), hadd]
    simp only [List.map_cons, List.sum_cons]
    omega

/-- An extent whose total is zero has no keys. -/
theorem Located.no_keys {env : Env} (henv : env.Lawful) {e : Engine} {d : Devices} {V : View}
    {m : Key → Option Value} (h : Located e d V) (hs : Shown d V m) {id : UInt64}
    (hid : e.totalLive env id = 0) : e.reverseIndex id = [] := by
  have hperm : (e.keysInExtent env id).Perm (e.reverseIndex id) := henv.keys _ _
  have hkeys : ∀ k ∈ e.keysInExtent env id, ∃ kl, V.keys k = some kl ∧ kl.extentId = id := by
    intro k hk
    rw [← h.keyMap]
    exact (h.indexed.mem k id).mp (hperm.mem_iff.mp hk)
  have hsum := hs.bytes id (e.keysInExtent env id)
    (hperm.nodup_iff.mpr (h.indexed.nodup id)) hkeys
  have htotal : (e.totalLive env id).toNat =
      ((e.keysInExtent env id).map fun k => ((V.keys k).getD {}).length.toNat).sum := by
    unfold totalLive
    rw [h.keyMap, toNat_foldl_add _ _ _ (by simpa using hsum)]
    simp
  rw [hid] at htotal
  rw [List.eq_nil_iff_forall_not_mem]
  intro k hk
  obtain ⟨kl, hkl, -⟩ := hkeys k (hperm.mem_iff.mpr hk)
  obtain ⟨-, -, -, -, hpos, -, -⟩ := hs.slot k kl hkl
  have hzero := List.sum_eq_zero_iff.mp htotal.symm _
    (List.mem_map_of_mem (hperm.mem_iff.mpr hk))
  simp only [hkl, Option.getD_some] at hzero
  omega

/-- The counters of one extent are restored. -/
theorem Located.restoreExtent {env : Env} (henv : env.Lawful) {e : Engine} {d : Devices} {V : View}
    {m : Key → Option Value} (h : Located e d V) (hs : Shown d V m) (id : UInt64) :
    Located (e.restoreExtent env id) d V := by
  simp only [Engine.restoreExtent]
  split_ifs with hzero
  · exact h.freeExtent (h.no_keys henv hs hzero)
  · unfold restoreExtentState
    cases hx : e.entries.lookup id with
    | none => exact h
    | some x =>
      refine ⟨h.keyMap, ⟨h.indexed.mem, h.indexed.nodup⟩, fun k kl hk => ?_, h.devices⟩
      obtain ⟨y, hy, hloc⟩ := h.extents k kl hk
      simp only [updateFreeList]
      by_cases hid : kl.extentId = id
      · rw [hid] at hy ⊢
        obtain rfl : x = y := Option.some.inj (hx.symm.trans hy)
        exact ⟨_, AList.lookup_insert .., by rw [← hid]; exact hloc⟩
      · exact ⟨y, by rw [AList.lookup_insert_ne hid, hy], hloc⟩

/-- A header that is not corrupt is left alone, and an extent without keys has none to lose. -/
theorem Located.verifyHeader {env : Env} (henv : env.Lawful) {e : Engine} {d : Devices} {V : View}
    {m : Key → Option Value} (h : Located e d V) (hs : Shown d V m) (id : UInt64) :
    Located (e.verifyHeader env id) d V := by
  unfold Engine.verifyHeader
  cases hx : e.entries.lookup id with
  | none => exact h
  | some x =>
    simp only
    split_ifs with hbad
    · have hperm : (e.keysInExtent env id).Perm (e.reverseIndex id) := henv.keys _ _
      have hnil : e.reverseIndex id = [] := by
        rw [List.eq_nil_iff_forall_not_mem]
        intro k hk
        obtain ⟨kl, hkl, rfl⟩ := (h.indexed.mem k id).mp hk
        rw [h.keyMap] at hkl
        obtain ⟨y, hy, hloc⟩ := h.extents k kl hkl
        obtain rfl : x = y := Option.some.inj (hx.symm.trans hy)
        obtain ⟨loc, v, hext, -, -, -, hgood⟩ := hs.slot k kl hkl
        obtain rfl : x.location = loc := Option.some.inj (hloc.symm.trans hext)
        have hread : e.devRead x.location.tier x.location.offset.toNat headerSize.toNat =
            d.read x.location.tier x.location.offset.toNat headerSize.toNat := by
          rw [← h.devices]
          rfl
        rw [hread, hgood] at hbad
        cases hbad.2
      rw [hnil] at hperm
      rw [hperm.eq_nil]
      exact h.freeExtent hnil
    · exact h

/-- Passes over extents keep what each of them keeps. -/
theorem Located.foldl {e : Engine} {d : Devices} {V : View} (h : Located e d V)
    {f : Engine → UInt64 → Engine} (hf : ∀ e id, Located e d V → Located (f e id) d V)
    (ids : List UInt64) : Located (ids.foldl f e) d V := by
  induction ids generalizing e with
  | nil => exact h
  | cons id ids ih => exact ih (hf e id h)

/-- `get` reads through the view. -/
theorem Located.get {e : Engine} {d : Devices} {V : View} {m : Key → Option Value}
    (h : Located e d V) (hs : Shown d V m) (k : Key) : e.get k = lookupResult (m k) := by
  unfold Engine.get
  rw [h.keyMap]
  cases hk : V.keys k with
  | none => rw [hs.absent k hk]; rfl
  | some kl =>
    obtain ⟨x, hx, hloc⟩ := h.extents k kl hk
    obtain ⟨loc, v, hext, hv, -, hread, -⟩ := hs.slot k kl hk
    obtain rfl : x.location = loc := Option.some.inj (hloc.symm.trans hext)
    simp only [hx, hv]
    refine congrArg _ (Eq.trans ?_ hread)
    rw [← h.devices]
    rfl

/-- What recovery yields from devices whose journal says `V`. -/
theorem reopen_spec {env : Env} (henv : env.Lawful) {d : Devices} {rs : List JournalRecord}
    {m : Key → Option Value} (hd : d.fast.superblock.magic = superBlockMagic)
    (hrec : (Journal.create d.fast env.journalSize).recover = some rs)
    (hs : Shown d (View.after rs) m) :
    ∃ e, reopen env d = some e ∧ ∀ k, e.get k = lookupResult (m k) := by
  have hdev : (Journal.create d.fast env.journalSize).dev = d.fast := by
    simp [Journal.create, Journal.readSuperblock, hd]
  unfold reopen
  simp only [hrec]
  -- An empty journal is not replayed.
  cases rs with
  | nil =>
    refine ⟨_, rfl, fun k => ?_⟩
    rw [hs.absent k rfl]
    rfl
  | cons r rs =>
    refine ⟨_, rfl, fun k => ?_⟩
    obtain ⟨e, he⟩ : ∃ e, e = opened env (Journal.create d.fast env.journalSize) d.slow := ⟨_, rfl⟩
    have h0 : Replayed e d View.empty := by
      rw [he]
      refine ⟨rfl, ⟨by simp [opened], by simp [opened]⟩, fun id => by simp [opened, View.empty], ?_⟩
      simp only [devices, opened, hdev]
    have h1 := h0.records (r :: rs)
    have h2 : Located ((r :: rs).foldl replayRecord e) d (View.after (r :: rs)) := by
      refine ⟨h1.keyMap, h1.indexed, fun k kl hk => ?_, h1.devices⟩
      obtain ⟨loc, -, hext, -⟩ := hs.slot k kl hk
      have hlook := h1.extents kl.extentId
      rw [show (r :: rs).foldl View.apply View.empty = View.after (r :: rs) from rfl, hext] at hlook
      obtain ⟨x, hx, hloc⟩ := Option.map_eq_some_iff.mp hlook
      exact ⟨x, hx, by rw [hext, hloc]⟩
    rw [← he]
    unfold recoverInternal
    obtain ⟨e1, he1⟩ : ∃ e1, e1 = (r :: rs).foldl replayRecord e := ⟨_, rfl⟩
    rw [← he1] at h2 ⊢
    have h3 := h2.foldl (fun e id h => h.restoreExtent henv hs id) (e1.snapshot env)
    obtain ⟨e2, he2⟩ : ∃ e2, e2 = ((e1.snapshot env).foldl (Engine.restoreExtent env) e1) :=
      ⟨_, rfl⟩
    rw [← he2] at h3
    have h4 : Located e2.markAllocated d (View.after (r :: rs)) :=
      ⟨h3.keyMap, ⟨h3.indexed.mem, h3.indexed.nodup⟩, h3.extents, h3.devices⟩
    have h5 := h4.foldl (fun e id h => h.verifyHeader henv hs id) (e2.markAllocated.snapshot env)
    simp only [← he2]
    have h6 : Located (((e2.markAllocated.snapshot env).foldl (Engine.verifyHeader env)
        e2.markAllocated).clearDeferredFree) d (View.after (r :: rs)) :=
      ⟨h5.keyMap, ⟨h5.indexed.mem, h5.indexed.nodup⟩, h5.extents, h5.devices⟩
    exact h6.get hs k

/-- Freeing an extent gives no key a slot. -/
theorem freeExtent_keyMap (e : Engine) (id : UInt64) : (e.freeExtent id).keyMap = e.keyMap := by
  rw [freeExtent_frame e id]

/-- The passes over the extents give no key a slot. -/
theorem foldl_absent {α : Type*} {f : Engine → α → Engine} {k : Key}
    (hf : ∀ e a, e.keyMap k = none → (f e a).keyMap k = none) (as : List α) {e : Engine}
    (h : e.keyMap k = none) : (as.foldl f e).keyMap k = none := by
  induction as generalizing e with
  | nil => exact h
  | cons a as ih => exact ih (hf e a h)

/-- Recovery finds no key that the journal does not have. -/
theorem reopen_absent {env : Env} {d : Devices} {rs : List JournalRecord} {k : Key}
    (hd : d.fast.superblock.magic = superBlockMagic)
    (hrec : (Journal.create d.fast env.journalSize).recover = some rs)
    (hk : (View.after rs).keys k = none) :
    ∃ e, reopen env d = some e ∧ e.get k = .error .enoent := by
  have hget : ∀ e : Engine, e.keyMap k = none → e.get k = .error .enoent := by
    intro e he
    unfold Engine.get
    rw [he]
  have hdev : (Journal.create d.fast env.journalSize).dev = d.fast := by
    simp [Journal.create, Journal.readSuperblock, hd]
  unfold reopen
  simp only [hrec]
  -- An empty journal is not replayed.
  cases rs with
  | nil => exact ⟨_, rfl, hget _ rfl⟩
  | cons r rs =>
    refine ⟨_, rfl, hget _ ?_⟩
    obtain ⟨e, he⟩ : ∃ e, e = opened env (Journal.create d.fast env.journalSize) d.slow := ⟨_, rfl⟩
    have h0 : Replayed e d View.empty := by
      rw [he]
      refine ⟨rfl, ⟨by simp [opened], by simp [opened]⟩, fun id => by simp [opened, View.empty], ?_⟩
      simp only [devices, opened, hdev]
    have h1 : ((r :: rs).foldl replayRecord e).keyMap k = none := by
      rw [(h0.records (r :: rs)).keyMap]
      exact hk
    rw [← he]
    unfold recoverInternal
    obtain ⟨e1, he1⟩ : ∃ e1, e1 = (r :: rs).foldl replayRecord e := ⟨_, rfl⟩
    rw [← he1] at h1 ⊢
    have h2 : ((e1.snapshot env).foldl (restoreExtent env) e1).keyMap k = none := by
      refine foldl_absent (fun e id h => ?_) _ h1
      simp only [restoreExtent]
      split_ifs
      · rw [freeExtent_keyMap]
        exact h
      · unfold restoreExtentState
        cases e.entries.lookup id <;> exact h
    obtain ⟨e2, he2⟩ : ∃ e2, e2 = (e1.snapshot env).foldl (restoreExtent env) e1 := ⟨_, rfl⟩
    rw [← he2] at h2
    simp only [← he2]
    show ((e2.markAllocated.snapshot env).foldl (verifyHeader env) e2.markAllocated).keyMap k = none
    refine foldl_absent (fun e id h => ?_) _ h2
    unfold verifyHeader
    cases e.entries.lookup id with
    | none => exact h
    | some x =>
      simp only
      split_ifs
      · rw [freeExtent_keyMap]
        refine foldl_absent (fun e k' h => ?_) _ h
        rw [keyErase_keyMap]
        by_cases hkk : k = k'
        · rw [hkk, Function.update_self]
        · rw [Function.update_of_ne hkk]
          exact h
      · exact h

end Engine

end CxxLab.Btier
