import CxxLab.Btier.JournalCrash
import CxxLab.Btier.EngineMigration

/-!
# What a crash leaves

The invariant behind durability. The journal carries records that say where the keys are, the view
`V`. `Sound` says that the devices hold the content under that view and will go on doing so: the
slots that the view names lie in locations that are owned, in the part of them that is in use, and
no write goes there. The view may lag behind the memory after a migration or a compaction, whose
moves are not in the journal; then it names retired locations.
-/

namespace CxxLab.Btier

open Engine

namespace Engine

/-! ## The bytes in use -/

/-- A byte of an owned location that no write may change: it is in the header or in the used part
of an extent, or anywhere in a retired location. -/
def InUse (e : Engine) (loc : DiskLocation) (i : ℕ) : Prop :=
  loc.offset.toNat ≤ i ∧ i < loc.offset.toNat + loc.length.toNat ∧
    ∀ id x, e.entries.lookup id = some x → x.location = loc →
      i < loc.offset.toNat + headerSize.toNat + x.usedBytes.toNat

/-- The header at a location is not corrupt. -/
def HeaderOk (e : Engine) (loc : DiskLocation) : Prop :=
  headerCorrupt (e.devRead loc.tier loc.offset.toNat headerSize.toNat) = false

/-- The slot `kl` of an extent at `loc` holds `v`, and is in use. -/
structure Guards (e : Engine) (loc : DiskLocation) (kl : KeyLocation) (v : Value) : Prop where
  /-- The location is owned. -/
  mem : loc ∈ owned [] e
  /-- The slot is not empty. -/
  pos : 0 < kl.length.toNat
  /-- The slot is in use. -/
  inUse : ∀ i, slotStart loc kl.offset ≤ i → i < slotStart loc kl.offset + kl.length.toNat →
    e.InUse loc i
  /-- The slot holds the value. -/
  read : e.devRead loc.tier (slotStart loc kl.offset) kl.length.toNat = v
  /-- The header is not corrupt. -/
  header : e.HeaderOk loc

/-- For the extents that are still there, the keys of the view are keys of the memory. -/
def Tracks (e : Engine) (V : View) : Prop :=
  ∀ k kl x, V.keys k = some kl → e.entries.lookup kl.extentId = some x → e.keyMap k = some kl

/-- The devices hold the map `m` under the view `V`, in bytes that are in use. -/
structure Sound (e : Engine) (V : View) (m : Key → Option Value) : Prop where
  /-- The extents of the view have older names than the next one. -/
  older : ∀ id, V.extents id ≠ none → id.toNat < e.nextExtentId.toNat
  /-- A key that is not there has no value. -/
  absent : ∀ k, V.keys k = none → m k = none
  /-- The slot of a key holds its value, and is in use. -/
  slot : ∀ k kl, V.keys k = some kl → ∃ loc v, V.extents kl.extentId = some loc ∧ m k = some v ∧
    e.Guards loc kl v
  /-- The bytes of an extent's keys can be counted in 32 bits. -/
  bytes : ∀ id (ks : List Key), ks.Nodup →
    (∀ k ∈ ks, ∃ kl, V.keys k = some kl ∧ kl.extentId = id) →
    (ks.map fun k => ((V.keys k).getD {}).length.toNat).sum < 2 ^ 32
  /-- The headers of the extents are not corrupt. -/
  headers : ∀ id x, e.entries.lookup id = some x → e.HeaderOk x.location
  /-- The memory has the keys of the view. -/
  tracks : Tracks e V

section

variable {env : Env} {held : List DiskLocation} {res : UInt64 → ℕ} {e e' e1 e2 : Engine}
  {m m' : Key → Option Value} {V V' : View}

/-- What is owned is owned while a call holds something. -/
theorem mem_owned {loc : DiskLocation} (h : loc ∈ owned [] e) (held : List DiskLocation) :
    loc ∈ owned held e := by
  simp only [owned, List.nil_append, List.mem_append] at h ⊢
  tauto

/-- The header of an owned location is in use. -/
theorem Space.header_inUse (hcfg : env.ConfigOk) (h : Space env held e) {loc : DiskLocation}
    (hloc : loc ∈ owned [] e) {i : ℕ} (h1 : loc.offset.toNat ≤ i)
    (h2 : i < loc.offset.toNat + headerSize.toNat) : e.InUse loc i := by
  have := (h.ok loc (mem_owned hloc held)).header_le hcfg
  exact ⟨h1, by omega, fun id x _ _ => by omega⟩

/-- A header stays as it is with its bytes. -/
theorem HeaderOk.congr {loc : DiskLocation} (h : e.HeaderOk loc)
    (hb : ∀ i, loc.offset.toNat ≤ i → i < loc.offset.toNat + headerSize.toNat →
      e'.byteAt loc.tier i = e.byteAt loc.tier i) : e'.HeaderOk loc := by
  unfold HeaderOk at h ⊢
  rw [devRead_congr hb]
  exact h

/-- A read of the devices sees the bytes of its range only. -/
theorem read_eq_devRead {d : Devices} {t : Tier} {off len : ℕ}
    (h : ∀ i, off ≤ i → i < off + len → d.byteAt t i = e.byteAt t i) :
    d.read t off len = e.devRead t off len := by
  apply List.map_congr_left
  intro i hi
  rw [List.mem_range] at hi
  exact h _ (by omega) (by omega)

/-- Devices on which the bytes in use are those of the engine hold the content. -/
theorem Sound.shown (hcfg : env.ConfigOk) (hsp : Space env held e) (h : Sound e V m) {d : Devices}
    (hd : ∀ loc ∈ owned [] e, ∀ i, e.InUse loc i → d.byteAt loc.tier i = e.byteAt loc.tier i) :
    Shown d V m := by
  refine ⟨h.absent, fun k kl hk => ?_, h.bytes⟩
  obtain ⟨loc, v, hext, hv, hg⟩ := h.slot k kl hk
  refine ⟨loc, v, hext, hv, hg.pos, ?_, ?_⟩
  · rw [← hg.read]
    exact read_eq_devRead fun i h1 h2 => hd loc hg.mem i (hg.inUse i h1 h2)
  · rw [read_eq_devRead fun i h1 h2 => hd loc hg.mem i (hsp.header_inUse hcfg hg.mem h1 h2)]
    exact hg.header

/-- The extents of the view are not the next one. -/
theorem Sound.not_next (h : Sound e V m) {k : Key} {kl : KeyLocation} (hk : V.keys k = some kl) :
    kl.extentId.toNat < e.nextExtentId.toNat := by
  obtain ⟨loc, v, hext, -, -⟩ := h.slot k kl hk
  exact h.older _ (by rw [hext]; simp)

/-- A location is on its device. -/
def OnDevice (env : Env) (loc : DiskLocation) : Prop :=
  loc.offset.toNat + loc.length.toNat ≤ Engine.devSize env loc.tier

/-- What the view names is spared on the way from `e` to `e'`, as far as the memory goes. -/
structure Spares (env : Env) (e e' : Engine) (V : View) : Prop where
  /-- Names are not used again. -/
  next : e.nextExtentId.toNat ≤ e'.nextExtentId.toNat
  /-- What the view names stays owned. -/
  stays : ∀ k kl loc, V.keys k = some kl → V.extents kl.extentId = some loc →
    loc ∈ owned [] e → loc ∈ owned [] e'
  /-- What is owned was owned, or is on its device. -/
  places : ∀ loc ∈ owned [] e', loc ∈ owned [] e ∨ OnDevice env loc
  /-- The extents are old ones, of which more is used, or are new ones. -/
  entries : ∀ id x', e'.entries.lookup id = some x' →
    (∃ id0 x, e.entries.lookup id0 = some x ∧ x.location = x'.location ∧
      x.usedBytes.toNat ≤ x'.usedBytes.toNat) ∨
    (x'.location ∉ owned [] e ∧ e'.HeaderOk x'.location)
  /-- The memory has the keys of the view. -/
  tracks : Tracks e' V

/-- The engine changes, and the bytes in use under the view do not. -/
theorem Sound.keep (hcfg : env.ConfigOk) (hsp : Space env held e) (h : Sound e V m)
    (hsp' : Spares env e e' V)
    (hbytes : ∀ loc ∈ owned [] e, ∀ i, e.InUse loc i →
      e'.byteAt loc.tier i = e.byteAt loc.tier i) : Sound e' V m := by
  have hheader : ∀ loc ∈ owned [] e, e.HeaderOk loc → e'.HeaderOk loc := fun loc hloc hh =>
    hh.congr fun i h1 h2 => hbytes loc hloc i (hsp.header_inUse hcfg hloc h1 h2)
  refine ⟨fun id hid => (h.older id hid).trans_le hsp'.next, h.absent, fun k kl hk => ?_, h.bytes,
    fun id x hx => ?_, hsp'.tracks⟩
  · obtain ⟨loc, v, hext, hv, hg⟩ := h.slot k kl hk
    refine ⟨loc, v, hext, hv, hsp'.stays k kl loc hk hext hg.mem, hg.pos, fun i h1 h2 => ?_, ?_,
      hheader loc hg.mem hg.header⟩
    · obtain ⟨hu1, hu2, hu3⟩ := hg.inUse i h1 h2
      refine ⟨hu1, hu2, fun id' x' hx' hloc' => ?_⟩
      rcases hsp'.entries id' x' hx' with ⟨id, x, hx, hloc, hused⟩ | ⟨hnew, -⟩
      · have := hu3 id x hx (hloc.trans hloc')
        omega
      · rw [hloc'] at hnew
        exact absurd hg.mem hnew
    · rw [← hg.read]
      exact devRead_congr fun i h1 h2 => hbytes loc hg.mem i (hg.inUse i h1 h2)
  · rcases hsp'.entries id x hx with ⟨id0, x0, hx0, hloc, -⟩ | ⟨-, hh⟩
    · rw [← hloc]
      exact hheader _ (location_mem_owned hx0 []) (h.headers id0 x0 hx0)
    · exact hh

/-- The keys of the view are tracked while the key map stays and extents go or come. -/
theorem Sound.tracks_of_keyMap (h : Sound e V m) (hmap : e'.keyMap = e.keyMap)
    (hent : ∀ id x', e'.entries.lookup id = some x' →
      (∃ x, e.entries.lookup id = some x) ∨ e.nextExtentId.toNat ≤ id.toNat) : Tracks e' V := by
  intro k kl x' hk hx'
  rw [hmap]
  rcases hent _ _ hx' with ⟨x, hx⟩ | hnew
  · exact h.tracks k kl x hk hx
  · exact absurd (h.not_next hk) (Nat.not_lt.mpr hnew)

/-! ## Trails -/

/-- What a crash yields: the map that `get` reads after recovery. -/
def Yields (env : Env) (m : Key → Option Value) (d : Devices) : Prop :=
  ∃ e, reopen env d = some e ∧ ∀ k, e.get k = lookupResult (m k)

/-- From `e` to `e'` the engine issued writes that are safe at every crash point. -/
def Trail (P : Devices → Prop) (e e' : Engine) : Prop :=
  ∃ ws, e'.log = e.log ++ ws ∧ e'.devices = ws.foldl Devices.apply e.devices ∧
    Crash.Safe Devices.apply DevWrite.Torn P e.devices ws

/-- Writes that are safe for a property are safe for one that follows from it. -/
theorem Trail.mono {P Q : Devices → Prop} (h : Trail P e e') (hPQ : ∀ d, P d → Q d) :
    Trail Q e e' := by
  obtain ⟨ws, hlog, hdev, hsafe⟩ := h
  exact ⟨ws, hlog, hdev, hsafe.mono hPQ⟩

/-- Nothing was written. -/
theorem trail_refl {P : Devices → Prop} (h : P e.devices) (hlog : e'.log = e.log)
    (hdev : e'.devices = e.devices) : Trail P e e' :=
  ⟨[], by rw [hlog, List.append_nil], hdev, Crash.safe_nil h⟩

/-- Safe writes one after the other. -/
theorem Trail.trans {P : Devices → Prop} (h1 : Trail P e e1) (h2 : Trail P e1 e2) :
    Trail P e e2 := by
  obtain ⟨ws1, hlog1, hdev1, hsafe1⟩ := h1
  obtain ⟨ws2, hlog2, hdev2, hsafe2⟩ := h2
  refine ⟨ws1 ++ ws2, by rw [hlog2, hlog1, List.append_assoc], ?_, ?_⟩
  · rw [hdev2, hdev1, List.foldl_append]
  · rw [hdev1] at hsafe2
    exact hsafe1.append hsafe2

/-- A data write as the devices see it. -/
theorem devWrite_devices {t : Tier} {off : ℕ} {bs : List UInt8}
    (hw : e.devWrite env t off bs = some e') :
    e'.log = e.log ++ [.data t off bs] ∧ e'.devices = e.devices.apply (.data t off bs) := by
  unfold Engine.devWrite Device.write at hw
  by_cases ht : t = .fast
  · simp only [ht, if_true, Option.map_eq_some_iff, Option.ite_none_right_eq_some,
      Option.some.injEq] at hw
    obtain ⟨dev, ⟨-, rfl⟩, rfl⟩ := hw
    refine ⟨by rw [ht], ?_⟩
    simp [devices, Devices.apply, ht]
  · rw [if_neg ht, Option.ite_none_right_eq_some] at hw
    obtain ⟨-, hw⟩ := hw
    obtain rfl := Option.some.inj hw
    exact ⟨rfl, by simp [devices, Devices.apply, ht]⟩

/-- A data write changes of the journal its device only. -/
theorem devWrite_journal {t : Tier} {off : ℕ} {bs : List UInt8}
    (hw : e.devWrite env t off bs = some e') :
    e'.journal = { e.journal with dev := e'.journal.dev } := by
  unfold Engine.devWrite at hw
  split at hw
  · rw [Option.map_eq_some_iff] at hw
    obtain ⟨dev, -, rfl⟩ := hw
    rfl
  · rw [Option.ite_none_right_eq_some] at hw
    obtain ⟨-, hw⟩ := hw
    obtain rfl := Option.some.inj hw
    rfl

/-- The bytes outside of a data write are not changed. -/
theorem apply_data_byteAt {d : Devices} {t t' : Tier} {off i : ℕ} {bs : List UInt8}
    (ht : t = .fast ∨ t = .slow) (ht' : t' = .fast ∨ t' = .slow)
    (hoff : t = .fast → kSuperblockSize ≤ off) (hi : t' = .fast → kSuperblockSize ≤ i)
    (hout : ¬ (t' = t ∧ off ≤ i ∧ i < off + bs.length)) :
    (d.apply (.data t off bs)).byteAt t' i = d.byteAt t' i := by
  rcases ht with rfl | rfl
  · rcases ht' with rfl | rfl
    · have hoff' := hoff rfl
      have hi' := hi rfl
      simp only [Devices.apply, Devices.byteAt, if_true, Ring.splice]
      rw [if_neg]
      rintro ⟨h1, h2⟩
      exact hout ⟨rfl, by omega, by omega⟩
    · simp [Devices.apply, Devices.byteAt]
  · rcases ht' with rfl | rfl
    · simp [Devices.apply, Devices.byteAt]
    · simp only [Devices.apply, Devices.byteAt, reduceCtorEq, if_false, Ring.splice]
      rw [if_neg]
      rintro ⟨h1, h2⟩
      exact hout ⟨rfl, h1, h2⟩

/-! ## The invariant -/

/-- The devices have the sizes that the environment says, and what is free is on them. -/
structure Sized (env : Env) (e : Engine) : Prop where
  /-- The FAST device. -/
  capacity : e.journal.dev.capacity + kSuperblockSize = env.fastSize
  /-- The journal. -/
  devSize : e.journal.devSize = env.journalSize
  /-- The journal is on the FAST device. -/
  journal_le : env.journalSize ≤ env.fastSize
  /-- What is free is on the devices. -/
  free_lt : ∀ t i, (t = .fast ∨ t = .slow) → e.free t i = true → i < Engine.devSize env t
  /-- What is owned is on the devices. -/
  owned_on : ∀ loc ∈ owned [] e, OnDevice env loc

/-- A crash now yields `m`, and the engine knows how to go on. -/
structure Durable (env : Env) (e : Engine) (V : View) (m : Key → Option Value) : Prop where
  /-- The devices hold the content under the view. -/
  sound : Sound e V m
  /-- The journal carries the view. -/
  carries : Carries e.journal V
  /-- The devices have their sizes. -/
  sized : Sized env e

/-- A journal that carries the view on devices that hold the content. -/
theorem yields_of_carries (henv : env.Lawful) {j : Journal} {d : Devices} (hc : Carries j V)
    (hsize : j.devSize = env.journalSize) (hdev : j.dev = d.fast) (hs : Shown d V m) :
    Yields env m d := by
  obtain ⟨l, hl, hV⟩ := hc
  have hrec := hl.recover
  rw [hsize, hdev] at hrec
  refine reopen_spec henv ?_ hrec (by rw [hV]; exact hs)
  rw [← hdev, hl.dev]
  exact hl.magic

/-- What a journal carries is in its data area. -/
theorem Carries.congr {j : Journal} (h : Carries j V) (hpos : 0 < j.dataSize)
    {data : ℕ → UInt8} (hdata : ∀ i < j.dataSize, data i = j.dev.data i) :
    Carries { j with dev := { j.dev with data := data } } V := by
  obtain ⟨l, hl, hV⟩ := h
  obtain ⟨gs, hgs, hlog⟩ := hl.ring
  refine ⟨l, ⟨hl.size, hl.magic, hl.dev, hl.head, hl.next, hl.active, hl.serialized, gs, ?_, hlog⟩,
    hV⟩
  refine ⟨hgs.cp_lt, hgs.used_lt, hgs.head, hgs.aligned, ?_, hgs.valid⟩
  exact (Ring.ringRead_congr hpos hdata _ _).trans hgs.read

/-- The data area of a journal that is ready is not empty. -/
theorem JournalReady.dataSize_pos (hcfg : env.ConfigOk) {j : Journal} (h : JournalReady env j) :
    0 < j.dataSize := by
  have := hcfg.journal
  have := h.dataSize
  have : kTxnAlignment = 4096 := rfl
  omega

/-- A crash now yields the content. -/
theorem Durable.yields (henv : env.Lawful) (hcfg : env.ConfigOk) (hsp : Space env held e)
    (h : Durable env e V m) : Yields env m e.devices :=
  yields_of_carries henv h.carries h.sized.devSize rfl
    (h.sound.shown hcfg hsp fun _ _ _ _ => rfl)

/-- A place for a data write: behind the journal, and apart from the bytes in use. -/
structure Spot (env : Env) (e : Engine) (t : Tier) (off len : ℕ) : Prop where
  /-- It is behind the journal. -/
  area : (t = .fast ∧ env.journalSize ≤ off) ∨ t = .slow
  /-- It is apart from the bytes in use. -/
  apart : ∀ loc ∈ owned [] e, loc.tier = t → ∀ i, e.InUse loc i → i < off ∨ off + len ≤ i

/-- A write in its place leaves the bytes in use alone. -/
theorem Spot.byteAt (hcfg : env.ConfigOk) (hsp : Space env held e) {t : Tier} {off : ℕ}
    {bs : List UInt8} {len : ℕ} (hs : Spot env e t off len) (hlen : bs.length ≤ len)
    {loc : DiskLocation} (hloc : loc ∈ owned [] e) {i : ℕ} (hi : e.InUse loc i) :
    (e.devices.apply (.data t off bs)).byteAt loc.tier i = e.byteAt loc.tier i := by
  have hjs := hcfg.journal
  have hok := hsp.ok loc (mem_owned hloc held)
  refine apply_data_byteAt ?_ ?_ ?_ ?_ ?_
  · have := hs.area
    tauto
  · have := hok.area
    tauto
  · rintro rfl
    have := hs.area
    simp only [true_and, reduceCtorEq, or_false] at this
    omega
  · intro hf
    have := superblock_le hok hi.1 hf
    omega
  · rintro ⟨ht, h1, h2⟩
    have := hs.apart loc hloc ht i hi
    omega

/-- A write in its place leaves the journal alone. -/
theorem Spot.carries (hcfg : env.ConfigOk) (hj : JournalReady env e.journal) {t : Tier} {off : ℕ}
    {bs : List UInt8} {len : ℕ} (hs : Spot env e t off len) (hc : Carries e.journal V) :
    Carries { e.journal with dev := (e.devices.apply (.data t off bs)).fast } V := by
  rcases hs.area with ⟨rfl, hoff⟩ | rfl
  · simp only [Devices.apply, if_true]
    refine hc.congr (hj.dataSize_pos hcfg) fun i hi => ?_
    have := hj.dataSize
    simp only [devices, Ring.splice]
    rw [if_neg (by omega)]
  · exact hc

/-- A crash within a data write in its place yields the content. -/
theorem Durable.yields_torn (henv : env.Lawful) (hcfg : env.ConfigOk) (hsp : Space env held e)
    (hready : JournalReady env e.journal) (h : Durable env e V m) {t : Tier} {off : ℕ}
    {bs : List UInt8} {len : ℕ} (hs : Spot env e t off len) (hlen : bs.length ≤ len) :
    Yields env m (e.devices.apply (.data t off bs)) := by
  refine yields_of_carries henv (hs.carries hcfg hready h.carries) h.sized.devSize rfl ?_
  exact h.sound.shown hcfg hsp fun loc hloc i hi => hs.byteAt hcfg hsp hlen hloc hi

/-! ## Steps that the journal does not see -/

/-- The memory changes. -/
theorem Durable.memory (henv : env.Lawful) (hcfg : env.ConfigOk) (hsp : Space env held e)
    (h : Durable env e V m) (hsp' : Spares env e e' V) (hj : e'.journal = e.journal)
    (hslow : e'.slow = e.slow) (hlog : e'.log = e.log)
    (hfree : ∀ t i, e'.free t i = true → e.free t i = true ∨ i < Engine.devSize env t) :
    Durable env e' V m ∧ Trail (Yields env m) e e' := by
  have hdev : e'.devices = e.devices := by simp only [devices, hj, hslow]
  refine ⟨⟨h.sound.keep hcfg hsp hsp' fun loc _ i _ => by simp only [byteAt, hj, hslow],
    by rw [hj]; exact h.carries, ?_⟩, trail_refl (h.yields henv hcfg hsp) hlog hdev⟩
  refine ⟨by rw [hj]; exact h.sized.capacity, by rw [hj]; exact h.sized.devSize,
    h.sized.journal_le, fun t i ht hi => ?_,
    fun loc hloc => (hsp'.places loc hloc).elim (h.sized.owned_on loc) id⟩
  exact (hfree t i hi).elim (h.sized.free_lt t i ht) id

/-- The memory changes, and a data write goes to its place. -/
theorem Durable.write (henv : env.Lawful) (hcfg : env.ConfigOk) (hsp : Space env held e)
    (hready : JournalReady env e.journal) (h : Durable env e V m) {t : Tier} {off : ℕ}
    {bs : List UInt8} (hs : Spot env e t off bs.length)
    (hmem : e1 = { e with
      entries := e1.entries
      nextExtentId := e1.nextExtentId
      freeLists := e1.freeLists
      allocCalls := e1.allocCalls
      free := e1.free })
    (hfree : ∀ t i, e1.free t i = true → e.free t i = true)
    (hw : e1.devWrite env t off bs = some e') (hsp' : Spares env e e' V) :
    Durable env e' V m ∧ Trail (Yields env m) e e' := by
  obtain ⟨hlog, hdev⟩ := devWrite_devices hw
  have hdev1 : e1.devices = e.devices := by rw [hmem]; rfl
  have hlog1 : e1.log = e.log := by rw [hmem]
  have hj1 : e1.journal = e.journal := by rw [hmem]
  rw [hdev1] at hdev
  obtain ⟨hf, -, -⟩ := devWrite_frame hw
  have hbytes : ∀ t' i, e'.byteAt t' i = (e.devices.apply (.data t off bs)).byteAt t' i := by
    intro t' i
    rw [← hdev]
    rfl
  have hjournal : e'.journal = { e.journal with dev := (e.devices.apply (.data t off bs)).fast } := by
    rw [← hdev, devWrite_journal hw, hj1]
    rfl
  refine ⟨⟨?_, ?_, ?_⟩, [.data t off bs], by rw [hlog, hlog1], by rw [hdev]; rfl, ?_⟩
  · refine h.sound.keep hcfg hsp hsp' fun loc hloc i hi => ?_
    rw [hbytes, hs.byteAt hcfg hsp (le_refl _) hloc hi]
  · rw [hjournal]
    exact hs.carries hcfg hready h.carries
  · refine ⟨?_, by rw [hjournal]; exact h.sized.devSize, h.sized.journal_le, fun t' i ht' hi => ?_,
      fun loc hloc => (hsp'.places loc hloc).elim (h.sized.owned_on loc) id⟩
    · have hcap : (e.devices.apply (.data t off bs)).fast.capacity = e.journal.dev.capacity := by
        by_cases ht : t = .fast <;> simp [Devices.apply, devices, ht]
      have hcap' : e'.journal.dev.capacity = e.journal.dev.capacity := by rw [hjournal]; exact hcap
      rw [hcap']
      exact h.sized.capacity
    · rw [show e'.free = e1.free by rw [hf]] at hi
      exact h.sized.free_lt t' i ht' (hfree t' i hi)
  · refine Crash.safe_single (h.yields henv hcfg hsp) ?_
      (h.yields_torn henv hcfg hsp hready hs (le_refl _))
    rintro w' ⟨t, off, bs, n⟩
    exact h.yields_torn henv hcfg hsp hready hs (by simp)

/-! ## Steps of the journal -/

/-- A journal operation that was committed is one. -/
theorem Committed.journalStep {bl : List UInt8} (hpos : 0 < bl.length)
    (hj : JournalReady env e.journal) (hc : Committed env e e1 bl V V') : JournalStep e e1 := by
  have hle := writeStart_add_le hc.le
  have hlen := Journal.length_pad hpos
  refine ⟨by rw [hc.frame], hc.wrote.dataSize, fun i hi => ?_, funext fun id => ?_⟩
  · rw [hc.wrote.data]
    obtain ⟨n, hn⟩ : ∃ n, n = Journal.padded bl.length := ⟨_, rfl⟩
    rw [← hn] at hle hlen ⊢
    unfold Ring.splice
    rw [if_neg (by omega)]
  · rw [hc.ready.idle, hj.idle]

/-- A journal operation leaves the bytes behind the journal alone. -/
theorem JournalStep.byteAt (hsp : Space env held e) (hj : JournalReady env e.journal)
    (hs : JournalStep e e1) {loc : DiskLocation} (hloc : loc ∈ owned [] e) {i : ℕ}
    (hi : e.InUse loc i) : e1.byteAt loc.tier i = e.byteAt loc.tier i := by
  have hok := hsp.ok loc (mem_owned hloc held)
  unfold Engine.byteAt
  split_ifs with ht
  · have := superblock_le hok hi.1 ht
    have := hj.dataSize
    exact hs.keeps.data _ (by omega)
  · rw [hs.frame]

/-- A journal operation does not change what is sound. -/
theorem Sound.journalStep (hcfg : env.ConfigOk) (hsp : Space env held e)
    (hj : JournalReady env e.journal) (h : Sound e V m) (hs : JournalStep e e1) : Sound e1 V m := by
  have hf := hs.frame
  refine h.keep hcfg hsp ?_ fun loc hloc i hi => hs.byteAt hsp hj hloc hi
  refine ⟨by rw [hf], fun k kl loc _ _ hloc => ?_, fun loc hloc => ?_, fun id x hx => ?_, ?_⟩
  · rw [hf]
    exact hloc
  · rw [hf] at hloc
    exact .inl hloc
  · rw [hf] at hx
    exact .inl ⟨id, x, hx, rfl, le_refl _⟩
  · rw [hf]
    exact h.tracks

/-- The devices after a journal operation. -/
theorem Committed.devices {bl : List UInt8} (hc : Committed env e e1 bl V V') :
    e1.devices = (e.devices.apply (.data .fast
      (kSuperblockSize + e.journal.writeStart (Journal.padded bl.length)) (Journal.pad bl))).apply
        (.superblock e1.journal.superblock) := by
  have hslow : e1.slow = e.slow := by rw [hc.frame]
  have hdev : e1.journal.dev = { e.journal.dev with
      superblock := e1.journal.superblock
      data := Ring.splice e.journal.dev.data (e.journal.writeStart (Journal.padded bl.length))
        (Journal.pad bl) } := by
    rw [← hc.wrote.data, ← hc.wrote.super]
    simp only [← hc.wrote.capacity]
  simp only [Engine.devices, Devices.apply, if_true, Nat.add_sub_cancel_left, hslow]
  rw [hdev]

/-- A journal operation, and what the call then does in memory: a crash yields the old content or
the new one. -/
theorem Durable.commit (henv : env.Lawful) (hcfg : env.ConfigOk) (hsp : Space env held e)
    (hj : JournalReady env e.journal) (h : Durable env e V m) {bl : List UInt8}
    (hpos : 0 < bl.length) (hc : Committed env e e1 bl V V') (hsp2 : Space env held e2)
    (hs2 : Sound e2 V' m') (hj2 : e2.journal = e1.journal) (hslow2 : e2.slow = e1.slow)
    (hlog2 : e2.log = e1.log) (hfree2 : e2.free = e1.free)
    (hown2 : owned [] e2 = owned [] e1) :
    Durable env e2 V' m' ∧ Trail (fun d => Yields env m d ∨ Yields env m' d) e e2 := by
  have hstep := hc.journalStep hpos hj
  have hdev2 : e2.devices = e1.devices := by simp only [Engine.devices, hj2, hslow2]
  have hd2 : Durable env e2 V' m' := by
    refine ⟨hs2, by rw [hj2]; exact hc.carries, ?_, ?_, h.sized.journal_le, fun t i ht hi => ?_,
      fun loc hloc => ?_⟩
    · rw [hj2, hc.wrote.capacity]
      exact h.sized.capacity
    · rw [hj2, hc.wrote.devSize]
      exact h.sized.devSize
    · rw [hfree2, hc.frame] at hi
      exact h.sized.free_lt t i ht hi
    · rw [hown2, hc.frame] at hloc
      exact h.sized.owned_on loc hloc
  refine ⟨hd2, _, by rw [hlog2, hc.frame], by rw [hdev2, hc.devices]; rfl, ?_⟩
  obtain ⟨off, hoff⟩ : ∃ o, o = kSuperblockSize +
    e.journal.writeStart (Journal.padded bl.length) := ⟨_, rfl⟩
  have hle := writeStart_add_le hc.le
  have hlen := Journal.length_pad hpos
  have hds := hj.dataSize
  -- Until the superblock is written, the old records are found, and they are about bytes elsewhere.
  have htorn : ∀ bs : List UInt8, bs.length ≤ (Journal.pad bl).length →
      Yields env m (e.devices.apply (.data .fast off bs)) := by
    intro bs hbs
    have hfast : (e.devices.apply (.data .fast off bs)).fast = { e.journal.dev with
        data := Ring.splice e.journal.dev.data (e.journal.writeStart (Journal.padded bl.length))
          bs } := by
      rw [hoff]
      simp only [Engine.devices, Devices.apply, if_true, Nat.add_sub_cancel_left]
    refine yields_of_carries henv (hc.before bs (by rw [← hlen]; exact hbs)) h.sized.devSize
      hfast.symm ?_
    refine h.sound.shown hcfg hsp fun loc hloc i hi => ?_
    have hok := hsp.ok loc (mem_owned hloc held)
    have hjs := hcfg.journal
    refine apply_data_byteAt (.inl rfl) ?_ (fun _ => by omega) (fun hf => ?_) ?_
    · have := hok.area
      tauto
    · have := superblock_le hok hi.1 hf
      omega
    · rintro ⟨ht, h1, h2⟩
      have := superblock_le hok hi.1 ht
      omega
  rw [← hoff]
  rw [← List.singleton_append]
  refine Crash.Safe.append (Crash.safe_single ?_ ?_ ?_) (Crash.safe_single ?_ ?_ ?_)
  · exact .inl (h.yields henv hcfg hsp)
  · rintro w' ⟨t, off, bs, n⟩
    exact .inl (htorn _ (by simp))
  · exact .inl (htorn _ (le_refl _))
  · exact .inl (htorn _ (le_refl _))
  · rintro w' ⟨⟩
  · have hdev := hc.devices
    rw [← hoff] at hdev
    simp only [List.foldl_cons, List.foldl_nil, ← hdev, ← hdev2]
    exact .inr (hd2.yields henv hcfg hsp2)

end

end Engine

end CxxLab.Btier
