import CxxLab.Btier.EngineContent

/-!
# The calls of the engine

What `put`, `del`, `migrate_tier`, `compact` and `process_deferred_free` do to the content, each
under the conditions under which it does what it is for, and from these what a whole run does.
-/

namespace CxxLab.Btier

open Engine

namespace Engine

section

variable {env : Env} {held : List DiskLocation} {res : UInt64 → ℕ} {e e' e1 e2 : Engine}
  {m : Key → Option Value}

/-! ## What a call keeps -/

/-- `e'` comes after `e` in a call that has not touched the key map, and lost no slot. -/
structure Kept (e e' : Engine) : Prop where
  /-- The key map. -/
  keyMap : e'.keyMap = e.keyMap
  /-- The reverse index. -/
  reverseIndex : e'.reverseIndex = e.reverseIndex
  /-- The size of the journal. -/
  dataSize : e'.journal.dataSize = e.journal.dataSize
  /-- The slots. -/
  slots : ∀ kl v, e.Holds kl v → e'.Holds kl v

/-- What two steps keep. -/
theorem Kept.trans (h1 : Kept e e1) (h2 : Kept e1 e2) : Kept e e2 where
  keyMap := h2.keyMap.trans h1.keyMap
  reverseIndex := h2.reverseIndex.trans h1.reverseIndex
  dataSize := h2.dataSize.trans h1.dataSize
  slots kl v h := h2.slots kl v (h1.slots kl v h)

/-- A journal operation is part of a call. -/
theorem Content.kept_journalStep (h : Content env held res e m) (hs : JournalStep e e') :
    Kept e e' where
  keyMap := by rw [hs.frame]
  reverseIndex := by rw [hs.frame]
  dataSize := hs.keeps.dataSize
  slots _ _ hh := hh.journalStep h.space h.journal hs

/-- The space does not depend on the devices, the journal or the key map. -/
theorem Space.congr (h : Space env held e) (he : e'.entries = e.entries)
    (hn : e'.nextExtentId = e.nextExtentId) (hf : e'.free = e.free)
    (hd : e'.deferredFree = e.deferredFree) : Space env held e' := by
  refine h.of_perm ?_ ?_ hf ?_
  · rw [he, hn]; exact h.fresh
  · rw [he]; exact h.used
  · unfold owned extentLocations
    rw [he, hd]

/-- The length of a checkpoint depends on which extents there are and on their keys. -/
theorem stateLength_congr (hk : e'.entries.keys.Perm e.entries.keys)
    (hr : e'.reverseIndex = e.reverseIndex) : e'.stateLength = e.stateLength := by
  unfold stateLength
  rw [hr]
  exact (hk.map _).sum_eq

/-- A new extent without keys is one more record. -/
theorem stateLength_insert {id : UInt64} {x : ExtentEntry} (hnone : e.entries.lookup id = none)
    (hent : e'.entries = e.entries.insert id x) (hempty : e'.reverseIndex id = [])
    (hr : e'.reverseIndex = e.reverseIndex) : e'.stateLength = e.stateLength + 30 := by
  unfold stateLength
  rw [hent, AList.keys_insert, List.erase_of_not_mem (AList.lookup_eq_none.mp hnone),
    List.map_cons, List.sum_cons, hempty, hr]
  simp [Nat.add_comm]

/-- Setting an entry that is there changes no key. -/
theorem keys_insert_perm {s : AList fun _ : UInt64 => ExtentEntry} {id : UInt64}
    {x x' : ExtentEntry} (h : s.lookup id = some x) : (s.insert id x').keys.Perm s.keys := by
  rw [AList.keys_insert]
  exact (List.perm_cons_erase (AList.mem_keys.mp (AList.lookup_isSome.mp (by rw [h]; rfl)))).symm

/-- A device write changes the space in no way. -/
theorem Space.devWrite (h : Space env held e) {t : Tier} {off : ℕ} {bs : List UInt8}
    (hw : e.devWrite env t off bs = some e') : Space env held e' := by
  obtain ⟨hf, -, -⟩ := devWrite_frame hw
  exact h.congr (by rw [hf]) (by rw [hf]) (by rw [hf]) (by rw [hf])

/-- A slot lies in its extent, behind the header. -/
theorem Space.slot_covers (h : Space env held e) {id : UInt64} {x : ExtentEntry}
    (hx : e.entries.lookup id = some x) {off : UInt32} {n i : ℕ}
    (hn : off.toNat + n ≤ x.usedBytes.toNat) (h1 : slotStart x.location off ≤ i)
    (h2 : i < slotStart x.location off + n) : x.location.Covers x.location.tier i := by
  obtain ⟨hfit, -⟩ := h.used id x hx
  unfold slotStart at h1 h2
  exact ⟨rfl, by omega, by omega⟩

/-- A value is written into a slot that was reserved for it. -/
theorem Content.writeSlot (hcfg : env.ConfigOk) (h : Content env held res e m) {id : UInt64}
    {size off : UInt32} {x : ExtentEntry} {bs : List UInt8} (hpos : 0 < size.toNat)
    (hsize : size.toNat ≤ 2 ^ 31) (hx : e.entries.lookup id = some x)
    (happ : e.appendSlot id size = (off, e1)) (hoff : off ≠ noSlot) (hbs : bs.length = size.toNat)
    (hw : e1.devWrite env x.location.tier (slotStart x.location off) bs = some e2) :
    Content env held (fun i => if i = id then res id + size.toNat else res i) e2 m ∧
      Kept e e2 ∧ e2.Holds ⟨id, off, size⟩ bs ∧ e2.entries.keys.Perm e.entries.keys ∧
      e2.reverseIndex = e.reverseIndex ∧ e2.nextExtentId = e.nextExtentId := by
  -- The bytes have been reserved, so `used_bytes` covers them.
  obtain ⟨h1, hslots1, y, x', hy, hloc, hoffy, hused, hf1⟩ :=
    ((h.appendSlot hcfg hsize happ).resolve_left fun hno => hoff hno.1).2
  obtain rfl : x = y := Option.some.inj (hx.symm.trans hy)
  obtain ⟨hf2, hd2, ha2⟩ := devWrite_frame hw
  have hx' : e1.entries.lookup id = some x' := by rw [hf1, AList.lookup_insert]
  have hent2 : e2.entries = e1.entries := by rw [hf2]
  have hcover : ∀ i, slotStart x.location off ≤ i → i < slotStart x.location off + bs.length →
      x.location.Covers x.location.tier i := by
    intro i hi1 hi2
    rw [hbs] at hi2
    have hlen : off.toNat + size.toNat ≤ x'.usedBytes.toNat := by rw [hused, hoffy]
    rw [← hloc] at hi1 hi2 ⊢
    exact h1.space.slot_covers hx' hlen hi1 hi2
  -- They are behind the journal on the fast tier.
  have harea : (x.location.tier = .fast ∧ env.journalSize ≤ slotStart x.location off) ∨
      x.location.tier = .slow := by
    rcases (h.space.ok _ (location_mem_owned hx held)).area with ⟨ht, hj⟩ | ht
    · refine .inl ⟨ht, ?_⟩
      unfold slotStart
      omega
    · exact .inr ht
  -- The slots of other extents are elsewhere, those of this one end before the new slot.
  have hslots : ∀ kl v, e.Holds kl v → e2.Holds kl v := by
    intro kl v hh
    refine (hslots1 kl v hh).devWrite hcfg h1.space hw harea ?_
    obtain ⟨z, hz, hzlen, -, -⟩ := hh
    intro z1 hz1 htier i hi1 hi2
    by_contra hin
    have hc := hcover i (by omega) (by omega)
    by_cases hid : kl.extentId = id
    · rw [hid] at hz hz1
      obtain rfl : x = z := Option.some.inj (hx.symm.trans hz)
      obtain rfl : x' = z1 := Option.some.inj (hx'.symm.trans hz1)
      rw [hloc] at hi1 hi2
      rw [← hoffy] at hzlen
      unfold slotStart at *
      omega
    · have hz1' : e.entries.lookup kl.extentId = some z1 := by
        rw [hf1, AList.lookup_insert_ne hid] at hz1
        exact hz1
      obtain rfl : z = z1 := Option.some.inj (hz.symm.trans hz1')
      refine h.space.apart_extents hx hz (Ne.symm hid) _ _ hc ?_
      rw [← htier]
      exact h.space.slot_covers hz hzlen hi1 hi2
  -- The device keeps all else that is known of the content.
  refine ⟨h.keep (h1.space.devWrite hw) ?_ (by rw [hf2, hf1]) (by rw [hf2, hf1]) ?_
      fun k kl v _ => hslots kl v, ⟨by rw [hf2, hf1], by rw [hf2, hf1], ?_, hslots⟩, ?_, ?_, ?_, ?_⟩
  · exact ⟨hd2 ▸ h1.journal.dataSize, ha2 ▸ h1.journal.idle⟩
  · intro id' z hz
    rw [hent2] at hz
    have hl := h1.live id' z hz
    have hkb : e1.keyBytes id' = e.keyBytes id' := by rw [hf1]; rfl
    rwa [hkb] at hl
  · rw [hd2, hf1]
  · refine ⟨x', by rw [hent2]; exact hx', ?_, hpos, ?_⟩
    · simp only [hused, hoffy]
      exact le_refl _
    -- And the slot reads as what was written.
    · show e2.devRead x'.location.tier (slotStart x'.location off) size.toNat = bs
      rw [hloc, ← hbs]
      refine devRead_devWrite hw ?_ (by tauto)
      intro ht
      rcases harea with ⟨-, hj⟩ | hs
      · have := hcfg.journal
        omega
      · rw [ht] at hs
        cases hs
  · rw [hent2, hf1]
    exact keys_insert_perm hx
  · rw [hf2, hf1]
  · rw [hf2, hf1]

/-! ## New extents -/

/-- The length of a header. -/
theorem length_headerBytes (id : UInt64) (length : UInt32) :
    (headerBytes id length).length = headerSize.toNat := by
  have hfields : (headerFields id length 0 0 0).length = 40 := by simp [headerFields]
  simp only [headerBytes, List.length_append, hfields, Codec.length_putU32, List.length_replicate]
  rfl

/-- Writing the header of an extent keeps every slot: they are behind the headers. -/
theorem Content.writeExtentHeader (hcfg : env.ConfigOk) (h : Content env held res e m)
    {id : UInt64} {x : ExtentEntry} (hx : e.entries.lookup id = some x) :
    Content env held res (e.writeExtentHeader env id x.location) m ∧
      Kept e (e.writeExtentHeader env id x.location) ∧
      (e.writeExtentHeader env id x.location).entries = e.entries ∧
      (e.writeExtentHeader env id x.location).nextExtentId = e.nextExtentId := by
  unfold Engine.writeExtentHeader
  cases hw : e.devWrite env x.location.tier x.location.offset.toNat
      (headerBytes id x.location.length) with
  | none => exact ⟨h, ⟨rfl, rfl, rfl, fun _ _ hh => hh⟩, rfl, rfl⟩
  | some e' =>
    simp only [Option.getD_some]
    obtain ⟨hf, hd, ha⟩ := devWrite_frame hw
    have hok := h.space.ok _ (location_mem_owned hx held)
    have hhead := hok.header_le hcfg
    have harea : (x.location.tier = .fast ∧ env.journalSize ≤ x.location.offset.toNat) ∨
      x.location.tier = .slow := hok.area
    have hslots : ∀ kl v, e.Holds kl v → e'.Holds kl v := by
      intro kl v hh
      refine hh.devWrite hcfg h.space hw harea ?_
      intro y hy htier i hi1 hi2
      rw [length_headerBytes]
      by_contra hin
      by_cases hid : kl.extentId = id
      · rw [hid] at hy
        obtain rfl : x = y := Option.some.inj (hx.symm.trans hy)
        unfold slotStart at hi1
        omega
      · obtain ⟨z, hz, hzlen, -, -⟩ := hh
        obtain rfl : y = z := Option.some.inj (hy.symm.trans hz)
        refine h.space.apart_extents hx hy (Ne.symm hid) x.location.tier i
          ⟨rfl, by omega, by omega⟩ ?_
        rw [← htier]
        exact h.space.slot_covers hy hzlen hi1 hi2
    refine ⟨h.keep (h.space.devWrite hw) ⟨hd ▸ h.journal.dataSize, ha ▸ h.journal.idle⟩
      (by rw [hf]) (by rw [hf]) ?_ fun k kl v _ => hslots kl v,
      ⟨by rw [hf], by rw [hf], hd, hslots⟩, by rw [hf], by rw [hf]⟩
    rw [hf]
    exact h.live

/-- What an allocation does to the content: the call holds what it got. -/
theorem Content.took {want : ℕ} {loc : Option DiskLocation} (h : Content env held res e m)
    (ht : Took env e e' want loc) (hwant : want ≤ 2 ^ 31)
    (htier : ∀ l ∈ loc, l.tier = .fast ∨ l.tier = .slow) :
    Content env (loc.toList ++ held) res e' m ∧ Kept e e' := by
  have hf := ht.frame
  have hslots : ∀ kl v, e.Holds kl v → e'.Holds kl v := by
    intro kl v hh
    rw [hf]
    exact hh
  refine ⟨h.keep (h.space.took ht hwant htier) (by rw [hf]; exact h.journal) (by rw [hf])
    (by rw [hf]) (by rw [hf]; exact h.live) fun k kl v _ => hslots kl v,
    by rw [hf], by rw [hf], by rw [hf], hslots⟩

/-- The name of the next extent is not in use. -/
theorem Space.lookup_next (h : Space env held e) : e.entries.lookup e.nextExtentId = none := by
  rw [Option.eq_none_iff_forall_ne_some]
  intro x hx
  exact absurd (h.fresh _ _ hx) (lt_irrefl _)

/-- A location that the call holds becomes an extent without keys. -/
theorem Content.newEntry {loc : DiskLocation} (hcfg : env.ConfigOk)
    (h : Content env (loc :: held) res e m) (hnext : e.nextExtentId.toNat + 1 < 2 ^ 64)
    (hres : res e.nextExtentId = 0)
    (hf : e' = { e with
      nextExtentId := e.nextExtentId + 1
      entries := e.entries.insert e.nextExtentId { location := loc }
      freeLists := e'.freeLists }) :
    Content env held res e' m ∧ Kept e e' := by
  have hent : e'.entries = e.entries.insert e.nextExtentId { location := loc } := by rw [hf]
  have hslots : ∀ kl v, e.Holds kl v → e'.Holds kl v := by
    intro kl v hh
    refine hh.congr fun y hy => ⟨y, ?_, rfl, le_refl _, fun i _ _ => by rw [hf]; rfl⟩
    rw [hent, AList.lookup_insert_ne, hy]
    rintro hid
    rw [hid, h.space.lookup_next] at hy
    cases hy
  refine ⟨h.keep (h.space.newEntry hcfg hnext hent (by rw [hf]) (by rw [hf]) (by rw [hf]))
    (by rw [hf]; exact h.journal) (by rw [hf]) (by rw [hf]) ?_ fun k kl v _ => hslots kl v,
    by rw [hf], by rw [hf], by rw [hf], hslots⟩
  intro id y hy
  rw [hent] at hy
  rcases lookup_insert_cases hy with ⟨rfl, rfl⟩ | ⟨-, hy⟩
  · unfold keyBytes
    rw [h.no_keys h.space.lookup_next, hres]
    simp
  · exact h.live id y hy

/-- What `allocate_extent` does: nothing to the content, and when it succeeds there is a new
extent without keys. -/
theorem Content.allocateExtent (henv : env.Lawful) (hcfg : env.ConfigOk)
    (h : Content env held res e m) {t : Tier} {size : ℕ} (ht : t = .fast ∨ t = .slow)
    (hwant : alignedSize env size ≤ 2 ^ 31) (hnext : e.nextExtentId.toNat + 1 < 2 ^ 64)
    (hres : res e.nextExtentId = 0) {r : Option (UInt64 × DiskLocation)}
    (hr : e.allocateExtent env t size = (r, e')) :
    Content env held res e' m ∧ Kept e e' ∧
      (r = none ∧ e'.nextExtentId = e.nextExtentId ∧ (e.allocateRaw env t size).1 = none ∨
        ∃ loc, r = some (e.nextExtentId, loc) ∧
          (e.allocateRaw env t size).1 = some loc ∧
          e'.nextExtentId.toNat = e.nextExtentId.toNat + 1 ∧
          e'.entries = e.entries.insert e.nextExtentId { location := loc }) := by
  obtain ⟨htook, htiers⟩ := took_allocateRaw henv e t size
  unfold Engine.allocateExtent at hr
  -- No space, or an extent with an empty entry.
  cases hraw : e.allocateRaw env t size with
  | mk l e1 =>
    rw [hraw] at hr htook htiers
    replace htook : Took env e e1 (alignedSize env size) l := htook
    have htier : ∀ l' ∈ l, l'.tier = .fast ∨ l'.tier = .slow := by
      intro l' hl'
      have := htiers l' hl'
      rcases ht with rfl | rfl <;> tauto
    obtain ⟨h1, hk1⟩ := h.took htook hwant htier
    have hn1 : e1.nextExtentId = e.nextExtentId := by rw [htook.frame]
    have he1 : e1.entries = e.entries := by rw [htook.frame]
    cases l with
    | none =>
      obtain ⟨rfl, rfl⟩ := Prod.mk.inj hr
      exact ⟨h1, hk1, .inl ⟨rfl, hn1, rfl⟩⟩
    | some loc =>
      obtain ⟨e2, he2⟩ : ∃ e2, e2 = { e1 with
        nextExtentId := e1.nextExtentId + 1
        entries := e1.entries.insert e1.nextExtentId { location := loc }
        freeLists := Function.update e1.freeLists loc.tier
          (freeInsert (loc.length - headerSize, e1.nextExtentId) (e1.freeLists loc.tier)) } :=
        ⟨_, rfl⟩
      simp only [← he2] at hr
      obtain ⟨rfl, rfl⟩ := Prod.mk.inj hr
      have h1' : Content env (loc :: held) res e1 m := h1
      have hf2 : e2 = { e1 with
          nextExtentId := e1.nextExtentId + 1
          entries := e1.entries.insert e1.nextExtentId { location := loc }
          freeLists := e2.freeLists } := by rw [he2]
      obtain ⟨h2, hk2⟩ := h1'.newEntry hcfg (by rw [hn1]; exact hnext) (by rw [hn1]; exact hres) hf2
      have hx2 : e2.entries.lookup e1.nextExtentId = some { location := loc } := by
        rw [he2, AList.lookup_insert]
      obtain ⟨h3, hk3, hent3, hnext3⟩ := h2.writeExtentHeader hcfg hx2
      refine ⟨h3, (hk1.trans hk2).trans hk3, .inr ⟨loc, by rw [hn1], rfl, ?_, ?_⟩⟩
      · rw [hnext3, he2, hn1]
        simp only [UInt64.toNat_add]
        exact Nat.mod_eq_of_lt hnext
      · rw [hent3, he2, he1, hn1]

/-- The rounding adds at most a block. -/
theorem alignedSize_le (env : Env) (size : ℕ) : alignedSize env size ≤ size + env.blockSize := by
  unfold alignedSize
  extract_lets aligned
  have : aligned ≤ size + env.blockSize := by
    simp only [aligned]
    split_ifs <;> omega
  split_ifs <;> omega

/-! ## Put -/

/-- The transaction of a new extent fits in any journal. -/
theorem extentNew_fits (hcfg : env.ConfigOk) (hj : JournalReady env e.journal) (id : UInt64)
    (loc : DiskLocation) : Journal.padded (22 + (serializeRecords
      [{ op := .extentNew, extentId := id, extentLoc := loc }]).length) ≤ e.journal.dataSize := by
  have hlen : (serializeRecords
      [{ op := .extentNew, extentId := id, extentLoc := loc }]).length = 30 := by
    simp [serializeRecords, length_serializeRecord, serializeFields, putDiskLocation]
  have h1 := hcfg.journal
  have h2 := hj.dataSize
  rw [hlen]
  have : Journal.padded (22 + 30) = kTxnAlignment := rfl
  omega

/-- What `put_allocate_new_extent` does. -/
theorem putAllocateNewExtent_spec (henv : env.Lawful) (hcfg : env.ConfigOk) (h : Stores env e m)
    {size : ℕ} {st : Status} {id : UInt64} {loc : DiskLocation}
    (hwant : size + env.blockSize ≤ 2 ^ 31) (hnext : e.nextExtentId.toNat + 1 < 2 ^ 64)
    (hr : e.putAllocateNewExtent env .fast size = (st, id, loc, e')) :
    Stores env e' m ∧ Kept e e' ∧ e'.nextExtentId.toNat ≤ e.nextExtentId.toNat + 1 ∧
      (st = .ok → e.entries.lookup id = none ∧
        e'.entries = e.entries.insert id { location := loc }) := by
  unfold putAllocateNewExtent at hr
  -- No extent can be had, or there is a new one with an empty entry.
  cases hal : e.allocateExtent env .fast size with
  | mk r e1 =>
    obtain ⟨h1, hk1, hcase⟩ := h.allocateExtent henv hcfg (.inl rfl)
      ((alignedSize_le env size).trans hwant) hnext rfl hal
    rw [hal] at hr
    rcases hcase with ⟨rfl, hn1, -⟩ | ⟨loc', rfl, -, hn1, hent1⟩
    · simp only [Prod.mk.injEq] at hr
      obtain ⟨rfl, -, -, rfl⟩ := hr
      exact ⟨h1, hk1, by rw [hn1]; omega, by simp⟩
    · have hnone := h.space.lookup_next
      have hempty : e1.reverseIndex e.nextExtentId = [] := by
        rw [hk1.reverseIndex]
        exact h.no_keys hnone
      have hstep := journalTxn_step h1.journal
        (extentNew_fits hcfg h1.journal e.nextExtentId loc')
      have h2 := h1.journalStep hstep
      have hk2 := h1.kept_journalStep hstep
      simp only [putPreTransactionExtent] at hr
      cases htxn : e1.journalTxn [{ op := .extentNew, extentId := e.nextExtentId, extentLoc := loc' }]
        with
      | mk st2 e2 =>
        rw [htxn] at hr hstep h2 hk2
        replace hstep : JournalStep e1 e2 := hstep
        have hn2 : e2.nextExtentId = e1.nextExtentId := by rw [hstep.frame]
        have hent2 : e2.entries = e1.entries := by rw [hstep.frame]
        have hok : Stores env e2 m ∧ Kept e e2 ∧
            e2.nextExtentId.toNat ≤ e.nextExtentId.toNat + 1 ∧
            (Status.ok = .ok → e.entries.lookup e.nextExtentId = none ∧
              e2.entries = e.entries.insert e.nextExtentId { location := loc' }) :=
          ⟨h2, hk1.trans hk2, by rw [hn2]; omega, fun _ => ⟨hnone, by rw [hent2, hent1]⟩⟩
        -- A transaction that fails takes the extent with it.
        have hfail : Stores env (e2.freeExtent e.nextExtentId) m ∧
            Kept e (e2.freeExtent e.nextExtentId) ∧
            (e2.freeExtent e.nextExtentId).nextExtentId = e2.nextExtentId := by
          obtain ⟨h3, hslots⟩ := h2.freeExtent (by rw [hk2.reverseIndex]; exact hempty)
            fun _ _ => le_refl 0
          have hframe := freeExtent_frame e2 e.nextExtentId
          refine ⟨h3, ⟨?_, ?_, ?_, ?_⟩, by rw [hframe]⟩
          · rw [hframe]; exact hk2.keyMap.trans hk1.keyMap
          · rw [hframe]; exact hk2.reverseIndex.trans hk1.reverseIndex
          · rw [hframe]; exact hk2.dataSize.trans hk1.dataSize
          · intro kl v hh
            refine hslots kl v ?_ (hk2.slots kl v (hk1.slots kl v hh))
            obtain ⟨x, hx, -⟩ := hh
            rintro hid
            rw [hid, hnone] at hx
            cases hx
        cases st2 with
        | ok =>
          simp only [Prod.mk.injEq] at hr
          obtain ⟨rfl, rfl, rfl, rfl⟩ := hr
          exact hok
        | _ =>
          simp only [Prod.mk.injEq] at hr
          obtain ⟨rfl, rfl, rfl, rfl⟩ := hr
          exact ⟨hfail.1, hfail.2.1, by rw [hfail.2.2, hn2]; omega, by simp⟩

/-- `put_write_data` has succeeded: the value is in a slot that no key has yet. -/
structure Reserved (env : Env) (e e' : Engine) (m : Key → Option Value) (value : Value)
    (ctx : PutWriteResult) : Prop where
  /-- The content is as before, with the slot reserved. -/
  content : Content env [] (fun i => if i = ctx.target then value.length else 0) e' m
  /-- Nothing else was lost. -/
  kept : Kept e e'
  /-- The slot holds the value. -/
  holds : e'.Holds ⟨ctx.target, ctx.offset, UInt32.ofNat value.length⟩ value
  /-- A new extent has no keys. -/
  created : ctx.newExtentCreated = true → e'.reverseIndex ctx.target = []
  /-- There is at most one more extent. -/
  length : e'.stateLength ≤ e.stateLength + 30

/-- Before the slot was reserved there may have been a call that kept everything. -/
theorem Reserved.after {value : Value} {ctx : PutWriteResult} (hk : Kept e e1)
    (h : Reserved env e1 e2 m value ctx)
    (hlen : e2.stateLength ≤ e.stateLength + 30) : Reserved env e e2 m value ctx :=
  ⟨h.content, hk.trans h.kept, h.holds, h.created, hlen⟩

/-- The sizes of values that do not overflow. -/
theorem toNat_ofNat_length {value : Value} (h : value.length ≤ 2 ^ 31) :
    (UInt32.ofNat value.length).toNat = value.length := by
  rw [UInt32.toNat_ofNat']
  exact Nat.mod_eq_of_lt (by omega)

/-- What the data write of `put_write_data` does, in a slot that was just reserved. -/
theorem putWriteSlot_spec (hcfg : env.ConfigOk) (h : Stores env e m) {value : Value}
    {ctx ctx' : PutWriteResult} {x : ExtentEntry} {st : Status} (hpos : 0 < value.length)
    (hsize : value.length ≤ 2 ^ 31) (hx : e.entries.lookup ctx.target = some x)
    (hloc : ctx.extentLoc = x.location)
    (happ : e.appendSlot ctx.target (UInt32.ofNat value.length) = (ctx.offset, e1))
    (hoff : ctx.offset ≠ noSlot)
    (hnew : ctx.newExtentCreated = true → e.reverseIndex ctx.target = [])
    (hr : e1.putWriteSlot env value ctx = (st, ctx', e')) :
    ctx' = ctx ∧ (st ≠ .ok → Stores env e' m) ∧
      (st = .ok → Reserved env e e' m value ctx ∧ e'.stateLength = e.stateLength) := by
  have hs := toNat_ofNat_length hsize
  have hsize' : (UInt32.ofNat value.length).toNat ≤ 2 ^ 31 := by rw [hs]; exact hsize
  unfold putWriteSlot at hr
  -- The write succeeds, or the slot is given up.
  cases hw : e1.devWrite env ctx.extentLoc.tier
      (ctx.extentLoc.offset.toNat + headerSize.toNat + ctx.offset.toNat) value with
  | some e2 =>
    simp only [hw, Prod.mk.injEq] at hr
    obtain ⟨rfl, rfl, rfl⟩ := hr
    refine ⟨rfl, by simp, fun _ => ?_⟩
    rw [hloc] at hw
    obtain ⟨h2, hk2, hh2, hkeys, hrev, -⟩ :=
      h.writeSlot hcfg (by rw [hs]; exact hpos) hsize' hx happ hoff hs.symm hw
    have hlen := stateLength_congr hkeys hrev
    refine ⟨⟨?_, hk2, hh2, ?_, by omega⟩, hlen⟩
    · simp only [hs, Nat.zero_add] at h2
      exact h2
    · intro hcreated
      rw [hrev]
      exact hnew hcreated
  | none =>
    simp only [hw, Prod.mk.injEq] at hr
    obtain ⟨rfl, rfl, rfl⟩ := hr
    refine ⟨rfl, fun _ => ?_, by simp⟩
    obtain ⟨h1, -, y, x', -, -, -, -, hf1⟩ :=
      ((h.appendSlot hcfg hsize' happ).resolve_left fun hno => hoff hno.1).2
    split_ifs with hb
    -- A new extent is freed again.
    · refine (h1.freeExtent ?_ ?_).1
      · rw [hf1]
        exact hnew hb
      · intro id' hne
        simp [hne]
    -- In an older extent the slot is marked dead.
    · refine (h1.markDeadSlot ?_ ?_).1
      · rw [if_pos rfl]
        omega
      · intro id'
        exact Nat.zero_le _

/-- What a fresh extent with a slot in it does. -/
theorem putNewExtent_spec (henv : env.Lawful) (hcfg : env.ConfigOk) (h : Stores env e m)
    {value : Value} {size : ℕ} {ctx : PutWriteResult} {st : Status} (hpos : 0 < value.length)
    (hsize : value.length ≤ 2 ^ 31) (hwant : size + env.blockSize ≤ 2 ^ 31)
    (hnext : e.nextExtentId.toNat + 1 < 2 ^ 64)
    (hr : e.putNewExtent env value size = (st, ctx, e')) :
    (st ≠ .ok → Stores env e' m) ∧ (st = .ok → Reserved env e e' m value ctx) := by
  unfold putNewExtent at hr
  cases hal : e.putAllocateNewExtent env .fast size with
  | mk st1 r =>
    obtain ⟨id, loc, e1⟩ := r
    obtain ⟨h1, hk1, -, hok⟩ := putAllocateNewExtent_spec henv hcfg h hwant hnext hal
    rw [hal] at hr
    cases st1 with
    | ok =>
      obtain ⟨hnone, hent⟩ := hok rfl
      have hx1 : e1.entries.lookup id = some { location := loc } := by
        rw [hent, AList.lookup_insert]
      have hempty : e1.reverseIndex id = [] := by
        rw [hk1.reverseIndex]
        exact h.no_keys hnone
      have hlen1 := stateLength_insert hnone hent hempty hk1.reverseIndex
      simp only at hr
      cases happ : e1.appendSlot id (UInt32.ofNat value.length) with
      | mk off e2 =>
        rw [happ] at hr
        simp only at hr
        split_ifs at hr with hno
        · simp only [Prod.mk.injEq] at hr
          obtain ⟨rfl, -, rfl⟩ := hr
          have hs := toNat_ofNat_length hsize
          rcases h1.appendSlot hcfg (by rw [hs]; exact hsize) happ with ⟨-, rfl⟩ | ⟨hne, -⟩
          · exact ⟨fun _ => (h1.freeExtent hempty fun _ _ => le_refl _).1, by simp⟩
          · exact absurd hno hne
        · obtain ⟨rfl, hfail, hgood⟩ := putWriteSlot_spec hcfg h1 hpos hsize hx1 rfl happ hno
            (fun _ => hempty) hr
          refine ⟨hfail, fun hst => ?_⟩
          obtain ⟨hres, hlen⟩ := hgood hst
          exact hres.after hk1 (by omega)
    | _ =>
      simp only [Prod.mk.injEq] at hr
      obtain ⟨rfl, rfl, rfl⟩ := hr
      exact ⟨fun _ => h1, by simp⟩

/-- An extent that was made and goes again leaves the length of a checkpoint as it was. -/
theorem stateLength_freeExtent_insert {id : UInt64} {x : ExtentEntry}
    (hnone : e.entries.lookup id = none) (hent : e1.entries = e.entries.insert id x)
    (hr : e1.reverseIndex = e.reverseIndex) :
    (e1.freeExtent id).stateLength = e.stateLength := by
  refine stateLength_congr ?_ ?_
  · rw [freeExtent_frame e1 id, AList.keys_erase, hent, AList.keys_insert,
      List.erase_of_not_mem (AList.lookup_eq_none.mp hnone), List.erase_cons_head]
  · rw [freeExtent_frame e1 id]
    exact hr

/-- The conditions under which `put` does what it is for. -/
structure PutOk (env : Env) (e : Engine) (k : Key) (value : Value) : Prop where
  /-- The value is not empty: an extent with an empty value only has no live bytes. -/
  pos : 0 < value.length
  /-- The value and what is added to it stay below 2 GiB. -/
  size : value.length + headerSize.toNat + env.blockSize ≤ 2 ^ 31
  /-- There are names for two more extents. -/
  next : e.nextExtentId.toNat + 2 < 2 ^ 64
  /-- The transaction fits in the journal. -/
  txn : Journal.padded (k.length + 72) ≤ e.journal.dataSize
  /-- A checkpoint with one more extent fits in the journal. -/
  state : Journal.padded (e.stateLength + 61) ≤ e.journal.dataSize

instance (env : Env) (e : Engine) (k : Key) (value : Value) : Decidable (PutOk env e k value) :=
  decidable_of_iff (0 < value.length ∧ value.length + headerSize.toNat + env.blockSize ≤ 2 ^ 31 ∧
      e.nextExtentId.toNat + 2 < 2 ^ 64 ∧ Journal.padded (k.length + 72) ≤ e.journal.dataSize ∧
      Journal.padded (e.stateLength + 61) ≤ e.journal.dataSize)
    ⟨fun ⟨h1, h2, h3, h4, h5⟩ => ⟨h1, h2, h3, h4, h5⟩,
      fun h => ⟨h.pos, h.size, h.next, h.txn, h.state⟩⟩

/-- What `put_write_data` does. -/
theorem putWriteData_spec (henv : env.Lawful) (hcfg : env.ConfigOk) (h : Stores env e m)
    {value : Value} {ctx : PutWriteResult} {st : Status} (hpos : 0 < value.length)
    (hsize : value.length + headerSize.toNat + env.blockSize ≤ 2 ^ 31)
    (hnext : e.nextExtentId.toNat + 2 < 2 ^ 64)
    (hr : e.putWriteData env value = (st, ctx, e')) :
    (st ≠ .ok → Stores env e' m) ∧ (st = .ok → Reserved env e e' m value ctx) := by
  have hlen : value.length ≤ 2 ^ 31 := by omega
  have hs := toNat_ofNat_length hlen
  have hs31 : (UInt32.ofNat value.length).toNat ≤ 2 ^ 31 := by rw [hs]; exact hlen
  obtain ⟨found, hfound⟩ : ∃ i, i = e.findExtentWithSpace .fast (UInt32.ofNat value.length) :=
    ⟨_, rfl⟩
  unfold putWriteData at hr
  simp only [← hfound] at hr
  rcases em ((UInt32.ofNat value.length).toNat ≥ env.largeValueThreshold) with hlarge | hsmall
  · -- A large value has an extent of its own.
    rw [if_pos hlarge] at hr
    have hadd : (UInt32.ofNat value.length + headerSize).toNat =
        value.length + headerSize.toNat := by
      rw [UInt32.toNat_add, hs]
      exact Nat.mod_eq_of_lt (by omega)
    exact putNewExtent_spec henv hcfg h hpos hlen (by rw [hadd]; exact hsize) (by omega) hr
  rw [if_neg hsmall] at hr
  rcases em (found = noExtent) with hno | hsome
  · -- No extent has room.
    rw [if_pos hno] at hr
    -- And one is made.
    cases hal : e.putAllocateNewExtent env .fast env.extentSize with
    | mk st1 r =>
      obtain ⟨id, loc, e1⟩ := r
      obtain ⟨h1, hk1, hn1, hok⟩ := putAllocateNewExtent_spec henv hcfg h hcfg.extent (by omega) hal
      rw [hal] at hr
      cases st1 with
      | ok =>
        obtain ⟨hnone, hent⟩ := hok rfl
        have hx1 : e1.entries.lookup id = some { location := loc } := by
          rw [hent, AList.lookup_insert]
        have hempty : e1.reverseIndex id = [] := by
          rw [hk1.reverseIndex]
          exact h.no_keys hnone
        simp only at hr
        cases happ : e1.appendSlot id (UInt32.ofNat value.length) with
        | mk off e2 =>
          rw [happ] at hr
          simp only at hr
          split_ifs at hr with hno
          · -- Nor has the new one, and there is one more try.
            rcases h1.appendSlot hcfg hs31 happ with ⟨-, rfl⟩ | ⟨hne, -⟩
            · obtain ⟨h2, hslots⟩ := h1.freeExtent hempty fun _ _ => le_refl 0
              have hframe := freeExtent_frame e2 id
              have hk2 : Kept e (e2.freeExtent id) := by
                refine ⟨by rw [hframe]; exact hk1.keyMap, by rw [hframe]; exact hk1.reverseIndex,
                  by rw [hframe]; exact hk1.dataSize, fun kl v hh => ?_⟩
                refine hslots kl v ?_ (hk1.slots kl v hh)
                obtain ⟨x, hx, -⟩ := hh
                rintro hid
                rw [hid, hnone] at hx
                cases hx
              obtain ⟨hbad, hgood⟩ := putNewExtent_spec henv hcfg h2 hpos hlen hcfg.extent
                (by rw [hframe]; simp only; omega) hr
              refine ⟨hbad, fun hst => (hgood hst).after hk2 ?_⟩
              rw [← stateLength_freeExtent_insert hnone hent hk1.reverseIndex]
              exact (hgood hst).length
            · exact absurd hno hne
          · obtain ⟨rfl, hbad, hgood⟩ := putWriteSlot_spec hcfg h1 hpos hlen hx1 rfl happ hno
              (fun _ => hempty) hr
            refine ⟨hbad, fun hst => ?_⟩
            obtain ⟨hres, hl⟩ := hgood hst
            refine hres.after hk1 ?_
            rw [hl, stateLength_insert hnone hent hempty hk1.reverseIndex]
      | _ =>
        simp only [Prod.mk.injEq] at hr
        obtain ⟨rfl, rfl, rfl⟩ := hr
        exact ⟨fun _ => h1, by simp⟩
  · -- An extent has room.
    rw [if_neg hsome] at hr
    -- The slot is reserved there, and written.
    cases hx : e.entries.lookup found with
    | none =>
      rw [← hfound, hx, Prod.mk.injEq, Prod.mk.injEq] at hr
      obtain ⟨rfl, rfl, rfl⟩ := hr
      exact ⟨fun _ => h, by simp⟩
    | some x =>
      rw [← hfound, hx] at hr
      simp only at hr
      cases happ : e.appendSlot found (UInt32.ofNat value.length) with
      | mk off e1 =>
        rw [happ] at hr
        simp only at hr
        split_ifs at hr with hno
        · rcases h.appendSlot hcfg hs31 happ with ⟨-, rfl⟩ | ⟨hne, -⟩
          · exact putNewExtent_spec henv hcfg h hpos hlen hcfg.extent (by omega) hr
          · exact absurd hno hne
        · obtain ⟨rfl, hbad, hgood⟩ := putWriteSlot_spec hcfg h hpos hlen hx rfl happ hno
            (by simp) hr
          exact ⟨hbad, fun hst => (hgood hst).1⟩

/-- More bytes are not padded to less. -/
theorem padded_mono {a b : ℕ} (h : a ≤ b) : Journal.padded a ≤ Journal.padded b := by
  unfold Journal.padded kTxnAlignment
  have hdiv : (a + 4096 - 1) / 4096 * 4096 ≤ (b + 4096 - 1) / 4096 * 4096 :=
    Nat.mul_le_mul_right _ (Nat.div_le_div_right (by omega))
  simp only
  split_ifs <;> omega

/-- The length of the records of a `put`. -/
theorem length_putRecords (k : Key) (old : Option KeyLocation) (new : KeyLocation) :
    (serializeRecords (putRecords k old new)).length ≤ k.length + 50 := by
  cases old with
  | none =>
    simp [putRecords, serializeRecords, length_serializeRecord, serializeFields, putString,
      putKeyLocation]
    omega
  | some o =>
    simp [putRecords, serializeRecords, length_serializeRecord, serializeFields, putString,
      putKeyLocation]
    omega

/-- A failed transaction gives the slot back. -/
theorem Reserved.cleanup {value : Value} {ctx : PutWriteResult}
    (h : Reserved env e e' m value ctx) (hsize : value.length ≤ 2 ^ 31) :
    Stores env (e'.putCleanupOnFailure ctx (UInt32.ofNat value.length)) m := by
  unfold putCleanupOnFailure
  split_ifs with hnew
  · refine (h.content.freeExtent (h.created hnew) fun id' hne => ?_).1
    simp [hne]
  · refine (h.content.markDeadSlot ?_ fun id' => Nat.zero_le _).1
    rw [if_pos rfl, toNat_ofNat_length hsize]

/-- A journal operation keeps the slot. -/
theorem Reserved.journalStep {value : Value} {ctx : PutWriteResult}
    (h : Reserved env e e1 m value ctx) (hs : JournalStep e1 e2) :
    Reserved env e e2 m value ctx where
  content := h.content.journalStep hs
  kept := h.kept.trans (h.content.kept_journalStep hs)
  holds := h.holds.journalStep h.content.space h.content.journal hs
  created hnew := by rw [hs.frame]; exact h.created hnew
  length := by
    have : e2.stateLength = e1.stateLength := stateLength_congr (by rw [hs.frame]) (by rw [hs.frame])
    rw [this]
    exact h.length

/-- The key gets the slot, and its old slot is retired. -/
theorem Reserved.commit {value : Value} {ctx : PutWriteResult}
    (h : Reserved env e e' m value ctx) (hsize : value.length ≤ 2 ^ 31) (k : Key) :
    Stores env (e'.putCommitMemoryState k (e.keyMap k)
      ⟨ctx.target, ctx.offset, UInt32.ofNat value.length⟩) (Function.update m k (some value)) := by
  have hs := toNat_ofNat_length hsize
  have hput := h.content.keyPut (k := k) h.holds (by rw [if_pos rfl]; exact hs.le)
  unfold putCommitMemoryState
  cases hk : e.keyMap k with
  | none =>
    refine hput.mono fun id => ?_
    exact Nat.zero_le _
  | some o =>
    refine Content.retireSlot (hput.mono fun id => ?_)
    have hold : e'.oldBytes k id = if o.extentId = id then o.length.toNat else 0 := by
      unfold oldBytes
      rw [h.kept.keyMap, hk]
    rw [hold]
    exact Nat.le_add_left _ _

/-- What `put` does: it keeps the content, but for the key when it succeeds. -/
theorem put_spec (henv : env.Lawful) (hcfg : env.ConfigOk) (h : Stores env e m) {k : Key}
    {value : Value} {st : Status} (hok : PutOk env e k value)
    (hr : e.put env k value = (st, e')) :
    Stores env e' (if st = .ok then Function.update m k (some value) else m) := by
  have hsize : value.length ≤ 2 ^ 31 := by have := hok.size; omega
  -- The first checkpoint.
  obtain ⟨e0, he0⟩ : ∃ e0, e0 = e.checkpointIf env env.isNearFull := ⟨_, rfl⟩
  have hstep0 : JournalStep e e0 := by
    rw [he0]
    refine checkpointIf_step henv _ ((padded_mono ?_).trans hok.state)
    omega
  have h0 : Stores env e0 m := h.journalStep hstep0
  have hlen0 : e0.stateLength = e.stateLength :=
    stateLength_congr (by rw [hstep0.frame]) (by rw [hstep0.frame])
  have hnext0 : e0.nextExtentId = e.nextExtentId := by rw [hstep0.frame]
  have hdata0 : e0.journal.dataSize = e.journal.dataSize := hstep0.keeps.dataSize
  unfold Engine.put at hr
  simp only [← he0] at hr
  -- The second phase writes the value into a slot.
  cases hdata : e0.putWriteData env value with
  | mk st1 r =>
    obtain ⟨ctx, e1⟩ := r
    obtain ⟨hbad, hgood⟩ := putWriteData_spec henv hcfg h0 hok.pos hok.size
      (by rw [hnext0]; exact hok.next) hdata
    rw [hdata] at hr
    -- The third writes its transaction, unless there is no slot.
    cases st1 with
    | ok =>
      have hres := hgood rfl
      have hdata1 : e1.journal.dataSize = e.journal.dataSize := hres.kept.dataSize.trans hdata0
      simp only at hr
      obtain ⟨new, hnew⟩ : ∃ n : KeyLocation,
        n = ⟨ctx.target, ctx.offset, UInt32.ofNat value.length⟩ := ⟨_, rfl⟩
      rw [← hnew] at hr
      -- The transaction.
      have hstep1 : JournalStep e1 (e1.journalTxn (putRecords k (e0.keyMap k) new)).2 := by
        refine journalTxn_step hres.content.journal ?_
        rw [hdata1]
        refine (padded_mono ?_).trans hok.txn
        have := length_putRecords k (e0.keyMap k) new
        omega
      have hres1 := hres.journalStep hstep1
      cases htxn : e1.journalTxn (putRecords k (e0.keyMap k) new) with
      | mk st2 e2 =>
        rw [htxn] at hr hres1
        cases st2 with
        | ok =>
          simp only [Prod.mk.injEq] at hr
          obtain ⟨rfl, rfl⟩ := hr
          -- The second checkpoint.
          have hstep2 : JournalStep e2 (e2.checkpointIf env env.needsCheckpoint) := by
            refine checkpointIf_step henv _ ?_
            have hlen := hres1.length
            have hdata2 : e2.journal.dataSize = e.journal.dataSize :=
              hres1.kept.dataSize.trans hdata0
            rw [hdata2]
            refine (padded_mono ?_).trans hok.state
            simp only at hlen
            omega
          rw [if_pos rfl, hnew]
          exact (hres1.journalStep hstep2).commit hsize k
        | _ =>
          simp only [Prod.mk.injEq] at hr
          obtain ⟨rfl, rfl⟩ := hr
          exact hres1.cleanup hsize
    | _ =>
      simp only [Prod.mk.injEq] at hr
      obtain ⟨rfl, rfl⟩ := hr
      exact hbad (by simp)

/-! ## Del -/

/-- The condition under which `del` does what it is for: the transaction fits in the journal. -/
def DelOk (e : Engine) (k : Key) : Prop := Journal.padded (k.length + 56) ≤ e.journal.dataSize

instance (e : Engine) (k : Key) : Decidable (DelOk e k) :=
  inferInstanceAs (Decidable (_ ≤ _))

/-- What `del` does: it keeps the content, but for the key when it succeeds. -/
theorem del_spec (h : Stores env e m) {k : Key} {st : Status} (hok : DelOk e k)
    (hr : e.del k = (st, e')) :
    Stores env e' (if st = .ok then Function.update m k none else m) := by
  unfold Engine.del at hr
  cases hk : e.keyMap k with
  | none =>
    simp only [hk, Prod.mk.injEq] at hr
    obtain ⟨rfl, rfl⟩ := hr
    exact h
  | some kl =>
    simp only [hk] at hr
    obtain ⟨rs, hrs⟩ : ∃ rs : List JournalRecord, rs = [{ op := .keyDel, key := k },
      { op := .markDead, extentId := kl.extentId, deadLength := kl.length }] := ⟨_, rfl⟩
    rw [← hrs] at hr
    have hlen : (serializeRecords rs).length ≤ k.length + 34 := by
      rw [hrs]
      simp [serializeRecords, length_serializeRecord, serializeFields, putString]
      omega
    have hstep : JournalStep e (e.journalTxn rs).2 :=
      journalTxn_step h.journal ((padded_mono (by omega)).trans hok)
    have h1 := h.journalStep hstep
    have hmap : (e.journalTxn rs).2.keyMap = e.keyMap := by rw [hstep.frame]
    cases htxn : e.journalTxn rs with
    | mk st1 e1 =>
      rw [htxn] at hr h1 hmap
      replace h1 : Stores env e1 m := h1
      replace hmap : e1.keyMap = e.keyMap := hmap
      cases st1 with
      | ok =>
        simp only [Prod.mk.injEq] at hr
        obtain ⟨rfl, rfl⟩ := hr
        rw [if_pos rfl]
        refine Content.retireSlot ((h1.keyErase k).mono fun id => ?_)
        simp only [oldBytes, hmap, hk]
        omega
      | _ =>
        simp only [Prod.mk.injEq] at hr
        obtain ⟨rfl, rfl⟩ := hr
        exact h1

end

end Engine

end CxxLab.Btier
