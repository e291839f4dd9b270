import CxxLab.Btier.EngineCalls

/-!
# Migration and compaction

`migrate_tier` moves an extent with all its bytes, `compact` copies the slots of its keys into a new
extent and lets it go. Neither changes what the keys hold, as long as the destination is on the
device to which the bytes are written and is as long as what is written.
-/

namespace CxxLab.Btier

open Engine

namespace Engine

section

variable {env : Env} {held : List DiskLocation} {res : UInt64 → ℕ} {e e' e1 e2 : Engine}
  {m : Key → Option Value}

/-- What was retired two cycles ago is given back. -/
theorem processDeferredFree_spec (h : Stores env e m) : Stores env e.processDeferredFree m :=
  h.keep h.space.processDeferredFree h.journal rfl rfl h.live fun _ _ _ _ hh => hh

/-! ## The claim on an extent -/

/-- What `begin_migration` does. -/
theorem beginMigration_spec (h : Content env held res e m) {id : UInt64} {x : ExtentEntry}
    (hr : e.beginMigration id = some (x, e1)) :
    e.entries.lookup id = some x ∧ Content env held res e1 m ∧ Kept e e1 ∧
      e1 = { e with entries := e.entries.insert id { x with migrating := true } } := by
  unfold beginMigration at hr
  cases hx : e.entries.lookup id with
  | none => simp [hx] at hr
  | some y =>
    simp only [hx] at hr
    split_ifs at hr
    simp only [Option.some.injEq, Prod.mk.injEq] at hr
    obtain ⟨rfl, rfl⟩ := hr
    obtain ⟨h1, hslots⟩ := h.setMigrating hx true
    exact ⟨rfl, h1, ⟨rfl, rfl, rfl, hslots⟩, rfl⟩

/-- What `abort_migration` does. -/
theorem abortMigration_spec (h : Content env held res e m) (id : UInt64) :
    Content env held res (e.abortMigration id) m ∧ Kept e (e.abortMigration id) := by
  unfold abortMigration
  cases hx : e.entries.lookup id with
  | none => exact ⟨h, rfl, rfl, rfl, fun _ _ hh => hh⟩
  | some x =>
    simp only
    split_ifs
    · obtain ⟨h1, hslots⟩ := h.setMigrating hx false
      exact ⟨h1, rfl, rfl, rfl, hslots⟩
    · exact ⟨h, rfl, rfl, rfl, fun _ _ hh => hh⟩

/-- A location that a call holds is retired. -/
theorem Content.releaseSource {loc : DiskLocation} (h : Content env (loc :: held) res e m) :
    Content env held res (e.releaseSource loc) m :=
  h.keep h.space.release h.journal rfl rfl h.live fun _ _ _ _ hh => hh

/-- What was read in one place and written in another is there. -/
theorem devWrite_devRead {t src : Tier} {off off0 len j : ℕ}
    (hw : e1.devWrite env t off (e.devRead src off0 len) = some e2)
    (hoff : t = .fast → kSuperblockSize ≤ off) (ht : t = .fast ∨ t = .slow) (hj : j < len) :
    e2.byteAt t (off + j) = e.byteAt src (off0 + j) := by
  have hlen : (e.devRead src off0 len).length = len := by simp [devRead]
  have hread := devRead_devWrite hw hoff ht
  rw [hlen] at hread
  have hget : (e2.devRead t off len)[j]? = (e.devRead src off0 len)[j]? := by rw [hread]
  simp only [devRead, List.getElem?_map, List.getElem?_range hj, Option.map_some] at hget
  exact Option.some.inj hget

/-- What an allocation returns depends on the allocators only. -/
theorem allocateRaw_congr (hf : e1.free = e.free) (hc : e1.allocCalls = e.allocCalls) (t : Tier)
    (size : ℕ) : (e1.allocateRaw env t size).1 = (e.allocateRaw env t size).1 := by
  have hon : ∀ (a b : Engine), a.free = b.free → a.allocCalls = b.allocCalls → ∀ t,
      (a.allocateOn env t size).1 = (b.allocateOn env t size).1 ∧
      (a.allocateOn env t size).2.free = (b.allocateOn env t size).2.free ∧
      (a.allocateOn env t size).2.allocCalls = (b.allocateOn env t size).2.allocCalls := by
    intro a b hf hc t
    unfold allocateOn Engine.allocate
    rw [hf, hc]
    simp only
    generalize env.allocate b.allocCalls t (b.free t) (alignedSize env size) = frags
    cases frags with
    | nil => exact ⟨rfl, rfl, rfl⟩
    | cons f fs =>
      simp only
      split_ifs <;> exact ⟨rfl, rfl, rfl⟩
  obtain ⟨h1, h2, h3⟩ := hon e1 e hf hc t
  unfold allocateRaw
  cases ha : e1.allocateOn env t size with
  | mk a a' =>
    cases hb : e.allocateOn env t size with
    | mk b b' =>
      rw [ha, hb] at h1 h2 h3
      obtain rfl : a = b := h1
      cases a with
      | some l => rfl
      | none =>
        simp only
        split_ifs
        · exact (hon a' b' h2 h3 .slow).1
        · rfl

/-! ## Migration to another tier -/

/-- The condition under which a migration does what it is for: the destination is on the tier to
which the bytes are written, and it is as long as the source. -/
def MigrateOk (env : Env) (e : Engine) (id : UInt64) : Prop :=
  ∀ x, e.entries.lookup id = some x →
    ∀ loc, (e.allocateRaw env (otherTier x.location.tier) x.location.length.toNat).1 = some loc →
      loc.tier = otherTier x.location.tier ∧ loc.length = x.location.length

/-- The length of an extent is asked of an allocator as it is. -/
theorem LocationOk.alignedSize_eq {loc : DiskLocation} (h : LocationOk env loc) :
    alignedSize env loc.length.toNat = loc.length.toNat := by
  unfold alignedSize
  rw [Nat.mod_eq_zero_of_dvd h.blocks, if_pos rfl]
  exact if_neg h.pos.ne'

/-- A write to a location that the call holds keeps the slots. -/
theorem Content.writeHeld {loc : DiskLocation} {bs : List UInt8} (hcfg : env.ConfigOk)
    (h : Content env (loc :: held) res e m) (hlen : bs.length = loc.length.toNat)
    (hw : e.devWrite env loc.tier loc.offset.toNat bs = some e1) :
    Content env (loc :: held) res e1 m ∧ Kept e e1 ∧ e1.entries = e.entries ∧
      ∀ t i, (t = .fast ∨ t = .slow) → (t = .fast → env.journalSize ≤ i) →
        ¬ loc.Covers t i → e1.byteAt t i = e.byteAt t i := by
  obtain ⟨hf, hd, ha⟩ := devWrite_frame hw
  have hloc := h.space.ok loc (by simp [owned])
  have hjs := hcfg.journal
  have hbyte : ∀ t i, (t = .fast ∨ t = .slow) → (t = .fast → env.journalSize ≤ i) →
      ¬ loc.Covers t i → e1.byteAt t i = e.byteAt t i := by
    intro t i ht hi hc
    rw [devWrite_byteAt hw (fun hfast => by
      have := superblock_le hloc (le_refl _) hfast
      omega) (by have := hloc.area; tauto) t ht i (fun hfast => by
      have := hi hfast
      omega), if_neg]
    rintro ⟨rfl, h1, h2⟩
    exact hc ⟨rfl, h1, by omega⟩
  have hslots : ∀ kl v, e.Holds kl v → e1.Holds kl v := by
    intro kl v hh
    refine hh.congr fun x hx => ⟨x, by rw [hf]; exact hx, rfl, le_refl _, fun i h1 h2 => ?_⟩
    obtain ⟨hfit, -⟩ := h.space.used _ x hx
    have hxok := h.space.ok _ (location_mem_owned hx _)
    refine hbyte _ i (by have := hxok.area; tauto) (superblock_le hxok (by omega)) fun hc => ?_
    exact h.space.apart_held hx _ _ hc ⟨rfl, by omega, by omega⟩
  refine ⟨h.keep (h.space.devWrite hw) ⟨hd ▸ h.journal.dataSize, ha ▸ h.journal.idle⟩
    (by rw [hf]) (by rw [hf]) (by rw [hf]; exact h.live) fun k kl v _ => hslots kl v,
    ⟨by rw [hf], by rw [hf], hd, hslots⟩, by rw [hf], hbyte⟩

/-- What `commit_migration` does when the bytes were copied to the location that the call holds. -/
theorem commitMigration_spec {loc : DiskLocation} {id : UInt64} {x : ExtentEntry}
    (h : Content env (loc :: held) res e m) (hx : e.entries.lookup id = some x)
    (hlen : loc.length = x.location.length)
    (hcopy : ∀ j, j < x.location.length.toNat → e.byteAt loc.tier (loc.offset.toNat + j) =
      e.byteAt x.location.tier (x.location.offset.toNat + j)) :
    (e.commitMigration id x.generation loc).1 = true ∧
      Content env held res (e.commitMigration id x.generation loc).2 m := by
  obtain ⟨x', hx'⟩ : ∃ x', x' = { x with
    location := loc
    migrating := false
    generation := x.generation + 1 } := ⟨_, rfl⟩
  have hloc : x'.location = loc := by rw [hx']
  have hcm : e.commitMigration id x.generation loc = (true, { e with
      entries := e.entries.insert id x'
      deferredFree := e.deferredFree ++ [(x.location, e.seqno)] }) := by
    unfold commitMigration
    rw [hx, hx']
    simp
  rw [hcm]
  refine ⟨rfl, ?_⟩
  simp only
  refine h.keep ?_ h.journal rfl rfl ?_ ?_
  · rw [← hloc] at h
    exact h.space.move hx rfl rfl rfl rfl (by rw [hloc, hlen]) (by rw [hx']) (by rw [hx'])
  · intro a y hy
    rcases lookup_insert_cases hy with ⟨rfl, rfl⟩ | ⟨-, hy⟩
    · rw [show y.liveBytes = x.liveBytes by rw [hx']]
      exact h.live _ _ hx
    · exact h.live a y hy
  · rintro k kl v - ⟨y, hy, hylen, hpos, hread⟩
    by_cases hid : kl.extentId = id
    · rw [hid] at hy
      obtain rfl : x = y := Option.some.inj (hx.symm.trans hy)
      obtain ⟨hfit, -⟩ := h.space.used _ _ hx
      refine ⟨x', by rw [hid, AList.lookup_insert], by rw [hx']; exact hylen, hpos, ?_⟩
      rw [← hread, hloc]
      -- The slot is at the same place in the copy.
      apply List.map_congr_left
      intro i hi
      rw [List.mem_range] at hi
      have := hcopy (headerSize.toNat + kl.offset.toNat + i) (by omega)
      unfold slotStart
      simp only [Nat.add_assoc] at this ⊢
      exact this
    · exact ⟨y, by rw [AList.lookup_insert_ne hid, hy], hylen, hpos, hread⟩

/-- What `migrate_tier` does: the extent with its slots is elsewhere, or nothing happened. -/
theorem migrateTier_spec (henv : env.Lawful) (hcfg : env.ConfigOk) (h : Stores env e m)
    {id : UInt64} {x : ExtentEntry} (hx : e.entries.lookup id = some x) (hok : MigrateOk env e id)
    {r : MigrationResult}
    (hr : e.migrateTier env id x.location.tier (otherTier x.location.tier) = (r, e')) :
    Stores env e' m := by
  have hxok := h.space.ok _ (location_mem_owned hx [])
  -- The copy goes to the other tier.
  obtain ⟨dst, hdst⟩ : ∃ t, t = otherTier x.location.tier := ⟨_, rfl⟩
  have hdst' : dst = .fast ∨ dst = .slow := by
    rw [hdst]
    unfold otherTier
    split_ifs <;> simp
  unfold Engine.migrateTier at hr
  -- The extent cannot be moved now, or it is marked.
  cases hb : e.beginMigration id with
  | none =>
    simp only [hb, Prod.mk.injEq] at hr
    obtain ⟨-, rfl⟩ := hr
    exact h
  | some p =>
    obtain ⟨y, e1⟩ := p
    obtain ⟨hy, h1, -, hf1⟩ := beginMigration_spec h hb
    obtain rfl : x = y := Option.some.inj (hx.symm.trans hy)
    simp only [hb, ← hdst] at hr
    -- What is copied is what the extent has.
    obtain ⟨data, hdata⟩ : ∃ d, d = e1.devRead x.location.tier x.location.offset.toNat
      x.location.length.toNat := ⟨_, rfl⟩
    rw [← hdata] at hr
    have hraw : (e1.allocateRaw env dst x.location.length.toNat).1 =
        (e.allocateRaw env dst x.location.length.toNat).1 :=
      allocateRaw_congr (by rw [hf1]) (by rw [hf1]) dst _
    obtain ⟨htook, htiers⟩ := took_allocateRaw henv e1 dst x.location.length.toNat
    have hwant : alignedSize env x.location.length.toNat ≤ 2 ^ 31 := by
      rw [hxok.alignedSize_eq]
      exact hxok.le
    -- There is no room over there, or one piece of it.
    cases hal : e1.allocateRaw env dst x.location.length.toNat with
    | mk l e2 =>
      rw [hal] at hr htook htiers hraw
      replace htook : Took env e1 e2 _ l := htook
      obtain ⟨h2, -⟩ := h1.took htook hwant fun l' hl' => by
        have := htiers l' hl'
        rcases hdst' with rfl | rfl <;> tauto
      cases l with
      | none =>
        simp only [Prod.mk.injEq] at hr
        obtain ⟨-, rfl⟩ := hr
        exact (abortMigration_spec h2 id).1
      | some loc =>
        replace h2 : Content env [loc] (fun _ => 0) e2 m := h2
        obtain ⟨htier, hlen⟩ := hok x hx loc (by rw [← hdst]; exact hraw.symm)
        rw [← hdst] at htier
        simp only at hr
        cases hw : e2.devWrite env dst loc.offset.toNat data with
        | none =>
          simp only [hw, Prod.mk.injEq] at hr
          obtain ⟨-, rfl⟩ := hr
          exact (abortMigration_spec h2 id).1.releaseSource
        | some e3 =>
          simp only [hw] at hr
          rw [← htier] at hw
          have hdlen : data.length = loc.length.toNat := by rw [hdata, hlen]; simp [devRead]
          obtain ⟨h3, hk3, hent3, hbyte3⟩ := h2.writeHeld hcfg hdlen hw
          have hx3 : e3.entries.lookup id = some { x with migrating := true } := by
            rw [hent3, htook.frame, hf1, AList.lookup_insert]
          · have hcopy : ∀ j, j < x.location.length.toNat →
                e3.byteAt loc.tier (loc.offset.toNat + j) =
                  e3.byteAt x.location.tier (x.location.offset.toNat + j) := by
              intro j hj
              have hread : e3.byteAt loc.tier (loc.offset.toNat + j) =
                  e1.byteAt x.location.tier (x.location.offset.toNat + j) := by
                rw [hdata] at hw
                refine devWrite_devRead hw (fun hfast => ?_) (by rw [htier]; exact hdst') hj
                have := superblock_le (h2.space.ok loc (by simp [owned])) (le_refl _) hfast
                have := hcfg.journal
                omega
              have hsame : e2.byteAt x.location.tier (x.location.offset.toNat + j) =
                  e1.byteAt x.location.tier (x.location.offset.toNat + j) := by
                rw [htook.frame]
                rfl
              rw [hread, hbyte3 _ _ (by have := hxok.area; tauto) (superblock_le hxok (by omega)),
                hsame]
              intro hc
              have hcx : x.location.Covers x.location.tier (x.location.offset.toNat + j) :=
                ⟨rfl, by omega, by omega⟩
              exact h3.space.apart_held hx3 _ _ hc hcx
            obtain ⟨hcm, h4⟩ := commitMigration_spec h3 hx3 hlen hcopy
            cases hc : e3.commitMigration id x.generation loc with
            | mk b e4 =>
              rw [hc] at hcm h4 hr
              obtain rfl : b = true := hcm
              simp only [Prod.mk.injEq] at hr
              obtain ⟨-, rfl⟩ := hr
              exact h4
/-! ## Compaction -/

/-- The condition under which a compaction does what it is for: the new extent is on the tier to
which the bytes are written, and it has a name. -/
def CompactOk (env : Env) (e : Engine) (id : UInt64) : Prop :=
  e.nextExtentId.toNat + 1 < 2 ^ 64 ∧ ∀ x, e.entries.lookup id = some x →
    ∀ loc, (e.allocateRaw env x.location.tier x.location.length.toNat).1 = some loc →
      loc.tier = x.location.tier

/-- The new slots of keys hold what the keys hold. -/
def Copies (e : Engine) (m : Key → Option Value) (newId : UInt64) (us : List (Key × KeyLocation)) :
    Prop :=
  ∀ u ∈ us, u.2.extentId = newId ∧ ∃ v, m u.1 = some v ∧ e.Holds u.2 v

/-- The bytes of the new slots. -/
def copiedBytes (us : List (Key × KeyLocation)) : ℕ := (us.map fun u => u.2.length.toNat).sum

/-- Copies stay copies when no slot is lost. -/
theorem Copies.kept {newId : UInt64} {us : List (Key × KeyLocation)} (h : Copies e m newId us)
    (hslots : ∀ kl v, e.Holds kl v → e'.Holds kl v) : Copies e' m newId us := by
  intro u hu
  obtain ⟨hid, v, hv, hh⟩ := h u hu
  exact ⟨hid, v, hv, hslots _ _ hh⟩

/-- The extents on both sides of the copy loop are there, the old one untouched. -/
structure Copying (e : Engine) (id newId : UInt64) (x : ExtentEntry) (new : DiskLocation) :
    Prop where
  /-- They are two. -/
  ne : id ≠ newId
  /-- The old extent. -/
  old : e.entries.lookup id = some x
  /-- The new extent. -/
  fresh : ∃ y, e.entries.lookup newId = some y ∧ y.location = new
  /-- They are on one tier. -/
  tier : new.tier = x.location.tier

/-- What the copy loop does: the keys' values are in slots of the new extent that no key has yet. -/
theorem compactCopy_spec (hcfg : env.ConfigOk) {id newId : UInt64} {x : ExtentEntry}
    {new : DiskLocation} {r : Option (List (Key × KeyLocation))} :
    ∀ (ks : List Key) (res : UInt64 → ℕ) (e e' : Engine), Content env [] res e m →
      Copying e id newId x new →
      (∀ k ∈ ks, ∃ kl, e.keyMap k = some kl ∧ kl.extentId = id) →
      compactCopy env x.location new newId ks e = (r, e') →
      ∃ res', Content env [] res' e' m ∧ Kept e e' ∧ (∀ us, r = some us →
        us.map Prod.fst = ks ∧ Copies e' m newId us ∧
          res newId + copiedBytes us ≤ res' newId)
  | [], res, e, e', h, hc, hks, hr => by
    obtain ⟨rfl, rfl⟩ := Prod.mk.inj hr
    refine ⟨res, h, ⟨rfl, rfl, rfl, fun _ _ hh => hh⟩, fun us hus => ?_⟩
    obtain rfl := Option.some.inj hus
    exact ⟨rfl, by simp [Copies], by simp [copiedBytes]⟩
  | k :: ks, res, e, e', h, hc, hks, hr => by
    obtain ⟨kl, hkl, hid⟩ := hks k (List.mem_cons_self ..)
    obtain ⟨v, hv, y, hy, hylen, hpos, hread⟩ := h.slot k kl hkl
    obtain rfl : x = y := by
      rw [hid] at hy
      exact Option.some.inj (hc.old.symm.trans hy)
    -- The extent that is being filled.
    obtain ⟨n, hn, hnloc⟩ := hc.fresh
    obtain ⟨hfit, -⟩ := h.space.used _ _ hy
    have hle := (h.space.ok _ (location_mem_owned hy [])).le
    have hsize : kl.length.toNat ≤ 2 ^ 31 := by omega
    have hvlen : v.length = kl.length.toNat := by rw [← hread]; simp [devRead]
    unfold compactCopy at hr
    simp only [hkl, Option.getD_some] at hr
    rw [show e.devRead x.location.tier
      (x.location.offset.toNat + headerSize.toNat + kl.offset.toNat) kl.length.toNat = v from hread]
      at hr
    -- The slot cannot be had, or the value is copied into it.
    cases happ : e.appendSlot newId kl.length with
    | mk off e1 =>
      rw [happ] at hr
      simp only at hr
      have hcase := h.appendSlot hcfg hsize happ
      split_ifs at hr with hno
      · obtain ⟨rfl, rfl⟩ := Prod.mk.inj hr
        rcases hcase with ⟨-, rfl⟩ | ⟨hne, -⟩
        · exact ⟨res, h, ⟨rfl, rfl, rfl, fun _ _ hh => hh⟩, by simp⟩
        · exact absurd hno hne
      · obtain ⟨h1, hslots1, z, z', hz, hzloc, -, -, hf1⟩ := (hcase.resolve_left (fun hn => hno hn.1)).2
        cases hw : e1.devWrite env x.location.tier
            (new.offset.toNat + headerSize.toNat + off.toNat) v with
        | none =>
          simp only [hw, Prod.mk.injEq] at hr
          obtain ⟨rfl, rfl⟩ := hr
          exact ⟨_, h1, ⟨by rw [hf1], by rw [hf1], by rw [hf1], hslots1⟩, by simp⟩
        | some e2 =>
          simp only [hw] at hr
          rw [← hc.tier, ← hnloc] at hw
          obtain ⟨h2, hk2, hh2, -, -, -⟩ := h.writeSlot hcfg hpos hsize hn happ hno hvlen hw
          have hent2 : e2.entries = e.entries.insert newId z' := by
            rw [(devWrite_frame hw).1, hf1]
          have hc2 : Copying e2 id newId x new := by
            refine ⟨hc.ne, ?_, ⟨z', ?_, ?_⟩, hc.tier⟩
            · rw [hent2, AList.lookup_insert_ne hc.ne, hc.old]
            · rw [hent2, AList.lookup_insert]
            · rw [hzloc, ← Option.some.inj (hn.symm.trans hz), hnloc]
          have hks2 : ∀ k ∈ ks, ∃ kl, e2.keyMap k = some kl ∧ kl.extentId = id := by
            intro k' hk'
            rw [hk2.keyMap]
            exact hks k' (List.mem_cons_of_mem _ hk')
          cases hrec : compactCopy env x.location new newId ks e2 with
          | mk r3 e3 =>
            obtain ⟨res3, h3, hk3, hus3⟩ := compactCopy_spec hcfg ks _ e2 e3 h2 hc2 hks2 hrec
            rw [hrec] at hr
            cases r3 with
            | none =>
              obtain ⟨rfl, rfl⟩ := Prod.mk.inj hr
              exact ⟨res3, h3, hk2.trans hk3, by simp⟩
            | some us3 =>
              obtain ⟨rfl, rfl⟩ := Prod.mk.inj hr
              obtain ⟨hmap, hcopies, hbytes⟩ := hus3 us3 rfl
              refine ⟨res3, h3, hk2.trans hk3, fun us hus => ?_⟩
              obtain rfl := Option.some.inj hus
              refine ⟨by simp [hmap], ?_, ?_⟩
              · intro u hu
                rcases List.mem_cons.mp hu with rfl | hu
                · exact ⟨rfl, v, hv, hk3.slots _ _ hh2⟩
                · exact hcopies u hu
              · rw [if_pos rfl] at hbytes
                simp only [copiedBytes, List.map_cons, List.sum_cons] at hbytes ⊢
                omega

/-- What `batch_update` does: the keys have their new slots, and hold what they held. -/
theorem batchUpdate_spec {newId : UInt64} :
    ∀ (us : List (Key × KeyLocation)) (res : UInt64 → ℕ) (e : Engine), Content env held res e m →
      Copies e m newId us → copiedBytes us ≤ res newId →
      Content env held (fun _ => 0) (e.batchUpdate us) m ∧
        ∀ k kl, (e.batchUpdate us).keyMap k = some kl →
          kl.extentId = newId ∨ (k ∉ us.map Prod.fst ∧ e.keyMap k = some kl)
  | [], res, e, h, hc, hb => ⟨h.mono fun _ => Nat.zero_le _, fun k kl hk => .inr ⟨by simp, hk⟩⟩
  | u :: us, res, e, h, hc, hb => by
    obtain ⟨hid, v, hv, hh⟩ := hc u (List.mem_cons_self ..)
    have hlen : copiedBytes (u :: us) = u.2.length.toNat + copiedBytes us := by simp [copiedBytes]
    have hput := h.keyPut (k := u.1) hh (by rw [hid]; omega)
    have hm : Function.update m u.1 (some v) = m := Function.update_eq_self_iff.mpr hv.symm
    rw [hm] at hput
    have hcopies : Copies (e.keyPut u.1 u.2) m newId us :=
      Copies.kept (fun w hw => hc w (List.mem_cons_of_mem _ hw)) fun _ _ hh => hh
    obtain ⟨hrest, hkeys⟩ := batchUpdate_spec us _ _ hput hcopies (by rw [if_pos hid.symm]; omega)
    refine ⟨hrest, fun k kl hk => ?_⟩
    rcases hkeys k kl hk with hnew | ⟨hnot, hold⟩
    · exact .inl hnew
    · rw [keyPut_keyMap] at hold
      by_cases hku : k = u.1
      · rw [hku, Function.update_self] at hold
        rw [← Option.some.inj hold]
        exact .inl hid
      · rw [Function.update_of_ne hku] at hold
        exact .inr ⟨by simpa [hku] using hnot, hold⟩

/-- What `compact` does: the keys of the extent are in a new one, or nothing happened. -/
theorem compact_spec (henv : env.Lawful) (hcfg : env.ConfigOk) (h : Stores env e m)
    {id : UInt64} (hok : CompactOk env e id) {r : MigrationResult}
    (hr : e.compact env id = (r, e')) : Stores env e' m := by
  unfold Engine.compact at hr
  -- The extent cannot be compacted now, or it is marked.
  cases hb : e.beginMigration id with
  | none =>
    simp only [hb, Prod.mk.injEq] at hr
    obtain ⟨-, rfl⟩ := hr
    exact h
  | some p =>
    obtain ⟨x, e1⟩ := p
    obtain ⟨hx, h1, hk1, hf1⟩ := beginMigration_spec h hb
    have hxok := h.space.ok _ (location_mem_owned hx [])
    -- The keys that have a slot in it, each with a value.
    obtain ⟨keys, hkeys⟩ : ∃ ks, ks = e1.keysInExtent env id := ⟨_, rfl⟩
    have hperm : keys.Perm (e1.reverseIndex id) := hkeys ▸ henv.keys _ _
    simp only [hb, ← hkeys] at hr
    split_ifs at hr with hnil
    · obtain ⟨-, rfl⟩ := Prod.mk.inj hr
      refine (h1.freeExtent ?_ fun _ _ => le_refl 0).1
      rw [hnil] at hperm
      exact hperm.symm.eq_nil
    -- Its copy has a new extent, if one can be had.
    · cases hal : e1.allocateExtent env x.location.tier x.location.length.toNat with
      | mk l e2 =>
        have hn1 : e1.nextExtentId = e.nextExtentId := by rw [hf1]
        obtain ⟨h2, hk2, hcase⟩ := h1.allocateExtent henv hcfg (by have := hxok.area; tauto)
          (by rw [hxok.alignedSize_eq]; exact hxok.le) (by rw [hn1]; exact hok.1) rfl hal
        rw [hal] at hr
        rcases hcase with ⟨rfl, -, -⟩ | ⟨loc, rfl, hraw, -, hent2⟩
        · simp only [Prod.mk.injEq] at hr
          obtain ⟨-, rfl⟩ := hr
          exact (abortMigration_spec h2 id).1
        · simp only at hr
          have hraw' : (e.allocateRaw env x.location.tier x.location.length.toNat).1 = some loc := by
            rw [← hraw]
            exact (allocateRaw_congr (by rw [hf1]) (by rw [hf1]) _ _).symm
          have hnone := h1.space.lookup_next
          have hx1 : e1.entries.lookup id = some { x with migrating := true } := by
            rw [hf1, AList.lookup_insert]
          have hne : id ≠ e1.nextExtentId := by
            rintro heq
            rw [← heq, hx1] at hnone
            cases hnone
          have hc2 : Copying e2 id e1.nextExtentId { x with migrating := true } loc := by
            refine ⟨hne, ?_, ⟨{ location := loc }, ?_, rfl⟩, hok.2 x hx loc hraw'⟩
            · rw [hent2, AList.lookup_insert_ne hne, hx1]
            · rw [hent2, AList.lookup_insert]
          have hempty : e2.reverseIndex e1.nextExtentId = [] := by
            rw [hk2.reverseIndex]
            exact h1.no_keys hnone
          have hks : ∀ k ∈ keys, ∃ kl, e2.keyMap k = some kl ∧ kl.extentId = id := by
            intro k hk
            rw [hk2.keyMap]
            exact (h1.indexed.mem k id).mp (hperm.mem_iff.mp hk)
          cases hcopy : compactCopy env x.location loc e1.nextExtentId keys e2 with
          | mk us e3 =>
            obtain ⟨res3, h3, hk3, hus⟩ := compactCopy_spec hcfg keys _ e2 e3 h2 hc2 hks hcopy
            -- When the copy is given up, the new extent goes.
            have hfail : Stores env ((e3.abortMigration id).freeExtent e1.nextExtentId) m := by
              obtain ⟨h4, hk4⟩ := abortMigration_spec h3 id
              refine (h4.freeExtent ?_ fun _ _ => Nat.zero_le _).1
              rw [hk4.reverseIndex, hk3.reverseIndex]
              exact hempty
            rw [hcopy] at hr
            cases us with
            | none =>
              simp only [Prod.mk.injEq] at hr
              obtain ⟨-, rfl⟩ := hr
              exact hfail
            | some us =>
              simp only at hr
              split_ifs at hr
              · obtain ⟨-, rfl⟩ := Prod.mk.inj hr
                obtain ⟨hmap, hcopies, hbytes⟩ := hus us rfl
                obtain ⟨h4, hnew⟩ := batchUpdate_spec us res3 e3 h3 hcopies (by omega)
                refine (h4.freeExtent ?_ fun _ _ => le_refl 0).1
                -- A key that is still in the old extent was not copied, and was not in it.
                rw [List.eq_nil_iff_forall_not_mem]
                intro k hk
                obtain ⟨kl, hkl, hid⟩ := (h4.indexed.mem k id).mp hk
                rcases hnew k kl hkl with hnewId | ⟨hnot, hold⟩
                · exact hne (hid.symm.trans hnewId)
                · rw [hmap] at hnot
                  refine hnot (hperm.mem_iff.mpr ((h1.indexed.mem k id).mpr ⟨kl, ?_, hid⟩))
                  rw [← hk2.keyMap, ← hk3.keyMap]
                  exact hold
              · obtain ⟨-, rfl⟩ := Prod.mk.inj hr
                exact hfail

end

end Engine

end CxxLab.Btier
