import CxxLab.Btier.CrashPut

/-!
# Migration and compaction under crashes

Migrations and compactions move extents without a word to the journal: the view goes on to name the
old places. A crash yields the content as long as these are retired and not given back, so what
matters is `process_deferred_free`, which gives back what was retired two cycles ago.
-/

namespace CxxLab.Btier

open Engine

namespace Engine

section

variable {env : Env} {held : List DiskLocation} {res : UInt64 → ℕ} {e e' e1 e2 : Engine}
  {m : Key → Option Value} {V : View}

/-! ## Space that is given back -/

/-- The locations at which recovery would look for keys. -/
def named (e : Engine) : List DiskLocation :=
  e.recovered.filterMap fun r => (e.view.keys r.key).bind fun kl => e.view.extents kl.extentId

/-- A key of the view comes from a record. -/
theorem exists_record {rs : List JournalRecord} {V : View} {k : Key} {kl : KeyLocation}
    (h : (rs.foldl View.apply V).keys k = some kl) : V.keys k = some kl ∨ ∃ r ∈ rs, r.key = k := by
  induction rs generalizing V with
  | nil => exact .inl h
  | cons r rs ih =>
    rcases ih h with h1 | ⟨r', hr', hk⟩
    · by_cases hk : r.key = k
      · exact .inr ⟨r, by simp, hk⟩
      · refine .inl ?_
        unfold View.apply at h1
        cases hop : r.op <;> simp only [hop, Function.update_of_ne (Ne.symm hk)] at h1 <;> exact h1
    · exact .inr ⟨r', by simp [hr'], hk⟩

/-- What the view names is among the named locations. -/
theorem mem_named {k : Key} {kl : KeyLocation} {loc : DiskLocation} (hk : e.view.keys k = some kl)
    (hloc : e.view.extents kl.extentId = some loc) : loc ∈ e.named := by
  rcases exists_record hk with hempty | ⟨r, hr, rfl⟩
  · cases hempty
  · refine List.mem_filterMap.mpr ⟨r, hr, ?_⟩
    rw [hk]
    exact hloc

/-- The condition under which retired space is given back safely: recovery would not look there. -/
def DeferredSafe (e : Engine) : Prop :=
  ∀ d ∈ e.deferredFree, e.seqno - d.2 ≥ 2 → d.1 ∉ e.named

instance (e : Engine) : Decidable (DeferredSafe e) :=
  inferInstanceAs (Decidable (∀ d ∈ e.deferredFree, e.seqno - d.2 ≥ 2 → d.1 ∉ e.named))

/-- `process_deferred_free` under crashes. -/
theorem processDeferredFree_durable (henv : env.Lawful) (hcfg : env.ConfigOk)
    (hst : Stores env e m) (h : Durable env e V m) (hok : DeferredSafe e) :
    Durable env e.processDeferredFree V m ∧ Trail (Yields env m) e e.processDeferredFree := by
  refine h.memory henv hcfg hst.space ⟨le_refl _, fun k kl loc hk hext hloc => ?_,
    fun loc hloc => .inl ?_, fun id x hx => .inl ⟨id, x, hx, rfl, le_refl _⟩, h.sound.tracks⟩ rfl rfl
    rfl fun t i hi => ?_
  · simp only [owned, List.nil_append, List.mem_append, List.mem_map] at hloc ⊢
    rcases hloc with hloc | ⟨d, hd, rfl⟩
    · exact .inl hloc
    · -- A location that is due is not named.
      refine .inr ⟨d, List.mem_filter.mpr ⟨hd, ?_⟩, rfl⟩
      simp only [decide_eq_true_eq]
      intro hdue
      refine hok d hd hdue ?_
      rw [← h.view_eq] at hk hext
      exact mem_named hk hext
  · simp only [owned, List.nil_append, List.mem_append, List.mem_map] at hloc ⊢
    rcases hloc with hloc | ⟨d, hd, rfl⟩
    · exact .inl hloc
    · exact .inr ⟨d, List.mem_of_mem_filter hd, rfl⟩
  · simp only [processDeferredFree, Bool.or_eq_true, List.any_eq_true, List.mem_filter,
      Bool.and_eq_true, decide_eq_true_eq, inRange] at hi
    rcases hi with hi | ⟨d, ⟨hd, -⟩, rfl, -, hlt⟩
    · exact .inl hi
    · have hon := h.sized.owned_on d.1 (by
        simp only [owned, List.nil_append, List.mem_append, List.mem_map]
        exact .inr ⟨d, hd, rfl⟩)
      unfold OnDevice at hon
      exact .inr (by omega)

/-! ## Parts of migrations -/

/-- An extent is claimed for a migration. -/
theorem Durable.beginMigration (henv : env.Lawful) (hcfg : env.ConfigOk) (hsp : Space env held e)
    (h : Durable env e V m) {id : UInt64} {x : ExtentEntry} (hx : e.entries.lookup id = some x)
    (hf : e' = { e with entries := e.entries.insert id { x with migrating := true } }) :
    Quiet env e e' V m := by
  subst hf
  exact h.setEntry henv hcfg hsp hx rfl rfl (le_refl _)

/-- A migration is given up. -/
theorem Durable.abortMigration (henv : env.Lawful) (hcfg : env.ConfigOk) (hsp : Space env held e)
    (h : Durable env e V m) (id : UInt64) : Quiet env e (e.abortMigration id) V m := by
  unfold Engine.abortMigration
  cases hx : e.entries.lookup id with
  | none => exact h.quiet henv hcfg hsp
  | some x =>
    simp only
    split_ifs
    · exact h.setEntry henv hcfg hsp hx rfl rfl (le_refl _)
    · exact h.quiet henv hcfg hsp

/-- A location that the call holds is retired. -/
theorem Durable.releaseSource (henv : env.Lawful) (hcfg : env.ConfigOk) (hsp : Space env held e)
    (h : Durable env e V m) {loc : DiskLocation} (hloc : OnDevice env loc) :
    Quiet env e (e.releaseSource loc) V m := by
  refine h.quiet_memory henv hcfg hsp ?_ rfl rfl rfl fun t i hi => .inl hi
  refine h.sound.spares (le_refl _) rfl (fun l hl => ?_) (fun l hl => ?_)
    fun id x hx => .inl ⟨x, hx, rfl, le_refl _⟩
  · simp only [owned, Engine.releaseSource, List.nil_append, List.map_append, List.mem_append]
      at hl ⊢
    rcases hl with hl | hl
    · exact .inl hl
    · exact .inr (.inl hl)
  · simp only [owned, Engine.releaseSource, List.nil_append, List.map_append, List.map_cons,
      List.map_nil, List.mem_append, List.mem_singleton] at hl ⊢
    rcases hl with hl | hl | rfl
    · exact .inl (.inl hl)
    · exact .inl (.inr hl)
    · exact .inr hloc

/-- A location that the call holds is not owned otherwise. -/
theorem Space.held_not_owned {loc : DiskLocation} (h : Space env (loc :: held) e) :
    loc ∉ owned [] e := by
  intro hloc
  have hpos := (h.ok loc (by simp [owned])).pos
  have hap := h.apart
  rw [show owned (loc :: held) e = loc :: owned held e from rfl, List.pairwise_cons] at hap
  exact hap.1 loc (mem_owned hloc held) loc.tier loc.offset.toNat ⟨rfl, le_refl _, by omega⟩
    ⟨rfl, le_refl _, by omega⟩

/-- A location that the call holds is a place for a write. -/
theorem Space.spot_held {loc : DiskLocation} {len : ℕ} (h : Space env (loc :: held) e)
    (hlen : len ≤ loc.length.toNat) : Spot env e loc.tier loc.offset.toNat len := by
  refine ⟨(h.ok loc (by simp [owned])).area, fun loc' hloc' htier i hi => ?_⟩
  by_contra hin
  have hap := h.apart
  rw [show owned (loc :: held) e = loc :: owned held e from rfl, List.pairwise_cons] at hap
  exact hap.1 loc' (mem_owned hloc' held) loc.tier i ⟨rfl, by omega, by omega⟩
    ⟨htier, hi.1, hi.2.1⟩

/-- Bytes are written to a location that the call holds. -/
theorem Durable.writeHeld (henv : env.Lawful) (hcfg : env.ConfigOk) {loc : DiskLocation}
    {m0 : Key → Option Value} (hc : Content env (loc :: held) res e m0) (h : Durable env e V m)
    {bs : List UInt8} (hlen : bs.length ≤ loc.length.toNat)
    (hw : e.devWrite env loc.tier loc.offset.toNat bs = some e') : Quiet env e e' V m := by
  obtain ⟨hf, -, -⟩ := devWrite_frame hw
  have hspot := hc.space.spot_held hlen
  obtain ⟨hd, ht⟩ := h.write henv hcfg hc.space hc.journal hspot rfl (fun _ _ hi => hi) hw
    (h.sound.spares_of_eq (by rw [hf]) (by rw [hf]) (by rw [hf]) (by rw [hf]))
  exact ⟨hd, ht, sameRoom_devWrite hspot.area hc.journal hw⟩

/-- Reads of the same bytes in two places. -/
theorem devRead_eq_devRead {t t' : Tier} {off off' len : ℕ}
    (h : ∀ j < len, e'.byteAt t (off + j) = e.byteAt t' (off' + j)) :
    e'.devRead t off len = e.devRead t' off' len := by
  apply List.map_congr_left
  intro j hj
  exact h j (List.mem_range.mp hj)

/-- `commit_migration` under crashes, when the bytes were copied. -/
theorem Durable.commitMigration (henv : env.Lawful) (hcfg : env.ConfigOk) {loc : DiskLocation}
    {m0 : Key → Option Value} (hc : Content env (loc :: held) res e m0) (h : Durable env e V m)
    {id : UInt64} {x : ExtentEntry} (hx : e.entries.lookup id = some x)
    (hon : OnDevice env loc)
    (hcopy : ∀ j, j < x.location.length.toNat → e.byteAt loc.tier (loc.offset.toNat + j) =
      e.byteAt x.location.tier (x.location.offset.toNat + j)) :
    Quiet env e (e.commitMigration id x.generation loc).2 V m := by
  obtain ⟨x', hx'⟩ : ∃ x', x' = { x with
    location := loc
    migrating := false
    generation := x.generation + 1 } := ⟨_, rfl⟩
  -- The entry has its new place.
  have hloc : x'.location = loc := by rw [hx']
  have hcm : (e.commitMigration id x.generation loc).2 = { e with
      entries := e.entries.insert id x'
      deferredFree := e.deferredFree ++ [(x.location, e.seqno)] } := by
    unfold Engine.commitMigration
    rw [hx, hx']
    simp
  rw [hcm]
  obtain ⟨e', he'⟩ : ∃ e', e' = { e with
    entries := e.entries.insert id x'
    deferredFree := e.deferredFree ++ [(x.location, e.seqno)] } := ⟨_, rfl⟩
  have hent : e'.entries = e.entries.insert id x' := by rw [he']
  -- And the old place waits for two checkpoints.
  have hdef : e'.deferredFree = e.deferredFree ++ [(x.location, e.seqno)] := by rw [he']
  have hown : ∀ l, l ∈ owned [] e' ↔ l = loc ∨ l ∈ owned [] e := by
    intro l
    unfold owned
    rw [hdef, extentLocations_insert hent, hloc]
    simp only [List.nil_append, List.map_append, List.map_cons, List.map_nil, List.mem_append,
      List.mem_cons, (extentLocations_perm hx).mem_iff, List.not_mem_nil, or_false]
    tauto
  have hheader : e'.HeaderOk loc := by
    have hle := (hc.space.ok _ (location_mem_owned hx _)).header_le hcfg
    have hold := h.sound.headers id x hx
    have hread : e'.devRead loc.tier loc.offset.toNat headerSize.toNat =
        e.devRead x.location.tier x.location.offset.toNat headerSize.toNat := by
      refine devRead_eq_devRead fun j hj => ?_
      rw [he']
      exact hcopy j (by omega)
    unfold HeaderOk at hold ⊢
    rw [hread]
    exact hold
  rw [← he']
  -- The journal sees nothing of it.
  refine h.quiet_memory henv hcfg hc.space ?_ (by rw [he']) (by rw [he']) (by rw [he'])
    fun t i hi => .inl (by rw [he'] at hi; exact hi)
  refine h.sound.spares (by rw [he']) (by rw [he']) (fun l hl => (hown l).mpr (.inr hl))
    (fun l hl => ((hown l).mp hl).elim (fun heq => .inr (heq ▸ hon)) .inl) fun a y hy => ?_
  rw [hent] at hy
  rcases lookup_insert_cases hy with ⟨rfl, rfl⟩ | ⟨-, hy⟩
  · refine .inr ⟨.inl ⟨x, hx⟩, ?_, ?_⟩
    · rw [hloc]
      exact hc.space.held_not_owned
    · rw [hloc]
      exact hheader
  · exact .inl ⟨y, hy, rfl, le_refl _⟩

/-! ## Migration to another tier -/

/-- `migrate_tier` under crashes. -/
theorem migrateTier_durable (henv : env.Lawful) (hcfg : env.ConfigOk) (hst : Stores env e m)
    (h : Durable env e V m) {id : UInt64} {x : ExtentEntry} (hx : e.entries.lookup id = some x)
    (hok : MigrateOk env e id) :
    Quiet env e (e.migrateTier env id x.location.tier (otherTier x.location.tier)).2 V m := by
  have hxok := hst.space.ok _ (location_mem_owned hx [])
  -- The copy goes to the other tier.
  obtain ⟨dst, hdst⟩ : ∃ t, t = otherTier x.location.tier := ⟨_, rfl⟩
  have hdst' : dst = .fast ∨ dst = .slow := by
    rw [hdst]
    unfold otherTier
    split_ifs <;> simp
  unfold Engine.migrateTier
  rw [← hdst]
  -- The extent cannot be moved now.
  cases hb : e.beginMigration id with
  | none => exact h.quiet henv hcfg hst.space
  | some p =>
    obtain ⟨y, e1⟩ := p
    obtain ⟨hy, h1, -, hf1⟩ := beginMigration_spec hst hb
    obtain rfl : x = y := Option.some.inj (hx.symm.trans hy)
    have hq1 : Quiet env e e1 V m :=
      h.beginMigration henv hcfg hst.space hx hf1
    simp only
    -- What is copied is what the extent has.
    obtain ⟨data, hdata⟩ : ∃ d, d = e1.devRead x.location.tier x.location.offset.toNat
      x.location.length.toNat := ⟨_, rfl⟩
    rw [← hdata]
    have hraw : (e1.allocateRaw env dst x.location.length.toNat).1 =
        (e.allocateRaw env dst x.location.length.toNat).1 :=
      allocateRaw_congr (by rw [hf1]) (by rw [hf1]) dst _
    obtain ⟨htook, htiers⟩ := took_allocateRaw henv e1 dst x.location.length.toNat
    have hwant : alignedSize env x.location.length.toNat ≤ 2 ^ 31 := by
      rw [hxok.alignedSize_eq]
      exact hxok.le
    -- There is no room over there, or one piece of it.
    cases hal : e1.allocateRaw env dst x.location.length.toNat with
    | mk l e2 =>
      rw [hal] at htook htiers hraw
      replace htook : Took env e1 e2 _ l := htook
      obtain ⟨h2, -⟩ := h1.took htook hwant fun l' hl' => by
        have := htiers l' hl'
        rcases hdst' with rfl | rfl <;> tauto
      have hq2 := hq1.trans (hq1.durable.took henv hcfg h1.space htook)
      cases l with
      | none => exact hq2.trans (hq2.durable.abortMigration henv hcfg h2.space id)
      | some loc =>
        replace h2 : Content env [loc] (fun _ => 0) e2 m := h2
        have hlok := h2.space.ok loc (by simp [owned])
        have hon := hq1.durable.onDevice hlok htook
        obtain ⟨htier, hlen⟩ := hok x hx loc (by rw [← hdst]; exact hraw.symm)
        rw [← hdst] at htier
        simp only
        cases hw : e2.devWrite env dst loc.offset.toNat data with
        | none =>
          have hq3 := hq2.trans (hq2.durable.abortMigration henv hcfg h2.space id)
          exact hq3.trans (hq3.durable.releaseSource henv hcfg (abortMigration_spec h2 id).1.space hon)
        | some e3 =>
          simp only
          rw [← htier] at hw
          have hdlen : data.length = loc.length.toNat := by rw [hdata, hlen]; simp [devRead]
          obtain ⟨h3, -, hent3, hbyte3⟩ := h2.writeHeld hcfg hdlen hw
          have hq3 := hq2.trans (hq2.durable.writeHeld henv hcfg h2 (by omega) hw)
          have hx3 : e3.entries.lookup id = some { x with migrating := true } := by
            rw [hent3, htook.frame, hf1, AList.lookup_insert]
          have hcopy : ∀ j, j < x.location.length.toNat →
              e3.byteAt loc.tier (loc.offset.toNat + j) =
                e3.byteAt x.location.tier (x.location.offset.toNat + j) := by
            intro j hj
            have hread : e3.byteAt loc.tier (loc.offset.toNat + j) =
                e1.byteAt x.location.tier (x.location.offset.toNat + j) := by
              rw [hdata] at hw
              refine devWrite_devRead hw (fun hfast => ?_) (by rw [htier]; exact hdst') hj
              have := superblock_le hlok (le_refl _) hfast
              have := hcfg.journal
              omega
            have hsame : e2.byteAt x.location.tier (x.location.offset.toNat + j) =
                e1.byteAt x.location.tier (x.location.offset.toNat + j) := by
              rw [htook.frame]
              rfl
            rw [hread, hbyte3 _ _ (by have := hxok.area; tauto) (superblock_le hxok (by omega)),
              hsame]
            intro hc
            exact h3.space.apart_held hx3 _ _ hc ⟨rfl, Nat.le_add_right _ _, by simp only; omega⟩
          obtain ⟨hcm, -⟩ := commitMigration_spec h3 hx3 hlen hcopy
          have hq4 := hq3.trans (hq3.durable.commitMigration henv hcfg h3 hx3 hon hcopy)
          cases hc : e3.commitMigration id x.generation loc with
          | mk b e4 =>
            rw [hc] at hcm hq4
            obtain rfl : b = true := hcm
            exact hq4

/-! ## Compaction -/

/-- The copy loop under crashes. -/
theorem compactCopy_durable (henv : env.Lawful) (hcfg : env.ConfigOk) {id newId : UInt64}
    {x : ExtentEntry} {new : DiskLocation} {r : Option (List (Key × KeyLocation))} :
    ∀ (ks : List Key) (res : UInt64 → ℕ) (e e' : Engine), Content env [] res e m →
      Durable env e V m → Copying e id newId x new →
      (∀ k ∈ ks, ∃ kl, e.keyMap k = some kl ∧ kl.extentId = id) →
      compactCopy env x.location new newId ks e = (r, e') → Quiet env e e' V m
  | [], res, e, e', h, hd, hc, hks, hr => by
    obtain ⟨rfl, rfl⟩ := Prod.mk.inj hr
    exact hd.quiet henv hcfg h.space
  | k :: ks, res, e, e', h, hd, hc, hks, hr => by
    obtain ⟨kl, hkl, hid⟩ := hks k (List.mem_cons_self ..)
    obtain ⟨v, hv, y, hy, hylen, hpos, hread⟩ := h.slot k kl hkl
    obtain rfl : x = y := by
      rw [hid] at hy
      exact Option.some.inj (hc.old.symm.trans hy)
    -- The extent that is being filled.
    obtain ⟨n, hn, hnloc⟩ := hc.fresh
    obtain ⟨hfit, -⟩ := h.space.used _ _ hy
    have hle := (h.space.ok _ (location_mem_owned hy [])).le
    have hsize : kl.length.toNat ≤ 2 ^ 31 := by omega
    have hvlen : v.length = kl.length.toNat := by rw [← hread]; simp [devRead]
    unfold compactCopy at hr
    simp only [hkl, Option.getD_some] at hr
    rw [show e.devRead x.location.tier
      (x.location.offset.toNat + headerSize.toNat + kl.offset.toNat) kl.length.toNat = v from hread]
      at hr
    -- The slot cannot be had, or the value is copied into it.
    cases happ : e.appendSlot newId kl.length with
    | mk off e1 =>
      rw [happ] at hr
      simp only at hr
      have hcase := h.appendSlot hcfg hsize happ
      split_ifs at hr with hno
      · obtain ⟨rfl, rfl⟩ := Prod.mk.inj hr
        rcases hcase with ⟨-, rfl⟩ | ⟨hne, -⟩
        · exact hd.quiet henv hcfg h.space
        · exact absurd hno hne
      · obtain ⟨h1, -, z, z', hz, hzloc, -, hused, hf1⟩ :=
          (hcase.resolve_left (fun hn => hno hn.1)).2
        cases hw : e1.devWrite env x.location.tier
            (new.offset.toNat + headerSize.toNat + off.toNat) v with
        | none =>
          simp only [hw, Prod.mk.injEq] at hr
          obtain ⟨rfl, rfl⟩ := hr
          exact hd.setEntry henv hcfg h.space hz hf1 hzloc (by omega)
        | some e2 =>
          simp only [hw] at hr
          rw [← hc.tier, ← hnloc] at hw
          have hq2 := hd.writeSlot henv hcfg h hsize hn happ hno hvlen hw
          obtain ⟨h2, hk2, -, -, -, -⟩ := h.writeSlot hcfg hpos hsize hn happ hno hvlen hw
          have hent2 : e2.entries = e.entries.insert newId z' := by
            rw [(devWrite_frame hw).1, hf1]
          have hc2 : Copying e2 id newId x new := by
            refine ⟨hc.ne, ?_, ⟨z', ?_, ?_⟩, hc.tier⟩
            · rw [hent2, AList.lookup_insert_ne hc.ne, hc.old]
            · rw [hent2, AList.lookup_insert]
            · rw [hzloc, ← Option.some.inj (hn.symm.trans hz), hnloc]
          have hks2 : ∀ k ∈ ks, ∃ kl, e2.keyMap k = some kl ∧ kl.extentId = id := by
            intro k' hk'
            rw [hk2.keyMap]
            exact hks k' (List.mem_cons_of_mem _ hk')
          cases hrec : compactCopy env x.location new newId ks e2 with
          | mk r3 e3 =>
            have hq3 := compactCopy_durable henv hcfg ks _ e2 e3 h2 hq2.durable hc2 hks2 hrec
            rw [hrec] at hr
            cases r3 with
            | none =>
              obtain ⟨rfl, rfl⟩ := Prod.mk.inj hr
              exact hq2.trans hq3
            | some us3 =>
              obtain ⟨rfl, rfl⟩ := Prod.mk.inj hr
              exact hq2.trans hq3

/-- `batch_update` is about the key map. -/
theorem batchUpdate_frame (us : List (Key × KeyLocation)) (e : Engine) :
    e.batchUpdate us = { e with
      keyMap := (e.batchUpdate us).keyMap
      reverseIndex := (e.batchUpdate us).reverseIndex } := by
  induction us generalizing e with
  | nil => rfl
  | cons u us ih =>
    rw [show e.batchUpdate (u :: us) = (e.keyPut u.1 u.2).batchUpdate us from rfl, ih]
    rfl

/-- Keys that are not updated stay. -/
theorem batchUpdate_keyMap_of_not_mem {us : List (Key × KeyLocation)} {k : Key}
    (hk : k ∉ us.map Prod.fst) : (e.batchUpdate us).keyMap k = e.keyMap k := by
  induction us generalizing e with
  | nil => rfl
  | cons u us ih =>
    rw [List.map_cons, List.mem_cons, not_or] at hk
    rw [show e.batchUpdate (u :: us) = (e.keyPut u.1 u.2).batchUpdate us from rfl, ih hk.2,
      keyPut_keyMap, Function.update_of_ne hk.1]

/-- The commit of a compaction under crashes: the keys of an extent get other slots, and the extent
goes. -/
theorem Durable.batchUpdate (henv : env.Lawful) (hcfg : env.ConfigOk) (hsp : Space env held e)
    (h : Durable env e V m) {us : List (Key × KeyLocation)} {id : UInt64}
    (hus : ∀ k ∈ us.map Prod.fst, ∃ kl, e.keyMap k = some kl ∧ kl.extentId = id) :
    Quiet env e ((e.batchUpdate us).freeExtent id) V m := by
  have hf1 := batchUpdate_frame us e
  have hf2 := freeExtent_frame (e.batchUpdate us) id
  have hown : ∀ l, l ∈ owned [] ((e.batchUpdate us).freeExtent id) ↔ l ∈ owned [] e := by
    intro l
    rw [owned_freeExtent, hf1]
    rfl
  have hent : ∀ a y, ((e.batchUpdate us).freeExtent id).entries.lookup a = some y →
      a ≠ id ∧ e.entries.lookup a = some y := by
    intro a y hy
    rw [hf2, hf1] at hy
    by_cases ha : a = id
    · subst ha
      rw [AList.lookup_erase] at hy
      cases hy
    · rw [AList.lookup_erase_ne ha] at hy
      exact ⟨ha, hy⟩
  refine h.quiet_memory henv hcfg hsp ⟨?_, ?_, ?_, ?_, ?_⟩ ?_ ?_ ?_ fun t i hi => .inl ?_
  · rw [hf2, hf1]
  · exact fun _ _ loc _ _ hloc => (hown loc).mpr hloc
  · exact fun loc hloc => .inl ((hown loc).mp hloc)
  · exact fun a y hy => .inl ⟨a, y, (hent a y hy).2, rfl, le_refl _⟩
  · intro k kl y hk hy
    obtain ⟨hne, hy⟩ := hent _ _ hy
    have hmap := h.sound.tracks k kl y hk hy
    have hnot : k ∉ us.map Prod.fst := by
      intro hin
      obtain ⟨kl', hkl', hid⟩ := hus k hin
      rw [hmap] at hkl'
      exact hne (Option.some.inj hkl' ▸ hid)
    rw [show ((e.batchUpdate us).freeExtent id).keyMap = (e.batchUpdate us).keyMap by rw [hf2],
      batchUpdate_keyMap_of_not_mem hnot]
    exact hmap
  · rw [hf2, hf1]
  · rw [hf2, hf1]
  · rw [hf2, hf1]
  · rw [hf2, hf1] at hi
    exact hi

/-- `compact` under crashes. -/
theorem compact_durable (henv : env.Lawful) (hcfg : env.ConfigOk) (hst : Stores env e m)
    (h : Durable env e V m) {id : UInt64} (hok : CompactOk env e id) :
    Quiet env e (e.compact env id).2 V m := by
  unfold Engine.compact
  -- The extent cannot be compacted now.
  cases hb : e.beginMigration id with
  | none => exact h.quiet henv hcfg hst.space
  | some p =>
    obtain ⟨x, e1⟩ := p
    obtain ⟨hx, h1, hk1, hf1⟩ := beginMigration_spec hst hb
    have hq1 : Quiet env e e1 V m :=
      h.beginMigration henv hcfg hst.space hx hf1
    have hxok := hst.space.ok _ (location_mem_owned hx [])
    -- The keys that have a slot in it.
    obtain ⟨keys, hkeys⟩ : ∃ ks, ks = e1.keysInExtent env id := ⟨_, rfl⟩
    have hperm : keys.Perm (e1.reverseIndex id) := hkeys ▸ henv.keys _ _
    simp only [← hkeys]
    split_ifs with hnil
    · exact hq1.trans (hq1.durable.freeExtent henv hcfg h1.space id)
    -- Its copy has a new extent.
    · cases hal : e1.allocateExtent env x.location.tier x.location.length.toNat with
      | mk l e2 =>
        have hn1 : e1.nextExtentId = e.nextExtentId := by rw [hf1]
        have htier : x.location.tier = .fast ∨ x.location.tier = .slow := by
          have := hxok.area
          tauto
        have hwant : alignedSize env x.location.length.toNat ≤ 2 ^ 31 := by
          rw [hxok.alignedSize_eq]
          exact hxok.le
        have hnext : e1.nextExtentId.toNat + 1 < 2 ^ 64 := by rw [hn1]; exact hok.1
        obtain ⟨h2, hk2, hcase⟩ := h1.allocateExtent henv hcfg htier hwant hnext rfl hal
        have hq2 := hq1.trans (hq1.durable.allocateExtent henv hcfg h1 htier hwant hnext hal)
        rcases hcase with ⟨rfl, -, -⟩ | ⟨loc, rfl, hraw, -, hent2⟩
        · exact hq2.trans (hq2.durable.abortMigration henv hcfg h2.space id)
        · simp only
          have hraw' : (e.allocateRaw env x.location.tier x.location.length.toNat).1 = some loc := by
            rw [← hraw]
            exact (allocateRaw_congr (by rw [hf1]) (by rw [hf1]) _ _).symm
          have hnone := h1.space.lookup_next
          have hx1 : e1.entries.lookup id = some { x with migrating := true } := by
            rw [hf1, AList.lookup_insert]
          have hne : id ≠ e1.nextExtentId := by
            rintro heq
            rw [← heq, hx1] at hnone
            cases hnone
          have hc2 : Copying e2 id e1.nextExtentId { x with migrating := true } loc := by
            refine ⟨hne, ?_, ⟨{ location := loc }, ?_, rfl⟩, hok.2 x hx loc hraw'⟩
            · rw [hent2, AList.lookup_insert_ne hne, hx1]
            · rw [hent2, AList.lookup_insert]
          have hks : ∀ k ∈ keys, ∃ kl, e2.keyMap k = some kl ∧ kl.extentId = id := by
            intro k hk
            rw [hk2.keyMap]
            exact (h1.indexed.mem k id).mp (hperm.mem_iff.mp hk)
          cases hcopy : compactCopy env x.location loc e1.nextExtentId keys e2 with
          | mk us e3 =>
            obtain ⟨res3, h3, hk3, hus⟩ := compactCopy_spec hcfg keys _ e2 e3 h2 hc2 hks hcopy
            have hq3 := hq2.trans
              (compactCopy_durable henv hcfg keys _ e2 e3 h2 hq2.durable hc2 hks hcopy)
            -- When the copy is given up, the new extent goes.
            have hfail : Quiet env e ((e3.abortMigration id).freeExtent e1.nextExtentId) V m := by
              have hq4 := hq3.trans (hq3.durable.abortMigration henv hcfg h3.space id)
              exact hq4.trans
                (hq4.durable.freeExtent henv hcfg (abortMigration_spec h3 id).1.space _)
            cases us with
            | none => exact hfail
            | some us =>
              simp only
              split_ifs
              · obtain ⟨hmap, -, -⟩ := hus us rfl
                refine hq3.trans (hq3.durable.batchUpdate henv hcfg h3.space fun k hk => ?_)
                rw [hmap] at hk
                rw [hk3.keyMap]
                exact hks k hk
              · exact hfail

end

end Engine

end CxxLab.Btier
