import CxxLab.Btier.CrashCalls

/-!
# Put and del under crashes

A `put` may note new extents in the journal, writes the value, and commits it with one transaction.
Until that transaction's superblock is written a crash yields the old content, and from then on the
new one.
-/

namespace CxxLab.Btier

open Engine

namespace Engine

section

variable {env : Env} {held : List DiskLocation} {res : UInt64 → ℕ} {e e' e1 e2 : Engine}
  {m m' : Key → Option Value} {V V' V1 V2 : View}

/-! ## New extents -/

/-- The length of the transaction of a new extent. -/
def extentTxnLength : ℕ := 52

/-- On the way from `e` to `e'`, `n` new extents were noted in the journal. -/
structure Noted (env : Env) (e e' : Engine) (V V' : View) (m : Key → Option Value) (n : ℕ) :
    Prop where
  /-- The devices hold the content under the view with the new extents. -/
  durable : Durable env e' V' m
  /-- Every crash yields the content. -/
  trail : Trail (Yields env m) e e'
  /-- The notes have taken their room. -/
  room : ∀ lens, e.HasRoom (List.replicate n extentTxnLength ++ lens) → e'.HasRoom lens ∧
    e'.usedBy lens = e.usedBy (List.replicate n extentTxnLength ++ lens)

/-- A quiet step notes nothing. -/
theorem Quiet.noted (h : Quiet env e e' V m) : Noted env e e' V V m 0 :=
  ⟨h.durable, h.trail, fun lens hr => h.room lens hr⟩

/-- Extents that are noted one after the other. -/
theorem Noted.trans {n1 n2 : ℕ} (h1 : Noted env e e1 V V1 m n1) (h2 : Noted env e1 e2 V1 V2 m n2) :
    Noted env e e2 V V2 m (n1 + n2) := by
  refine ⟨h2.durable, h1.trail.trans h2.trail, fun lens hr => ?_⟩
  rw [List.replicate_add, List.append_assoc] at hr ⊢
  obtain ⟨hr1, hu1⟩ := h1.room _ hr
  obtain ⟨hr2, hu2⟩ := h2.room _ hr1
  exact ⟨hr2, hu2.trans hu1⟩

/-- The data area is on the device. -/
theorem Durable.dataSize_le (h : Durable env e V m) (hj : JournalReady env e.journal) :
    e.journal.dataSize ≤ e.journal.dev.capacity := by
  have h1 := hj.dataSize
  have h2 := h.sized.capacity
  have h3 := h.sized.journal_le
  omega

/-- `put_allocate_new_extent` notes the extent that it makes. -/
theorem putAllocateNewExtent_noted (henv : env.Lawful) (hcfg : env.ConfigOk) (hst : Stores env e m)
    (h : Durable env e V m) {size : ℕ} {st : Status} {id : UInt64} {loc : DiskLocation}
    (hwant : size + env.blockSize ≤ 2 ^ 31) (hnext : e.nextExtentId.toNat + 1 < 2 ^ 64)
    (hroom : e.HasRoom [extentTxnLength])
    (hr : e.putAllocateNewExtent env .fast size = (st, id, loc, e')) :
    (st ≠ .ok → Quiet env e e' V m) ∧ (st = .ok → Noted env e e' V
      { V with extents := Function.update V.extents id (some loc) } m 1) := by
  have hwant' := (alignedSize_le env size).trans hwant
  unfold putAllocateNewExtent at hr
  -- The extent is there before its transaction is written.
  cases hal : e.allocateExtent env .fast size with
  | mk r e1 =>
    obtain ⟨h1, hk1, hcase⟩ := hst.allocateExtent henv hcfg (.inl rfl) hwant' hnext rfl hal
    have hq1 := h.allocateExtent henv hcfg hst (.inl rfl) hwant' hnext hal
    rw [hal] at hr
    rcases hcase with ⟨rfl, -, -⟩ | ⟨loc', rfl, -, hn1, hent1⟩
    · simp only [Prod.mk.injEq] at hr
      obtain ⟨rfl, -, -, rfl⟩ := hr
      exact ⟨fun _ => hq1, by simp⟩
    -- The transaction has one record, which names the extent.
    · obtain ⟨rs, hrs⟩ : ∃ rs : List JournalRecord,
        rs = [{ op := .extentNew, extentId := e.nextExtentId, extentLoc := loc' }] := ⟨_, rfl⟩
      have hlen : 22 + (serializeRecords rs).length = extentTxnLength := by
        rw [hrs]
        simp [serializeRecords, length_serializeRecord, serializeFields, putDiskLocation,
          extentTxnLength]
      have hx1 : e1.entries.lookup e.nextExtentId = some { location := loc' } := by
        rw [hent1, AList.lookup_insert]
      have hstorable : ∀ r ∈ rs, r.Storable := by
        rw [hrs]
        intro r hr
        obtain rfl := List.mem_singleton.mp hr
        refine ⟨by rfl, by simp, ?_⟩
        have := (h1.space.ok _ (location_mem_owned hx1 [])).area
        simp only at this
        tauto
      have hf := (hq1.room _ hroom).1.1
      rw [← hlen] at hf
      obtain ⟨e2, bl, htxn, hbl, hc, hused⟩ := journalTxn_committed hq1.durable.carries h1.journal
        (hq1.durable.dataSize_le h1.journal) hstorable hf
      rw [hlen] at hbl
      have hpos : 0 < bl.length := by rw [hbl]; decide
      simp only [putPreTransactionExtent, ← hrs, htxn, Prod.mk.injEq] at hr
      obtain ⟨rfl, rfl, rfl, rfl⟩ := hr
      refine ⟨by simp, fun _ => ?_⟩
      have hstep := hc.journalStep hpos h1.journal
      have h2 := h1.journalStep hstep
      have hnone : V.extents e.nextExtentId = none := by
        by_contra hne
        exact absurd (h.sound.older _ hne) (lt_irrefl _)
      have hs2 : Sound e2
          { V with extents := Function.update V.extents e.nextExtentId (some loc') } m := by
        refine (hq1.durable.sound.journalStep hcfg h1.space h1.journal hstep).extentNew hnone ?_
        rw [hstep.frame]
        simp only [hn1]
        omega
      have hview : rs.foldl View.apply V =
          { V with extents := Function.update V.extents e.nextExtentId (some loc') } := by
        rw [hrs]
        rfl
      rw [hview] at hc
      obtain ⟨hd2, ht2⟩ := hq1.durable.commit henv hcfg h1.space h1.journal hpos hc h2.space hs2
        rfl rfl rfl rfl rfl
      refine ⟨hd2, hq1.trail.trans (ht2.mono fun d hd => hd.elim (fun h => h) fun h => h), ?_⟩
      intro lens hr
      obtain ⟨hr1, hu1⟩ := hq1.room _ hr
      rw [List.replicate_one, List.singleton_append, ← hbl] at hr1 hu1 ⊢
      obtain ⟨hr2, hu2⟩ := hc.room hpos hused hr1
      exact ⟨hr2, hu2.trans hu1⟩

/-- The data write says where it went. -/
theorem putWriteSlot_ctx {value : Value} {ctx ctx' : PutWriteResult} {st : Status}
    (hr : e.putWriteSlot env value ctx = (st, ctx', e')) : ctx' = ctx := by
  unfold putWriteSlot at hr
  split at hr
  · simp only [Prod.mk.injEq] at hr
    exact hr.2.1.symm
  · simp only [Prod.mk.injEq] at hr
    exact hr.2.1.symm

/-- The data write of `put_write_data`. -/
theorem putWriteSlot_quiet (henv : env.Lawful) (hcfg : env.ConfigOk) (hst : Stores env e m)
    (h : Durable env e V m) {value : Value} {ctx ctx' : PutWriteResult} {x : ExtentEntry}
    {st : Status} (hsize : value.length ≤ 2 ^ 31) (hx : e.entries.lookup ctx.target = some x)
    (hloc : ctx.extentLoc = x.location)
    (happ : e.appendSlot ctx.target (UInt32.ofNat value.length) = (ctx.offset, e1))
    (hoff : ctx.offset ≠ noSlot) (hr : e1.putWriteSlot env value ctx = (st, ctx', e')) :
    Quiet env e e' V m ∧ (st = .ok → ∃ y, e'.entries.lookup ctx.target = some y ∧
      y.location = x.location) := by
  have hs := toNat_ofNat_length hsize
  have hsize' : (UInt32.ofNat value.length).toNat ≤ 2 ^ 31 := by rw [hs]; exact hsize
  obtain ⟨h1, -, y, x', hy, hlocx, -, hused, hf1⟩ :=
    ((hst.appendSlot hcfg hsize' happ).resolve_left fun hno => hoff hno.1).2
  unfold putWriteSlot at hr
  cases hw : e1.devWrite env ctx.extentLoc.tier
      (ctx.extentLoc.offset.toNat + headerSize.toNat + ctx.offset.toNat) value with
  | some e2 =>
    simp only [hw, Prod.mk.injEq] at hr
    obtain ⟨rfl, rfl, rfl⟩ := hr
    rw [hloc] at hw
    refine ⟨h.writeSlot henv hcfg hst hsize' hx happ hoff hs.symm hw, fun _ => ⟨x', ?_, ?_⟩⟩
    · rw [(devWrite_frame hw).1, hf1, AList.lookup_insert]
    · obtain rfl : x = y := Option.some.inj (hx.symm.trans hy)
      exact hlocx
  | none =>
    simp only [hw, Prod.mk.injEq] at hr
    obtain ⟨rfl, -, rfl⟩ := hr
    refine ⟨?_, by simp⟩
    have hq1 : Quiet env e e1 V m :=
      h.setEntry henv hcfg hst.space hy hf1 hlocx (by omega)
    split_ifs
    · exact hq1.trans (hq1.durable.freeExtent henv hcfg h1.space _)
    · exact hq1.trans (hq1.durable.markDeadSlot henv hcfg h1.space _ _)

/-- What `put_write_data` has done when it succeeds: the view has the extent of the slot. -/
def Placed (e' : Engine) (V' : View) (ctx : PutWriteResult) : Prop :=
  ∃ x, e'.entries.lookup ctx.target = some x ∧ V'.extents ctx.target = some x.location

/-- A fresh extent and a slot in it. -/
theorem putNewExtent_noted (henv : env.Lawful) (hcfg : env.ConfigOk) (hst : Stores env e m)
    (h : Durable env e V m) {value : Value} {size : ℕ} {ctx : PutWriteResult} {st : Status}
    (hsize : value.length ≤ 2 ^ 31) (hwant : size + env.blockSize ≤ 2 ^ 31)
    (hnext : e.nextExtentId.toNat + 1 < 2 ^ 64) (hroom : e.HasRoom [extentTxnLength])
    (hr : e.putNewExtent env value size = (st, ctx, e')) :
    ∃ V' n, n ≤ 1 ∧ Noted env e e' V V' m n ∧ (st = .ok → Placed e' V' ctx) := by
  unfold putNewExtent at hr
  cases hal : e.putAllocateNewExtent env .fast size with
  | mk st1 r =>
    obtain ⟨id, loc, e1⟩ := r
    obtain ⟨h1, -, -, hok⟩ := putAllocateNewExtent_spec henv hcfg hst hwant hnext hal
    obtain ⟨hbad, hgood⟩ := putAllocateNewExtent_noted henv hcfg hst h hwant hnext hroom hal
    rw [hal] at hr
    cases st1 with
    | ok =>
      obtain ⟨hnone, hent⟩ := hok rfl
      have hn := hgood rfl
      have hx1 : e1.entries.lookup id = some { location := loc } := by
        rw [hent, AList.lookup_insert]
      simp only at hr
      cases happ : e1.appendSlot id (UInt32.ofNat value.length) with
      | mk off e2 =>
        rw [happ] at hr
        simp only at hr
        split_ifs at hr with hno
        · simp only [Prod.mk.injEq] at hr
          obtain ⟨rfl, -, rfl⟩ := hr
          have hs := toNat_ofNat_length hsize
          rcases h1.appendSlot hcfg (by rw [hs]; exact hsize) happ with ⟨-, rfl⟩ | ⟨hne, -⟩
          · exact ⟨_, 1, le_refl _, hn.trans (hn.durable.freeExtent henv hcfg h1.space id).noted,
              by simp⟩
          · exact absurd hno hne
        · have hctx := putWriteSlot_ctx hr
          obtain ⟨hq, hplace⟩ := putWriteSlot_quiet henv hcfg h1 hn.durable hsize hx1 rfl happ hno hr
          refine ⟨_, 1, le_refl _, hn.trans hq.noted, fun hst => ?_⟩
          obtain ⟨y, hy, hyl⟩ := hplace hst
          subst hctx
          exact ⟨y, hy, by rw [hyl]; exact Function.update_self ..⟩
    | _ =>
      simp only [Prod.mk.injEq] at hr
      obtain ⟨rfl, rfl, rfl⟩ := hr
      exact ⟨V, 0, Nat.zero_le _, (hbad (by simp)).noted, by simp⟩

/-- What `put_write_data` does to the journal: the extent of the slot is in the view, when the one
that is found is. -/
theorem putWriteData_noted (henv : env.Lawful) (hcfg : env.ConfigOk) (hst : Stores env e m)
    (h : Durable env e V m) {value : Value} {ctx : PutWriteResult} {st : Status} {len : ℕ}
    (hsize : value.length + headerSize.toNat + env.blockSize ≤ 2 ^ 31)
    (hnext : e.nextExtentId.toNat + 2 < 2 ^ 64)
    (hroom : ∀ n ≤ 2, e.HasRoom (List.replicate n extentTxnLength ++ [len]))
    (htarget : (UInt32.ofNat value.length).toNat < env.largeValueThreshold →
      ∀ x, e.entries.lookup (e.findExtentWithSpace .fast (UInt32.ofNat value.length)) = some x →
        V.extents (e.findExtentWithSpace .fast (UInt32.ofNat value.length)) = some x.location)
    (hr : e.putWriteData env value = (st, ctx, e')) :
    ∃ V' n, n ≤ 2 ∧ Noted env e e' V V' m n ∧ (st = .ok → Placed e' V' ctx) := by
  have hlen : value.length ≤ 2 ^ 31 := by omega
  have hs := toNat_ofNat_length hlen
  have hs31 : (UInt32.ofNat value.length).toNat ≤ 2 ^ 31 := by rw [hs]; exact hlen
  have hroom1 : e.HasRoom [extentTxnLength] := Journal.Room.left (hroom 1 (by omega))
  -- One fresh extent, whatever came of it.
  have hone : ∀ {size : ℕ}, size + env.blockSize ≤ 2 ^ 31 →
      e.putNewExtent env value size = (st, ctx, e') →
      ∃ V' n, n ≤ 2 ∧ Noted env e e' V V' m n ∧ (st = .ok → Placed e' V' ctx) := by
    intro size hwant hr
    obtain ⟨V', n, hle, hn, hok⟩ :=
      putNewExtent_noted henv hcfg hst h hlen hwant (by omega) hroom1 hr
    exact ⟨V', n, by omega, hn, hok⟩
  obtain ⟨found, hfound⟩ : ∃ i, i = e.findExtentWithSpace .fast (UInt32.ofNat value.length) :=
    ⟨_, rfl⟩
  unfold putWriteData at hr
  simp only [← hfound] at hr
  rcases em ((UInt32.ofNat value.length).toNat ≥ env.largeValueThreshold) with hlarge | hsmall
  · -- A large value has an extent of its own.
    rw [if_pos hlarge] at hr
    have hadd : (UInt32.ofNat value.length + headerSize).toNat =
        value.length + headerSize.toNat := by
      rw [UInt32.toNat_add, hs]
      exact Nat.mod_eq_of_lt (by omega)
    exact hone (by rw [hadd]; exact hsize) hr
  rw [if_neg hsmall] at hr
  rcases em (found = noExtent) with hno | hsome
  · -- No extent has room.
    rw [if_pos hno] at hr
    cases hal : e.putAllocateNewExtent env .fast env.extentSize with
    | mk st1 r =>
      obtain ⟨id, loc, e1⟩ := r
      obtain ⟨h1, -, hn1, hok⟩ := putAllocateNewExtent_spec henv hcfg hst hcfg.extent (by omega) hal
      obtain ⟨hbad, hgood⟩ :=
        putAllocateNewExtent_noted henv hcfg hst h hcfg.extent (by omega) hroom1 hal
      rw [hal] at hr
      cases st1 with
      | ok =>
        obtain ⟨hnone, hent⟩ := hok rfl
        have hn := hgood rfl
        have hx1 : e1.entries.lookup id = some { location := loc } := by
          rw [hent, AList.lookup_insert]
        simp only at hr
        cases happ : e1.appendSlot id (UInt32.ofNat value.length) with
        | mk off e2 =>
          rw [happ] at hr
          simp only at hr
          split_ifs at hr with hno
          · -- Nor has the new one, and there is one more try.
            rcases h1.appendSlot hcfg hs31 happ with ⟨-, rfl⟩ | ⟨hne, -⟩
            · have hq := hn.durable.freeExtent henv hcfg h1.space id
              have hempty : e2.reverseIndex id = [] := by
                have := (putAllocateNewExtent_spec henv hcfg hst hcfg.extent (by omega) hal).2.1
                rw [this.reverseIndex]
                exact hst.no_keys hnone
              have h2 := (h1.freeExtent hempty fun _ _ => le_refl 0).1
              have hr2 : (e2.freeExtent id).HasRoom [extentTxnLength] := by
                refine (hq.room _ (hn.room [extentTxnLength] ?_).1).1
                exact Journal.Room.left (hroom 2 (by omega))
              obtain ⟨V', n, hle, hn', hplace⟩ := putNewExtent_noted henv hcfg h2 hq.durable hlen
                hcfg.extent (by rw [freeExtent_frame e2 id]; simp only; omega) hr2 hr
              refine ⟨V', 1 + 0 + n, by omega, (hn.trans hq.noted).trans hn', hplace⟩
            · exact absurd hno hne
          · have hctx := putWriteSlot_ctx hr
            obtain ⟨hq, hplace⟩ :=
              putWriteSlot_quiet henv hcfg h1 hn.durable hlen hx1 rfl happ hno hr
            refine ⟨_, 1, by omega, hn.trans hq.noted, fun hst => ?_⟩
            obtain ⟨y, hy, hyl⟩ := hplace hst
            subst hctx
            exact ⟨y, hy, by rw [hyl]; exact Function.update_self ..⟩
      | _ =>
        simp only [Prod.mk.injEq] at hr
        obtain ⟨rfl, rfl, rfl⟩ := hr
        exact ⟨V, 0, by omega, (hbad (by simp)).noted, by simp⟩
  · -- An extent has room.
    rw [if_neg hsome] at hr
    have hquiet := h.quiet henv hcfg hst.space
    cases hx : e.entries.lookup found with
    | none =>
      rw [← hfound, hx, Prod.mk.injEq, Prod.mk.injEq] at hr
      obtain ⟨rfl, rfl, rfl⟩ := hr
      exact ⟨V, 0, by omega, hquiet.noted, by simp⟩
    | some x =>
      rw [← hfound, hx] at hr
      simp only at hr
      cases happ : e.appendSlot found (UInt32.ofNat value.length) with
      | mk off e1 =>
        rw [happ] at hr
        simp only at hr
        split_ifs at hr with hno
        · rcases hst.appendSlot hcfg hs31 happ with ⟨-, rfl⟩ | ⟨hne, -⟩
          · exact hone hcfg.extent hr
          · exact absurd hno hne
        · have hctx := putWriteSlot_ctx hr
          obtain ⟨hq, hplace⟩ := putWriteSlot_quiet henv hcfg hst h hlen hx rfl happ hno hr
          refine ⟨V, 0, by omega, hq.noted, fun hst => ?_⟩
          obtain ⟨y, hy, hyl⟩ := hplace hst
          have hext := htarget (by omega) x (by rw [← hfound]; exact hx)
          rw [← hfound] at hext
          subst hctx
          exact ⟨y, hy, by rw [hyl]; exact hext⟩

/-! ## Checkpoints -/

/-- A checkpoint that fits beside the log makes the memory the view. -/
theorem checkpoint_durable (henv : env.Lawful) (hcfg : env.ConfigOk) (hst : Stores env e m)
    (h : Durable env e V m) (hshort : ∀ k v, m k = some v → k.length < 2 ^ 32)
    (hf : e.journal.Fits e.journal.getUsedBytes (31 + e.stateLength)) :
    Stores env (e.checkpoint env) m ∧ Durable env (e.checkpoint env) e.memoryView m ∧
      Trail (Yields env m) e (e.checkpoint env) ∧ JournalStep e (e.checkpoint env) ∧
      ∀ lens, (e.journal.advance (31 + e.stateLength)).Room
        (e.journal.skipped (Journal.padded (31 + e.stateLength)) +
          Journal.padded (31 + e.stateLength)) lens →
        (e.checkpoint env).HasRoom lens ∧ (e.checkpoint env).usedBy lens =
          (e.journal.advance (31 + e.stateLength)).usedAfter
            (e.journal.skipped (Journal.padded (31 + e.stateLength)) +
              Journal.padded (31 + e.stateLength)) lens := by
  have hstate := length_buildCheckpointState (e := e) henv
  rw [← hstate] at hf ⊢
  obtain ⟨bl, hbl, hc, hused⟩ := checkpoint_committed h.carries hst.journal
    (h.dataSize_le hst.journal) (hst.storable henv hshort) hf
  rw [← hbl] at hf ⊢
  have hpos : 0 < bl.length := by omega
  rw [hst.after_buildCheckpointState henv] at hc
  have hstep := hc.journalStep hpos hst.journal
  have h1 := hst.journalStep hstep
  have hs1 := h.sound.journalStep hcfg hst.space hst.journal hstep
  have hview : (e.checkpoint env).memoryView = e.memoryView := by rw [hstep.frame]; rfl
  have hs2 : Sound (e.checkpoint env) e.memoryView m := by
    rw [← hview]
    exact h1.sound_memoryView hs1.headers
  obtain ⟨hd, ht⟩ := h.commit henv hcfg hst.space hst.journal hpos hc h1.space hs2 rfl rfl rfl rfl rfl
  refine ⟨h1, hd, ht.mono fun d hd => hd.elim (fun h => h) fun h => h, hstep, fun lens hr => ?_⟩
  have hsame := hc.wrote.sameHead hpos (hf.mono (Nat.zero_le _))
  rw [Nat.zero_add] at hsame
  unfold HasRoom usedBy
  rw [hused]
  exact hsame.room hr

/-! ## Put -/

/-- The records that recovery would find now. -/
def recovered (e : Engine) : List JournalRecord :=
  ((Journal.create e.journal.dev e.journal.devSize).recover).getD []

/-- What they say. -/
def view (e : Engine) : View := View.after e.recovered

/-- The view is what the journal carries. -/
theorem Durable.view_eq (h : Durable env e V m) : e.view = V := by
  obtain ⟨l, hl, hV⟩ := h.carries
  unfold view recovered
  rw [hl.recover]
  exact hV

/-- The length of a `put`'s transaction. -/
def putTxnLength (e : Engine) (k : Key) : ℕ :=
  22 + (serializeRecords (putRecords k (e.keyMap k) {})).length

/-- The journal that the transactions of a `put` find, with its used bytes: that of the call, or the
one after the checkpoint of the first phase. -/
def putJournal (env : Env) (e : Engine) : Journal × ℕ :=
  if env.isNearFull e.journal.getUsedBytes e.journal.dataSize then
    (e.journal.advance (31 + e.stateLength),
      e.journal.skipped (Journal.padded (31 + e.stateLength)) + Journal.padded (31 + e.stateLength))
  else (e.journal, e.journal.getUsedBytes)

/-- The conditions under which a `put` is durable when it returns: on top of those under which it
does what it is for, the journal has room for up to two new extents and the key, this does not fill
it so far that the fourth phase makes a checkpoint, and an extent that is used again is in the
journal where it is. -/
structure PutSafe (env : Env) (e : Engine) (k : Key) (value : Value) : Prop where
  /-- The value can be put. -/
  ok : PutOk env e k value
  /-- The key's length is not cut. -/
  key : k.length < 2 ^ 32
  /-- The checkpoint of the first phase fits beside the log. -/
  full : env.isNearFull e.journal.getUsedBytes e.journal.dataSize →
    e.journal.Fits e.journal.getUsedBytes (31 + e.stateLength)
  /-- There is room for the transactions. -/
  room : ∀ n ≤ 2, (e.putJournal env).1.Room (e.putJournal env).2
    (List.replicate n extentTxnLength ++ [e.putTxnLength k])
  /-- The fourth phase makes no checkpoint. -/
  noCheckpoint : ∀ n ≤ 2, env.needsCheckpoint ((e.putJournal env).1.usedAfter (e.putJournal env).2
    (List.replicate n extentTxnLength ++ [e.putTxnLength k])) e.journal.dataSize = false
  /-- The extent that a small value goes to is in the journal where it is. -/
  target : env.isNearFull e.journal.getUsedBytes e.journal.dataSize = false →
    (UInt32.ofNat value.length).toNat < env.largeValueThreshold →
    ∀ x ∈ e.entries.lookup (e.findExtentWithSpace .fast (UInt32.ofNat value.length)),
      e.view.extents (e.findExtentWithSpace .fast (UInt32.ofNat value.length)) = some x.location

/-- The slot does not change the length of the transaction. -/
theorem length_putRecords_eq (k : Key) (old : Option KeyLocation) (new : KeyLocation) :
    (serializeRecords (putRecords k old new)).length =
      (serializeRecords (putRecords k old {})).length := by
  cases old with
  | none =>
    simp [putRecords, serializeRecords, length_serializeRecord, serializeFields, putString,
      putKeyLocation]
  | some o =>
    simp [putRecords, serializeRecords, length_serializeRecord, serializeFields, putString,
      putKeyLocation]

/-- The first phase of a `put`. -/
theorem checkpointIf_durable (henv : env.Lawful) (hcfg : env.ConfigOk) (hst : Stores env e m)
    (h : Durable env e V m) (hshort : ∀ k v, m k = some v → k.length < 2 ^ 32) {k : Key}
    {value : Value} (hok : PutSafe env e k value) (he1 : e1 = e.checkpointIf env env.isNearFull) :
    ∃ V1, Stores env e1 m ∧ Durable env e1 V1 m ∧ Trail (Yields env m) e e1 ∧ JournalStep e e1 ∧
      (∀ lens, (e.putJournal env).1.Room (e.putJournal env).2 lens →
        e1.HasRoom lens ∧ e1.usedBy lens =
          (e.putJournal env).1.usedAfter (e.putJournal env).2 lens) ∧
      ((UInt32.ofNat value.length).toNat < env.largeValueThreshold →
        ∀ x, e1.entries.lookup (e1.findExtentWithSpace .fast (UInt32.ofNat value.length)) = some x →
          V1.extents (e1.findExtentWithSpace .fast (UInt32.ofNat value.length)) =
            some x.location) := by
  unfold checkpointIf at he1
  unfold putJournal
  cases hfull : env.isNearFull e.journal.getUsedBytes e.journal.dataSize with
  | true =>
    rw [if_pos hfull] at he1
    obtain ⟨h1, hd1, ht1, hstep, hroom⟩ :=
      checkpoint_durable henv hcfg hst h hshort (hok.full hfull)
    rw [← he1] at h1 hd1 ht1 hstep hroom
    refine ⟨_, h1, hd1, ht1, hstep, hroom, fun _ x hx => ?_⟩
    rw [hstep.frame] at hx ⊢
    simp only [memoryView]
    exact congrArg (Option.map ExtentEntry.location) hx
  | false =>
    rw [if_neg (by rw [hfull]; decide)] at he1
    subst he1
    refine ⟨V, hst, h, trail_refl (h.yields henv hcfg hst.space) rfl rfl,
      ⟨rfl, rfl, fun _ _ => rfl, rfl⟩, fun lens hr => ⟨hr, rfl⟩, fun hsmall x hx => ?_⟩
    rw [← h.view_eq]
    exact hok.target hfull hsmall x hx

/-- The view after a `put`'s transaction. -/
theorem foldl_putRecords (V : View) (k : Key) (old : Option KeyLocation) (new : KeyLocation) :
    (putRecords k old new).foldl View.apply V =
      { V with keys := Function.update V.keys k (some new) } := by
  cases old <;> rfl

/-- A `put` under crashes. -/
theorem put_durable (henv : env.Lawful) (hcfg : env.ConfigOk) (hst : Stores env e m)
    (h : Durable env e V m) (hshort : ∀ k v, m k = some v → k.length < 2 ^ 32) {k : Key}
    {value : Value} {st : Status} (hok : PutSafe env e k value)
    (hm' : m' = if st = .ok then Function.update m k (some value) else m)
    (hr : e.put env k value = (st, e')) :
    ∃ V', Durable env e' V' m' ∧ Trail (fun d => Yields env m d ∨ Yields env m' d) e e' := by
  have hsize : value.length ≤ 2 ^ 31 := by have := hok.ok.size; omega
  have hs := toNat_ofNat_length hsize
  obtain ⟨e0, he0⟩ : ∃ e0, e0 = e.checkpointIf env env.isNearFull := ⟨_, rfl⟩
  obtain ⟨V0, hst0, h0, ht0, hstep0, hroom0, htarget⟩ :=
    checkpointIf_durable henv hcfg hst h hshort hok he0
  have hnext0 : e0.nextExtentId = e.nextExtentId := by rw [hstep0.frame]
  have hmap0 : e0.keyMap = e.keyMap := by rw [hstep0.frame]
  unfold Engine.put at hr
  simp only [← he0] at hr
  cases hdata : e0.putWriteData env value with
  -- Nothing in memory names the slot yet.
  | mk st1 r =>
    obtain ⟨ctx, e1⟩ := r
    obtain ⟨V1, n, hn, hnoted, hplaced⟩ := putWriteData_noted henv hcfg hst0 h0 hok.ok.size
      (by rw [hnext0]; exact hok.ok.next) (fun n hn => (hroom0 _ (hok.room n hn)).1) htarget hdata
    have hres := (putWriteData_spec henv hcfg hst0 hok.ok.pos hok.ok.size
      (by rw [hnext0]; exact hok.ok.next) hdata).2
    rw [hdata] at hr
    -- The call ends here when there is no slot.
    have hbad : st1 ≠ .ok → (st1, e1) = (st, e') →
        ∃ V', Durable env e' V' m' ∧ Trail (fun d => Yields env m d ∨ Yields env m' d) e e' := by
      intro hne heq
      obtain ⟨rfl, rfl⟩ := Prod.mk.inj heq
      rw [if_neg hne] at hm'
      subst hm'
      exact ⟨V1, hnoted.durable, (ht0.trans hnoted.trail).mono fun d hd => .inl hd⟩
    -- Only a slot that was got goes on to its transaction.
    cases st1 with
    | ok =>
      replace hres := hres rfl
      obtain ⟨x, hx, hext⟩ := hplaced rfl
      obtain ⟨new, hnew⟩ : ∃ n : KeyLocation,
        n = ⟨ctx.target, ctx.offset, UInt32.ofNat value.length⟩ := ⟨_, rfl⟩
      simp only [← hnew] at hr
      have hlen : 22 + (serializeRecords (putRecords k (e0.keyMap k) new)).length =
          e.putTxnLength k := by
        rw [length_putRecords_eq, hmap0]
        rfl
      obtain ⟨hroom, hused⟩ := hroom0 _ (hok.room n hn)
      obtain ⟨hroom1, hused1⟩ := hnoted.room _ hroom
      have hstorable : ∀ r ∈ putRecords k (e0.keyMap k) new, r.Storable := by
        intro r hr
        cases hold : e0.keyMap k with
        | none =>
          simp only [putRecords, hold, List.nil_append, List.mem_singleton] at hr
          subst hr
          exact ⟨by rfl, hok.key, .inl rfl⟩
        | some o =>
          simp only [putRecords, hold, List.singleton_append, List.mem_cons, List.not_mem_nil,
            or_false] at hr
          rcases hr with rfl | rfl
          · exact ⟨by rfl, by simp, .inl rfl⟩
          · exact ⟨by rfl, hok.key, .inl rfl⟩
      obtain ⟨e2, bl, htxn, hbl, hc, hused2⟩ := journalTxn_committed hnoted.durable.carries
        hres.content.journal (hnoted.durable.dataSize_le hres.content.journal) hstorable
        (by rw [hlen]; exact hroom1.1)
      rw [hlen] at hbl
      have hpos : 0 < bl.length := by rw [hbl]; unfold putTxnLength; omega
      -- The fourth phase makes no checkpoint.
      have hnone : e2.checkpointIf env env.needsCheckpoint = e2 := by
        have hu : e2.journal.getUsedBytes = (e.putJournal env).1.usedAfter (e.putJournal env).2
            (List.replicate n extentTxnLength ++ [e.putTxnLength k]) := by
          rw [← hused, ← hused1, hused2, hbl]
          rfl
        have hd : e2.journal.dataSize = e.journal.dataSize :=
          hc.wrote.dataSize.trans (hres.kept.dataSize.trans hstep0.keeps.dataSize)
        unfold checkpointIf
        rw [hu, hd, hok.noCheckpoint n hn]
        rfl
      simp only [htxn, hnone, Prod.mk.injEq] at hr
      obtain ⟨rfl, rfl⟩ := hr
      rw [if_pos rfl] at hm'
      have hstep := hc.journalStep hpos hres.content.journal
      have hres2 := hres.journalStep hstep
      have hput := hres2.content.keyPut (k := k) hres2.holds (by rw [if_pos rfl]; exact hs.le)
      rw [← hnew] at hput
      rw [foldl_putRecords] at hc
      have hs3 : Sound (e2.keyPut k new)
          { V1 with keys := Function.update V1.keys k (some new) } m' := by
        rw [hm']
        refine (hnoted.durable.sound.journalStep hcfg hres.content.space hres.content.journal
          hstep).keyPut hres2.content.space (x := x) ?_ ?_ ?_ hput
        · rw [hnew, hstep.frame]
          exact hx
        · rw [hnew]
          exact hext
        · rw [hnew]
          exact hres2.holds
      obtain ⟨hd3, ht3⟩ := hnoted.durable.commit henv hcfg hres.content.space hres.content.journal
        hpos hc hput.space hs3 rfl rfl rfl rfl rfl
      have htrail : Trail (fun d => Yields env m d ∨ Yields env m' d) e (e2.keyPut k new) :=
        ((ht0.trans hnoted.trail).mono fun d hd => .inl hd).trans ht3
      unfold putCommitMemoryState
      cases hold : e0.keyMap k with
      | none => exact ⟨_, hd3, htrail⟩
      | some o =>
        have hold' : Content env [] (fun id => if o.extentId = id then o.length.toNat else 0)
            (e2.keyPut k new) (Function.update m k (some value)) := by
          refine hput.mono fun id => ?_
          unfold oldBytes
          rw [hres2.kept.keyMap, hold]
          exact Nat.le_add_left _ _
        have hdead : Content env [] (fun _ => 0)
            ((e2.keyPut k new).markDeadSlot o.extentId o.length) _ :=
          (hold'.markDeadSlot (by simp) fun _ => Nat.zero_le _).1
        have hq := hd3.retireSlot henv hcfg hput.space o hdead.space
        exact ⟨_, hq.durable, htrail.trans (hq.trail.mono fun d hd => .inr hd)⟩
    | _ => exact hbad (by simp) hr

/-! ## Del -/

/-- The conditions under which a `del` is durable when it returns. -/
structure DelSafe (e : Engine) (k : Key) : Prop where
  /-- The key's length is not cut. -/
  key : k.length < 2 ^ 32
  /-- There is room for the transaction. -/
  room : e.journal.Fits e.journal.getUsedBytes (k.length + 56)

/-- A `del` under crashes. -/
theorem del_durable (henv : env.Lawful) (hcfg : env.ConfigOk) (hst : Stores env e m)
    (h : Durable env e V m) {k : Key} {st : Status} (hok : DelSafe e k)
    (hm' : m' = if st = .ok then Function.update m k none else m) (hr : e.del k = (st, e')) :
    ∃ V', Durable env e' V' m' ∧ Trail (fun d => Yields env m d ∨ Yields env m' d) e e' := by
  unfold Engine.del at hr
  -- The key is not there, or its removal is journalled.
  cases hk : e.keyMap k with
  | none =>
    simp only [hk, Prod.mk.injEq] at hr
    obtain ⟨rfl, rfl⟩ := hr
    rw [if_neg (by simp)] at hm'
    subst hm'
    exact ⟨V, h, trail_refl (.inl (h.yields henv hcfg hst.space)) rfl rfl⟩
  | some kl =>
    simp only [hk] at hr
    obtain ⟨rs, hrs⟩ : ∃ rs : List JournalRecord, rs = [{ op := .keyDel, key := k },
      { op := .markDead, extentId := kl.extentId, deadLength := kl.length }] := ⟨_, rfl⟩
    rw [← hrs] at hr
    have hlen : 22 + (serializeRecords rs).length = k.length + 56 := by
      rw [hrs]
      simp [serializeRecords, length_serializeRecord, serializeFields, putString]
      omega
    have hstorable : ∀ r ∈ rs, r.Storable := by
      rw [hrs]
      intro r hr
      simp only [List.mem_cons, List.not_mem_nil, or_false] at hr
      rcases hr with rfl | rfl
      · exact ⟨by rfl, hok.key, .inl rfl⟩
      · exact ⟨by rfl, by simp, .inl rfl⟩
    obtain ⟨e1, bl, htxn, hbl, hc, -⟩ := journalTxn_committed h.carries hst.journal
      (h.dataSize_le hst.journal) hstorable (by rw [hlen]; exact hok.room)
    have hpos : 0 < bl.length := by omega
    simp only [htxn, Prod.mk.injEq] at hr
    obtain ⟨rfl, rfl⟩ := hr
    rw [if_pos rfl] at hm'
    have hstep := hc.journalStep hpos hst.journal
    have h1 := hst.journalStep hstep
    have hmap : e1.keyMap k = some kl := by rw [hstep.frame]; exact hk
    have hview : rs.foldl View.apply V = { V with keys := Function.update V.keys k none } := by
      rw [hrs]
      rfl
    rw [hview] at hc
    have herase := h1.keyErase k
    have hs2 : Sound (e1.keyErase k) { V with keys := Function.update V.keys k none } m' := by
      rw [hm']
      exact (h.sound.journalStep hcfg hst.space hst.journal hstep).keyErase k
    have hf := keyErase_frame e1 k
    obtain ⟨hd2, ht2⟩ := h.commit henv hcfg hst.space hst.journal hpos hc herase.space hs2
      (by rw [hf]) (by rw [hf]) (by rw [hf]) (by rw [hf]) (by rw [hf]; rfl)
    have hold : Content env [] (fun id => if kl.extentId = id then kl.length.toNat else 0)
        (e1.keyErase k) (Function.update m k none) := by
      refine herase.mono fun id => ?_
      simp only [oldBytes, hmap]
      omega
    have hdead : Content env [] (fun _ => 0)
        ((e1.keyErase k).markDeadSlot kl.extentId kl.length) _ :=
      (hold.markDeadSlot (by simp) fun _ => Nat.zero_le _).1
    have hq := hd2.retireSlot henv hcfg herase.space kl hdead.space
    exact ⟨_, hq.durable, ht2.trans (hq.trail.mono fun d hd => .inr hd)⟩

end

end Engine

end CxxLab.Btier
