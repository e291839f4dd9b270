import CxxLab.Btier.CrashMigration
import CxxLab.Btier.EngineRuns

/-!
# Runs that crash

A crash between two calls yields the key/value map of the calls that were acknowledged, and a crash
within a call yields that map or the map with the call, in every run whose calls meet the conditions
of the single calls.
-/

namespace CxxLab.Btier

open Engine

namespace Engine

/-! ## The conditions -/

/-- The conditions of the single calls. -/
def CrashOk (env : Env) (e : Engine) : Action → Prop
  | .put k value _ => PutSafe env e k value
  | .del k _ => DelSafe e k
  | .processDeferredFree => DeferredSafe e
  | .migrateTier id => MigrateOk env e id
  | .compact id => CompactOk env e id
  | .checkpoint => e.journal.Fits e.journal.getUsedBytes (31 + e.stateLength)

/-- The devices on which a fresh engine can start: the journal is on the FAST device, is shorter
than 4 GiB, and has room behind its first checkpoint. -/
structure StartOk (env : Env) (dev : Device) : Prop where
  /-- There is no journal yet. -/
  blank : dev.superblock.magic ≠ superBlockMagic
  /-- The size of the FAST device. -/
  capacity : dev.capacity + kSuperblockSize = env.fastSize
  /-- The journal is on it. -/
  journal_le : env.journalSize ≤ env.fastSize
  /-- The journal is shorter than 4 GiB. -/
  small : env.journalSize < 2 ^ 32
  /-- There is room behind the first checkpoint. -/
  room : kSuperblockSize + kTxnAlignment < env.journalSize

instance (env : Env) (e : Engine) (k : Key) (value : Value) : Decidable (PutSafe env e k value) :=
  decidable_of_iff (PutOk env e k value ∧ k.length < 2 ^ 32 ∧
      (env.isNearFull e.journal.getUsedBytes e.journal.dataSize →
        e.journal.Fits e.journal.getUsedBytes (31 + e.stateLength)) ∧
      (∀ n ≤ 2, (e.putJournal env).1.Room (e.putJournal env).2
        (List.replicate n extentTxnLength ++ [e.putTxnLength k])) ∧
      (∀ n ≤ 2, env.needsCheckpoint ((e.putJournal env).1.usedAfter (e.putJournal env).2
        (List.replicate n extentTxnLength ++ [e.putTxnLength k])) e.journal.dataSize = false) ∧
      (env.isNearFull e.journal.getUsedBytes e.journal.dataSize = false →
        (UInt32.ofNat value.length).toNat < env.largeValueThreshold →
        ∀ x ∈ e.entries.lookup (e.findExtentWithSpace .fast (UInt32.ofNat value.length)),
          e.view.extents (e.findExtentWithSpace .fast (UInt32.ofNat value.length)) =
            some x.location))
    ⟨fun ⟨h1, h2, h3, h4, h5, h6⟩ => ⟨h1, h2, h3, h4, h5, h6⟩,
      fun h => ⟨h.ok, h.key, h.full, h.room, h.noCheckpoint, h.target⟩⟩

instance (e : Engine) (k : Key) : Decidable (DelSafe e k) :=
  decidable_of_iff (k.length < 2 ^ 32 ∧ e.journal.Fits e.journal.getUsedBytes (k.length + 56))
    ⟨fun ⟨h1, h2⟩ => ⟨h1, h2⟩, fun h => ⟨h.key, h.room⟩⟩

instance (env : Env) (e : Engine) (a : Action) : Decidable (CrashOk env e a) :=
  match a with
  | .put k value _ => inferInstanceAs (Decidable (PutSafe env e k value))
  | .del k _ => inferInstanceAs (Decidable (DelSafe e k))
  | .processDeferredFree => inferInstanceAs (Decidable (DeferredSafe e))
  | .migrateTier id => inferInstanceAs (Decidable (MigrateOk env e id))
  | .compact id => inferInstanceAs (Decidable (CompactOk env e id))
  | .checkpoint => inferInstanceAs (Decidable (e.journal.Fits _ _))

/-- What is safe under crashes is right without them. -/
theorem CrashOk.engineOk {env : Env} {e : Engine} {a : Action} (h : CrashOk env e a) :
    EngineOk env e a := by
  cases a with
  | put k value st => exact PutSafe.ok h
  | del k st =>
    have := (DelSafe.room h).room
    show Journal.padded (k.length + 56) ≤ e.journal.dataSize
    omega
  | processDeferredFree => trivial
  | migrateTier id => exact h
  | compact id => exact h
  | checkpoint =>
    have := Journal.Fits.room h
    show Journal.padded (31 + e.stateLength) ≤ e.journal.dataSize
    omega

/-! ## The start and the steps -/

/-- The engine holds `m`, in memory and after a crash, and the keys are short. -/
structure Recoverable (env : Env) (e : Engine) (m : Key → Option Value) : Prop where
  /-- The memory holds `m`. -/
  stores : Stores env e m
  /-- A crash yields `m`. -/
  durable : ∃ V, Durable env e V m
  /-- The keys' lengths fit in 32 bits. -/
  short : ∀ k v, m k = some v → k.length < 2 ^ 32

/-- The bytes of a checkpoint without records. -/
theorem length_emptyCheckpoint :
    (Journal.checkpointBytes (serializeRecords [])).length = 31 := by
  rw [Journal.checkpointBytes, length_frame, length_serializeRecord]
  rfl

/-- What `init` makes of a device without a journal: the journal is empty, and its first checkpoint
is at the start. -/
theorem init_checkpoint {env : Env} {dev : Device} (hstart : StartOk env dev) {j : Journal}
    (hj : j = Journal.create dev env.journalSize) {bl : List UInt8}
    (hbl : bl = Journal.checkpointBytes (serializeRecords [])) :
    (j.dataSize = env.journalSize - kSuperblockSize ∧ j.devSize = env.journalSize ∧
      j.dev.capacity = dev.capacity ∧ j.writeOffset = 0) ∧
    ∃ j1, j.padAndWrite bl = (true, j1) ∧
      j.checkpoint [] = (.ok, Journal.afterCheckpoint j.writeOffset j1) ∧
      Journal.Wrote j (Journal.afterCheckpoint j.writeOffset j1) bl ∧
      ∀ slow, init env dev slow = opened env (Journal.afterCheckpoint j.writeOffset j1) slow := by
  have hjdata : j.dataSize = env.journalSize - kSuperblockSize ∧ j.devSize = env.journalSize ∧
      j.dev.capacity = dev.capacity ∧ j.writeOffset = 0 := by
    rw [hj]
    unfold Journal.create Journal.readSuperblock
    split_ifs with hmagic
    · exact ⟨rfl, rfl, rfl, rfl⟩
    · exact absurd hstart.blank hmagic
  refine ⟨hjdata, ?_⟩
  obtain ⟨hds, hdev, hcap, hw0⟩ := hjdata
  have hroom := hstart.room
  have hle := hstart.journal_le
  have hcap' := hstart.capacity
  have hlen : bl.length = 31 := hbl ▸ length_emptyCheckpoint
  have hpad : Journal.padded bl.length = kTxnAlignment := by rw [hlen]; rfl
  obtain ⟨j1, hw1, -, hwrote⟩ := Journal.padAndWrite_ok (show 0 < bl.length by omega)
    (show j.dataSize ≤ j.dev.capacity by omega) (by rw [hpad]; omega)
  have hcp : j.checkpoint [] = (.ok, Journal.afterCheckpoint j.writeOffset j1) := by
    unfold Journal.checkpoint
    rw [← hbl, hw1]
    rfl
  refine ⟨j1, hw1, hcp, hwrote, fun slow => ?_⟩
  unfold init
  rw [← hj, hcp]

/-- A fresh engine is recoverable. -/
theorem recoverable_init {env : Env} (hcfg : env.ConfigOk) {dev : Device} (hstart : StartOk env dev)
    (slow : ℕ → UInt8) : Recoverable env (init env dev slow) fun _ => none := by
  refine ⟨stores_init hcfg dev slow, ⟨View.empty, ?_⟩, by simp⟩
  obtain ⟨j, hj⟩ : ∃ j, j = Journal.create dev env.journalSize := ⟨_, rfl⟩
  -- A blank journal replays to nothing.
  have hrep : Replays j Ledger.init := hj ▸ replays_create hstart.blank
  obtain ⟨bl, hbl⟩ : ∃ b, b = Journal.checkpointBytes (serializeRecords []) := ⟨_, rfl⟩
  obtain ⟨⟨hds, hdev, hcap, hw0⟩, j1, -, hcp, hwrote, hinit⟩ := init_checkpoint hstart hj hbl
  have hsmall := hstart.small
  have hroom := hstart.room
  have hle := hstart.journal_le
  have hcap' := hstart.capacity
  have hpad : Journal.padded bl.length = kTxnAlignment := by rw [hbl, length_emptyCheckpoint]; rfl
  have hfits : j.Fits 0 bl.length := by
    have hskip : j.skipped (Journal.padded bl.length) = 0 := by
      unfold Journal.skipped
      rw [hw0, hpad, if_neg (by omega)]
    refine ⟨by omega, by rw [hskip, hpad]; omega, fun hwrap => ?_, fun hwrap => ?_⟩
    · rw [hw0, hpad] at hwrap
      omega
    · rw [hw0, hpad] at hwrap
      omega
  -- The first checkpoint is empty, and it fits.
  have hok : JournalOk j (.checkpoint []) := ⟨by simp, by rw [← hbl]; exact hfits⟩
  have hrep1 := hrep.checkpoint hok hcp
  rw [hinit]
  -- So what a crash yields is an empty store.
  refine ⟨⟨?_, fun _ _ => rfl, ?_, ?_, ?_, ?_⟩, ⟨_, hrep1, rfl⟩, ⟨?_, ?_, hle, ?_, ?_⟩⟩
  · intro id hid
    exact absurd rfl hid
  · intro k kl hk
    cases hk
  · intro id ks _ hks
    rcases ks with _ | ⟨k, ks⟩
    · simp
    · obtain ⟨kl, hkl, -⟩ := hks k (by simp)
      cases hkl
  · intro id x hx
    simp [opened] at hx
  · intro k kl x hk
    cases hk
  · show (Journal.afterCheckpoint j.writeOffset j1).dev.capacity + kSuperblockSize = env.fastSize
    rw [hwrote.capacity, hcap]
    exact hcap'
  · show (Journal.afterCheckpoint j.writeOffset j1).devSize = env.journalSize
    rw [hwrote.devSize]
    exact hdev
  · intro t i ht hi
    rcases ht with rfl | rfl
    · simp only [opened, decide_eq_true_eq] at hi
      exact hi.2
    · simp only [opened, decide_eq_true_eq] at hi
      exact hi
  · simp [owned, extentLocations, opened]

/-- Every call that meets its condition does to what a crash yields what it does to the map, and a
crash within it yields the map before or after it. -/
theorem recoverable_step {env : Env} (henv : env.Lawful) (hcfg : env.ConfigOk) {e e' : Engine}
    {m : Key → Option Value} {a : Action} (h : Recoverable env e m) (hok : CrashOk env e a)
    (hs : step env e a = some e') : Recoverable env e' (Action.apply m a) ∧
      Trail (fun d => Yields env m d ∨ Yields env (Action.apply m a) d) e e' := by
  -- The call keeps the content in memory whatever a crash does.
  have hstores := stores_step henv hcfg h.stores hok.engineOk hs
  obtain ⟨V, hd⟩ := h.durable
  -- A call that the journal does not see.
  have hquiet : ∀ {e1 : Engine}, Quiet env e e1 V m → e1 = e' → Action.apply m a = m →
      Recoverable env e' (Action.apply m a) ∧
        Trail (fun d => Yields env m d ∨ Yields env (Action.apply m a) d) e e' := by
    rintro e1 hq rfl hm
    rw [hm] at hstores ⊢
    exact ⟨⟨hstores, ⟨V, hq.durable⟩, h.short⟩, hq.trail.mono fun d hd => .inl hd⟩
  -- One case for each call, by the lemma about it.
  cases a with
  | put k value st =>
    cases hr : e.put env k value with
    | mk st' e1 =>
      simp only [step, hr, Option.ite_none_right_eq_some] at hs
      obtain ⟨rfl, hs⟩ := hs
      obtain rfl := Option.some.inj hs
      have hm : Action.apply m (.put k value st') =
          if st' = .ok then Function.update m k (some value) else m := by cases st' <;> rfl
      obtain ⟨V', hd', ht⟩ := put_durable henv hcfg h.stores hd h.short hok hm hr
      refine ⟨⟨hstores, ⟨V', hd'⟩, fun k' v hk' => ?_⟩, ht⟩
      rw [hm] at hk'
      split_ifs at hk'
      · by_cases hkk : k' = k
        · rw [hkk]
          exact PutSafe.key hok
        · rw [Function.update_of_ne hkk] at hk'
          exact h.short k' v hk'
      · exact h.short k' v hk'
  | del k st =>
    cases hr : e.del k with
    | mk st' e1 =>
      simp only [step, hr, Option.ite_none_right_eq_some] at hs
      obtain ⟨rfl, hs⟩ := hs
      obtain rfl := Option.some.inj hs
      have hm : Action.apply m (.del k st') =
          if st' = .ok then Function.update m k none else m := by cases st' <;> rfl
      obtain ⟨V', hd', ht⟩ := del_durable henv hcfg h.stores hd hok hm hr
      refine ⟨⟨hstores, ⟨V', hd'⟩, fun k' v hk' => ?_⟩, ht⟩
      rw [hm] at hk'
      split_ifs at hk'
      · by_cases hkk : k' = k
        · subst hkk
          simp at hk'
        · rw [Function.update_of_ne hkk] at hk'
          exact h.short k' v hk'
      · exact h.short k' v hk'
  | processDeferredFree =>
    obtain rfl := Option.some.inj hs
    obtain ⟨hd', ht⟩ := processDeferredFree_durable henv hcfg h.stores hd hok
    exact ⟨⟨hstores, ⟨V, hd'⟩, h.short⟩, ht.mono fun d hd => .inl hd⟩
  | migrateTier id =>
    cases hx : e.entries.lookup id with
    | none =>
      simp only [step, hx] at hs
      exact hquiet (hd.quiet henv hcfg h.stores.space) (Option.some.inj hs) rfl
    | some x =>
      simp only [step, hx] at hs
      exact hquiet (migrateTier_durable henv hcfg h.stores hd hx hok) (Option.some.inj hs) rfl
  | compact id => exact hquiet (compact_durable henv hcfg h.stores hd hok) (Option.some.inj hs) rfl
  | checkpoint =>
    obtain rfl := Option.some.inj hs
    obtain ⟨-, hd', ht, -, -⟩ := checkpoint_durable henv hcfg h.stores hd h.short hok
    exact ⟨⟨hstores, ⟨_, hd'⟩, h.short⟩, ht.mono fun d hd => .inl hd⟩

/-- In every state that a run reaches whose calls all meet their conditions, a crash yields exactly
the map of the calls so far; and a crash at any point of the writes of the next call yields that map
or the map with the call. -/
theorem crash_yields_content (env : Env) (henv : env.Lawful) (hcfg : env.ConfigOk) (dev : Device)
    (hstart : StartOk env dev) (slow : ℕ → UInt8) (as : List Action) (e : Engine)
    (hm : Runs.Meets (step env) (CrashOk env) (init env dev slow) as)
    (hs : Runs.exec (step env) (init env dev slow) as = some e) :
    (∃ r, reopen env e.devices = some r ∧ ∀ k, r.get k = lookupResult (contentAfter as k)) ∧
      ∀ a e', CrashOk env e a → step env e a = some e' →
        ∃ ws, e'.log = e.log ++ ws ∧ e'.devices = ws.foldl Devices.apply e.devices ∧
          ∀ d, Crash.CrashPoint Devices.apply DevWrite.Torn e.devices ws d →
            ∃ r, reopen env d = some r ∧
              ((∀ k, r.get k = lookupResult (contentAfter as k)) ∨
                ∀ k, r.get k = lookupResult (contentAfter (as ++ [a]) k)) := by
  have hrec : Recoverable env e (contentAfter as) :=
    Runs.exec_simulates Action.apply (R := Recoverable env)
      (fun _ _ _ _ h hok hs => (recoverable_step henv hcfg h hok hs).1) as _ (fun _ => none) e
      (recoverable_init hcfg hstart slow) hm hs
  obtain ⟨V, hd⟩ := hrec.durable
  refine ⟨hd.yields henv hcfg hrec.stores.space, fun a e' hok hstep => ?_⟩
  obtain ⟨ws, hlog, hdev, hsafe⟩ := (recoverable_step henv hcfg hrec hok hstep).2
  refine ⟨ws, hlog, hdev, fun d hcrash => ?_⟩
  have happ : contentAfter (as ++ [a]) = Action.apply (contentAfter as) a := by
    unfold contentAfter
    rw [List.foldl_append]
    rfl
  rw [happ]
  rcases hsafe d hcrash with ⟨r, hr, hget⟩ | ⟨r, hr, hget⟩
  · exact ⟨r, hr, .inl hget⟩
  · exact ⟨r, hr, .inr hget⟩

/-! ## A small engine -/

/-- The small engine with a journal of eleven blocks. -/
def longJournalEnv : Env := { smallEnv with journalSize := 45056 }

/-- A key is put, its extent is migrated, and a checkpoint notes where it is. -/
def putMoveCheckpoint : List Action :=
  [.put [97] [1, 2, 3, 4, 5] .ok, .migrateTier 1, .checkpoint]

/-- The conditions are met by a run with a migration and a checkpoint. -/
theorem crash_yields_content_putMoveCheckpoint :
    ∃ e r, Runs.exec (step longJournalEnv) (init longJournalEnv (blankDevice 15) fun _ => 0)
        putMoveCheckpoint = some e ∧ reopen longJournalEnv e.devices = some r ∧
      r.get [97] = .ok [1, 2, 3, 4, 5] ∧ r.get [98] = .error .enoent := by
  have hrun : (Runs.exec (step longJournalEnv) (init longJournalEnv (blankDevice 15) fun _ => 0)
      putMoveCheckpoint).isSome := by decide +kernel
  have hm : Runs.Meets (step longJournalEnv) (CrashOk longJournalEnv)
      (init longJournalEnv (blankDevice 15) fun _ => 0) putMoveCheckpoint := by
    decide +kernel
  obtain ⟨e, he⟩ := Option.isSome_iff_exists.mp hrun
  have hlawful : longJournalEnv.Lawful := ⟨smallEnv_lawful.free, smallEnv_lawful.blocks,
    smallEnv_lawful.keys, smallEnv_lawful.ids⟩
  have hcfg : longJournalEnv.ConfigOk := ⟨by decide, by decide, by decide⟩
  have hstart : StartOk longJournalEnv (blankDevice 15) :=
    ⟨by decide, by decide, by decide, by decide, by decide⟩
  obtain ⟨⟨r, hr, hget⟩, -⟩ := crash_yields_content longJournalEnv hlawful hcfg (blankDevice 15)
    hstart (fun _ => 0) putMoveCheckpoint e hm he
  exact ⟨e, r, he, hr, hget [97], hget [98]⟩

/-- The small engine with a journal of six blocks. -/
def shortJournalEnv : Env := { smallEnv with journalSize := 24576 }

/-- Two puts are acknowledged. The second one fills the journal to four fifths, so its fourth phase
makes a checkpoint, of a memory that does not have the key yet: a crash loses the put. -/
theorem checkpointedPut_lost :
    ∃ e r, shortJournalEnv.Lawful ∧ shortJournalEnv.ConfigOk ∧
      StartOk shortJournalEnv (blankDevice 15) ∧
      Runs.exec (step shortJournalEnv) (init shortJournalEnv (blankDevice 15) fun _ => 0)
        [.put [97] [6] .ok, .put [98] [4] .ok] = some e ∧
      reopen shortJournalEnv e.devices = some r ∧
      r.get [98] ≠ lookupResult (contentAfter [.put [97] [6] .ok, .put [98] [4] .ok] [98]) := by
  have hrun : (Runs.exec (step shortJournalEnv) (init shortJournalEnv (blankDevice 15) fun _ => 0)
      [.put [97] [6] .ok, .put [98] [4] .ok]).map (fun e =>
        ((Journal.create e.journal.dev 24576).recover.map fun rs =>
          ((View.after rs).keys [98]).isNone && decide (e.journal.dev.superblock.magic =
            superBlockMagic))) = some (some true) := by decide +kernel
  obtain ⟨e, he, hrs⟩ := Option.map_eq_some_iff.mp hrun
  obtain ⟨rs, hrec, hlost⟩ := Option.map_eq_some_iff.mp hrs
  simp only [Bool.and_eq_true, Option.isNone_iff_eq_none, decide_eq_true_eq] at hlost
  obtain ⟨r, hr, hget⟩ : ∃ r, reopen shortJournalEnv e.devices = some r ∧
      r.get [98] = .error .enoent := reopen_absent hlost.2 hrec hlost.1
  refine ⟨e, r, ⟨smallEnv_lawful.free, smallEnv_lawful.blocks, smallEnv_lawful.keys,
    smallEnv_lawful.ids⟩, ⟨by decide, by decide, by decide⟩,
    ⟨by decide, by decide, by decide, by decide, by decide⟩, he, hr, ?_⟩
  rw [hget]
  decide

end Engine

end CxxLab.Btier
