import CxxLab.Btier.EngineMigration

/-!
# Runs of the engine

The key/value map that the calls of a run make, and that `get` reads it back from every state that
a run reaches whose steps meet the conditions of the single calls.
-/

namespace CxxLab.Btier

open Engine

namespace Engine

/-! ## The abstract map -/

/-- What a call does to the map from keys to values: only a successful `put` or `del` changes it. -/
def Action.apply (m : Key → Option Value) : Action → Key → Option Value
  | .put k value .ok => Function.update m k (some value)
  | .del k .ok => Function.update m k none
  | _ => m

/-- The map after a run. -/
def contentAfter (as : List Action) : Key → Option Value := as.foldl Action.apply fun _ => none

/-- The conditions of the single calls. -/
def EngineOk (env : Env) (e : Engine) : Action → Prop
  | .put k value _ => PutOk env e k value
  | .del k _ => DelOk e k
  | .processDeferredFree => True
  | .migrateTier id => MigrateOk env e id
  | .compact id => CompactOk env e id
  | .checkpoint => Journal.padded (31 + e.stateLength) ≤ e.journal.dataSize

instance (env : Env) (e : Engine) (id : UInt64) : Decidable (MigrateOk env e id) :=
  match h : e.entries.lookup id with
  | none => isTrue fun x hx => by rw [h] at hx; cases hx
  | some x =>
    match h' : (e.allocateRaw env (otherTier x.location.tier) x.location.length.toNat).1 with
    | none => isTrue fun y hy loc hloc => by
      obtain rfl := Option.some.inj (h.symm.trans hy)
      rw [h'] at hloc
      cases hloc
    | some loc =>
      decidable_of_iff (loc.tier = otherTier x.location.tier ∧ loc.length = x.location.length)
        ⟨fun hl y hy l hloc => by
          obtain rfl := Option.some.inj (h.symm.trans hy)
          obtain rfl := Option.some.inj (h'.symm.trans hloc)
          exact hl, fun hok => hok x h loc h'⟩

instance (env : Env) (e : Engine) (id : UInt64) : Decidable (CompactOk env e id) :=
  match h : e.entries.lookup id with
  | none => decidable_of_iff (e.nextExtentId.toNat + 1 < 2 ^ 64)
      ⟨fun hn => ⟨hn, fun x hx => by rw [h] at hx; cases hx⟩, fun hok => hok.1⟩
  | some x =>
    match h' : (e.allocateRaw env x.location.tier x.location.length.toNat).1 with
    | none => decidable_of_iff (e.nextExtentId.toNat + 1 < 2 ^ 64)
      ⟨fun hn => ⟨hn, fun y hy loc hloc => by
        obtain rfl := Option.some.inj (h.symm.trans hy)
        rw [h'] at hloc
        cases hloc⟩, fun hok => hok.1⟩
    | some loc =>
      decidable_of_iff (e.nextExtentId.toNat + 1 < 2 ^ 64 ∧ loc.tier = x.location.tier)
        ⟨fun hl => ⟨hl.1, fun y hy l hloc => by
          obtain rfl := Option.some.inj (h.symm.trans hy)
          obtain rfl := Option.some.inj (h'.symm.trans hloc)
          exact hl.2⟩, fun hok => ⟨hok.1, hok.2 x h loc h'⟩⟩

instance (env : Env) (e : Engine) (a : Action) : Decidable (EngineOk env e a) := by
  unfold EngineOk
  split <;> infer_instance

/-! ## The start and the steps -/

/-- A fresh engine holds nothing. -/
theorem stores_init {env : Env} (hcfg : env.ConfigOk) (dev : Device) (slow : ℕ → UInt8) :
    Stores env (init env dev slow) fun _ => none := by
  obtain ⟨j, hj⟩ : ∃ j, j = Journal.create dev env.journalSize := ⟨_, rfl⟩
  have hready : JournalReady env j := by
    have hdata : j.dataSize = env.journalSize - kSuperblockSize ∧ ∀ id, j.activeTxns id = none := by
      rw [hj]
      unfold Journal.create Journal.readSuperblock
      split_ifs <;> exact ⟨rfl, fun _ => rfl⟩
    have := hcfg.journal
    exact ⟨by rw [hdata.1]; omega, hdata.2⟩
  have hkeep : Keeps j (j.padAndWrite (Journal.checkpointBytes (serializeRecords []))).2 := by
    refine keeps_padAndWrite ?_
    have hlen : (Journal.checkpointBytes (serializeRecords [])).length = 31 := by
      rw [Journal.checkpointBytes, length_frame, length_serializeRecord]
      rfl
    rw [Journal.length_pad (by omega), hlen, show Journal.padded 31 = kTxnAlignment from rfl]
    have := hcfg.journal
    have := hready.dataSize
    omega
  have hcp : JournalReady env (j.checkpoint []).2 := by
    rw [Journal.checkpoint]
    exact hready.keeps (keeps_afterWrite hkeep (keeps_afterCheckpoint _ _))
  constructor
  case space =>
    constructor
    case fresh => intro id x hx; simp [init, opened] at hx
    case used => intro id x hx; simp [init, opened] at hx
    case ok => simp [owned, extentLocations, init, opened]
    case apart => simp [owned, extentLocations, init, opened]
    case not_free => simp [owned, extentLocations, init, opened]
    case journal_not_free =>
      intro i hi
      simp only [init, opened, decide_eq_true_eq] at hi
      exact hi.1
  case journal =>
    rw [hj] at hcp
    simp only [init, opened]
    exact hcp
  case indexed => exact ⟨by simp [init, opened], by simp [init, opened]⟩
  case live => intro id x hx; simp [init, opened] at hx
  case slot => simp [init, opened]
  case absent => exact fun _ _ => rfl

/-- Every call that meets its condition does to the content what it does to the map. -/
theorem stores_step {env : Env} (henv : env.Lawful) (hcfg : env.ConfigOk) {e e' : Engine}
    {m : Key → Option Value} {a : Action} (h : Stores env e m) (hok : EngineOk env e a)
    (hs : step env e a = some e') : Stores env e' (Action.apply m a) := by
  cases a with
  | put k value st =>
    cases hr : e.put env k value with
    | mk st' e1 =>
      have hput := put_spec henv hcfg h hok hr
      simp only [step, hr, Option.ite_none_right_eq_some] at hs
      obtain ⟨rfl, hs⟩ := hs
      obtain rfl := Option.some.inj hs
      cases st' <;> exact hput
  | del k st =>
    cases hr : e.del k with
    | mk st' e1 =>
      have hdel := del_spec h hok hr
      simp only [step, hr, Option.ite_none_right_eq_some] at hs
      obtain ⟨rfl, hs⟩ := hs
      obtain rfl := Option.some.inj hs
      cases st' <;> exact hdel
  | processDeferredFree =>
    obtain rfl := Option.some.inj hs
    exact processDeferredFree_spec h
  | migrateTier id =>
    cases hx : e.entries.lookup id with
    | none =>
      simp only [step, hx] at hs
      obtain rfl := Option.some.inj hs
      exact h
    | some x =>
      simp only [step, hx] at hs
      obtain rfl := Option.some.inj hs
      exact migrateTier_spec henv hcfg h hx hok rfl
  | compact id =>
    obtain rfl := Option.some.inj hs
    exact compact_spec henv hcfg h hok rfl
  | checkpoint =>
    obtain rfl := Option.some.inj hs
    refine h.journalStep (checkpoint_step ?_)
    rw [length_buildCheckpointState henv]
    exact hok

/-- In every state that a run reaches whose calls all meet their conditions, `get` returns the
value of the last successful `put` of a key, or says that there is none: the key was never put, or
was deleted after. -/
theorem get_lastPut (env : Env) (henv : env.Lawful) (hcfg : env.ConfigOk) (dev : Device)
    (slow : ℕ → UInt8) (as : List Action) (e : Engine)
    (hm : Runs.Meets (step env) (EngineOk env) (init env dev slow) as)
    (hs : Runs.exec (step env) (init env dev slow) as = some e) (k : Key) :
    e.get k = lookupResult (contentAfter as k) := by
  have hstores : Stores env e (contentAfter as) :=
    Runs.exec_simulates Action.apply (fun _ _ _ _ h hok hs => stores_step henv hcfg h hok hs) as _
      _ e (stores_init hcfg dev slow) hm hs
  exact hstores.get k

/-! ## A small engine -/

/-- First fit over the blocks of a device of 16 blocks. -/
def firstFit (free : ℕ → Bool) (want : ℕ) : List Fragment :=
  if want = 0 ∨ 2 ^ 31 < want ∨ ¬ 4096 ∣ want then []
  else
    (((List.range 16).find? fun b => (List.range want).all fun i => free (b * 4096 + i)).map
      fun b => ⟨UInt64.ofNat (b * 4096), UInt32.ofNat want⟩).toList

/-- Two devices of 16 blocks, of which the journal has the first three. -/
def smallEnv : Env where
  blockSize := 4096
  extentSize := 8192
  largeValueThreshold := 5
  journalSize := 12288
  fastSize := 65536
  slowSize := 65536
  allocate _ _ free want := firstFit free want
  orderKeys _ ks := ks
  orderIds _ ids := ids
  isNearFull used size := 95 * size ≤ 100 * used
  needsCheckpoint used size := 80 * size ≤ 100 * used

/-- What first fit returns is free, and is what was wanted. -/
theorem firstFit_spec {free : ℕ → Bool} {want : ℕ} {f : Fragment} (hf : f ∈ firstFit free want) :
    4096 ∣ want ∧ 0 < want ∧ f.length.toNat = want ∧
      ∀ i, f.offset.toNat ≤ i → i < f.offset.toNat + f.length.toNat → free i = true := by
  unfold firstFit at hf
  split_ifs at hf with hbad
  · cases hf
  · push Not at hbad
    obtain ⟨hpos, hle, hdvd⟩ := hbad
    simp only [Option.mem_toList, Option.map_eq_some_iff] at hf
    obtain ⟨b, hb, rfl⟩ := hf
    have hall := List.find?_some hb
    have hb16 : b < 16 := List.mem_range.mp (List.mem_of_find?_eq_some hb)
    have hlen : (UInt32.ofNat want).toNat = want := by
      rw [UInt32.toNat_ofNat']
      exact Nat.mod_eq_of_lt (by omega)
    have hoff : (UInt64.ofNat (b * 4096)).toNat = b * 4096 := by
      rw [UInt64.toNat_ofNat']
      exact Nat.mod_eq_of_lt (by omega)
    refine ⟨hdvd, by omega, hlen, fun i h1 h2 => ?_⟩
    simp only [hlen, hoff, List.all_eq_true, List.mem_range] at h1 h2 hall
    have := hall (i - b * 4096) (by omega)
    rwa [Nat.add_sub_cancel' h1] at this

/-- The small engine's allocators and containers do what the code's do. -/
theorem smallEnv_lawful : smallEnv.Lawful where
  free _ _ _ _ _ hf := (firstFit_spec hf).2.2.2
  blocks _ _ _ _ _ hf := by
    obtain ⟨hdvd, hpos, hlen, -⟩ := firstFit_spec hf
    rw [hlen]
    exact ⟨hdvd, hpos, le_refl _⟩
  keys _ _ := List.Perm.refl _
  ids _ _ := List.Perm.refl _

/-- The small engine is configured well. -/
theorem smallEnv_configOk : smallEnv.ConfigOk := ⟨by decide, by decide, by decide⟩

/-- A fresh small engine. -/
def freshEngine : Engine := init smallEnv (blankDevice 15) fun _ => 0

/-- Two keys in one extent, of which one is deleted; the extent is migrated to SLOW and then
compacted. -/
def putMoveCompact : List Action :=
  [.put [97] [6] .ok, .put [98] [4, 5] .ok, .del [98] .ok, .migrateTier 1, .compact 1]

/-- The conditions are met by a run with a delete, a migration and a compaction. -/
theorem get_lastPut_putMoveCompact :
    ∃ e, Runs.exec (step smallEnv) freshEngine putMoveCompact = some e ∧
      e.get [97] = .ok [6] ∧ e.get [98] = .error .enoent := by
  have hrun : (Runs.exec (step smallEnv) freshEngine putMoveCompact).isSome := by decide +kernel
  have hm : Runs.Meets (step smallEnv) (EngineOk smallEnv) freshEngine putMoveCompact := by
    decide +kernel
  obtain ⟨e, he⟩ := Option.isSome_iff_exists.mp hrun
  have hget := get_lastPut smallEnv smallEnv_lawful smallEnv_configOk (blankDevice 15) (fun _ => 0)
    putMoveCompact e hm he
  exact ⟨e, he, hget [97], hget [98]⟩

/-- An empty value is put twice under one key. Both slots are in one extent and have no bytes, so
retiring the first one finds no live bytes and frees the extent under the second one. -/
theorem emptyValue_lost :
    ∃ e, smallEnv.Lawful ∧ smallEnv.ConfigOk ∧
      Runs.exec (step smallEnv) freshEngine [.put [97] [] .ok, .put [97] [] .ok] = some e ∧
      e.get [97] ≠ lookupResult (contentAfter [.put [97] [] .ok, .put [97] [] .ok] [97]) := by
  obtain ⟨as, has⟩ : ∃ as : List Action, as = [.put [97] [] .ok, .put [97] [] .ok] := ⟨_, rfl⟩
  have hrun : (Runs.exec (step smallEnv) freshEngine [.put [97] [] .ok, .put [97] [] .ok]).map
      (fun e => e.get [97]) = some (.error .enoent) := by decide +kernel
  rw [← has] at hrun ⊢
  obtain ⟨e, he, hget⟩ := Option.map_eq_some_iff.mp hrun
  refine ⟨e, smallEnv_lawful, smallEnv_configOk, he, ?_⟩
  rw [hget, has]
  decide

end Engine

end CxxLab.Btier
