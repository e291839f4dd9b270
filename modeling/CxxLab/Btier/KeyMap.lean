import CxxLab.Btier.Engine
import CxxLab.Lib.ReverseIndex

/-!
# The key map

`btier/key_map.cc`: the location of each key, and for each extent the keys that are there. Three
calls move keys between extents, and each cleans up after the old location by itself;
`keys_in_extent`, which compaction, recovery and checkpoints go by, reads the second map only.
`keysInExtent_exact` says that the two maps agree after every sequence of calls, and
`Agrees.keyPut` and `Agrees.keyErase` that the engine's key map is this one.
-/

namespace CxxLab.Btier

open ReverseIndex

/-- `KeyEntry`. -/
structure KeyEntry where
  /-- `loc`. -/
  loc : KeyLocation := {}
  /-- `last_lba`. -/
  lastLba : UInt64 := 0
  /-- `consecutive_sequential`. -/
  consecutiveSequential : UInt32 := 0

/-- `KeyMap::Impl`. -/
structure KeyMap where
  /-- `map_`. -/
  map : Key → Option KeyEntry
  /-- `reverse_index_`. -/
  reverseIndex : UInt64 → Option (Finset Key)

namespace KeyMap

/-- `kSequentialThreshold`. -/
def kSequentialThreshold : UInt64 := 65536

/-- `kMaxSeqAward`. -/
def kMaxSeqAward : UInt32 := 63

/-- An empty map. -/
def empty : KeyMap := ⟨fun _ => none, fun _ => none⟩

/-- `lookup`. -/
def lookup (m : KeyMap) (key : Key) : Option KeyLocation := (m.map key).map KeyEntry.loc

/-- The cleanup of the index when a key leaves an extent for another one. -/
def leave (m : KeyMap) (key : Key) (old new : UInt64) : UInt64 → Option (Finset Key) :=
  if old ≠ new then remove m.reverseIndex old key else m.reverseIndex

/-- The stride tracking of `put`. -/
def track (x : KeyEntry) (lba : UInt64) : KeyEntry :=
  let delta := if x.lastLba < lba then lba - x.lastLba else x.lastLba - lba
  { x with
    lastLba := lba
    consecutiveSequential :=
      if delta ≤ kSequentialThreshold then
        if x.consecutiveSequential < kMaxSeqAward then x.consecutiveSequential + 1
        else x.consecutiveSequential
      else 0 }

/-- `put`. -/
def put (m : KeyMap) (key : Key) (loc : KeyLocation) (lba : UInt64) : KeyMap :=
  let entry := (m.map key).getD {}
  let reverse :=
    match m.map key with
    | some x => m.leave key x.loc.extentId loc.extentId
    | none => m.reverseIndex
  { map := Function.update m.map key (some { track entry lba with loc := loc })
    reverseIndex := add reverse loc.extentId key }

/-- `erase`. -/
def erase (m : KeyMap) (key : Key) : KeyMap :=
  match m.map key with
  | none => m
  | some x =>
    { map := Function.update m.map key none
      reverseIndex := remove m.reverseIndex x.loc.extentId key }

/-- `keys_in_extent`. -/
def keysInExtent (m : KeyMap) (id : UInt64) : Finset Key :=
  match m.reverseIndex id with
  | none => ∅
  | some s => s

/-- The loop body of `batch_update`. -/
def updateOne (m : KeyMap) (u : Key × KeyLocation) : KeyMap :=
  match m.map u.1 with
  | some x =>
    { map := Function.update m.map u.1 (some { x with loc := u.2 })
      reverseIndex := add (m.leave u.1 x.loc.extentId u.2.extentId) u.2.extentId u.1 }
  | none =>
    { map := Function.update m.map u.1 (some { loc := u.2 })
      reverseIndex := add m.reverseIndex u.2.extentId u.1 }

/-- `batch_update`. -/
def batchUpdate (m : KeyMap) (updates : List (Key × KeyLocation)) : KeyMap :=
  updates.foldl updateOne m

/-- The calls that change the map. -/
inductive Call where
  /-- `put`. -/
  | put (key : Key) (loc : KeyLocation) (lba : UInt64)
  /-- `erase`. -/
  | erase (key : Key)
  /-- `batch_update`. -/
  | batchUpdate (updates : List (Key × KeyLocation))

/-- The map after a call. -/
def call (m : KeyMap) : Call → KeyMap
  | .put key loc lba => m.put key loc lba
  | .erase key => m.erase key
  | .batchUpdate updates => m.batchUpdate updates

/-! ## The index -/

/-- The extent of a key. -/
def extentOf (m : KeyMap) (key : Key) : Option UInt64 := (m.lookup key).map KeyLocation.extentId

/-- The index belongs to the map. -/
def Indexed (m : KeyMap) : Prop := Exact m.extentOf m.reverseIndex

/-- The extents after a key has got an entry. -/
theorem extentOf_update (m : KeyMap) (key : Key) (x : Option KeyEntry)
    (reverse : UInt64 → Option (Finset Key)) :
    extentOf ⟨Function.update m.map key x, reverse⟩ =
      Function.update m.extentOf key (x.map fun y => y.loc.extentId) := by
  funext k
  unfold extentOf lookup
  dsimp only
  by_cases h : k = key
  · subst h
    rw [Function.update_self, Function.update_self, Option.map_map]
    rfl
  · rw [Function.update_of_ne h, Function.update_of_ne h]

/-- A key that has a location gets another one, in the same extent or not. -/
theorem Indexed.relocate {m : KeyMap} (h : m.Indexed) {key : Key} {x : KeyEntry}
    (hx : m.map key = some x) (y : KeyEntry) :
    Indexed ⟨Function.update m.map key (some y),
      add (m.leave key x.loc.extentId y.loc.extentId) y.loc.extentId key⟩ := by
  have hof : m.extentOf key = some x.loc.extentId := by simp [extentOf, lookup, hx]
  unfold Indexed leave
  rw [extentOf_update, Option.map_some]
  dsimp only
  split_ifs with hne
  · exact h.move hof _
  · rw [not_not] at hne
    rw [← hne]
    exact h.stay hof

/-- A key that has no location gets one. -/
theorem Indexed.locate {m : KeyMap} (h : m.Indexed) {key : Key} (hx : m.map key = none)
    (y : KeyEntry) :
    Indexed ⟨Function.update m.map key (some y), add m.reverseIndex y.loc.extentId key⟩ := by
  have hof : m.extentOf key = none := by simp [extentOf, lookup, hx]
  unfold Indexed
  rw [extentOf_update, Option.map_some]
  exact h.add hof _

/-- `put` keeps the index. -/
theorem Indexed.put {m : KeyMap} (h : m.Indexed) (key : Key) (loc : KeyLocation) (lba : UInt64) :
    (m.put key loc lba).Indexed := by
  unfold KeyMap.put
  cases hx : m.map key with
  | none => exact h.locate hx { track ({} : KeyEntry) lba with loc := loc }
  | some x => exact h.relocate hx { track x lba with loc := loc }

/-- `erase` keeps the index. -/
theorem Indexed.erase {m : KeyMap} (h : m.Indexed) (key : Key) : (m.erase key).Indexed := by
  unfold KeyMap.erase
  cases hx : m.map key with
  | none => exact h
  | some x =>
    have hof : m.extentOf key = some x.loc.extentId := by simp [extentOf, lookup, hx]
    unfold Indexed
    dsimp only
    rw [extentOf_update, Option.map_none]
    exact h.remove hof

/-- One update of a batch keeps the index. -/
theorem Indexed.updateOne {m : KeyMap} (h : m.Indexed) (u : Key × KeyLocation) :
    (m.updateOne u).Indexed := by
  unfold KeyMap.updateOne
  cases hx : m.map u.1 with
  | none => exact h.locate hx { loc := u.2 }
  | some x => exact h.relocate hx { x with loc := u.2 }

/-- Every call keeps the index. -/
theorem Indexed.call {m : KeyMap} (h : m.Indexed) (c : Call) : (m.call c).Indexed := by
  cases c with
  | put key loc lba => exact h.put key loc lba
  | erase key => exact h.erase key
  | batchUpdate updates =>
    exact List.foldlRecOn updates KeyMap.updateOne h fun _ hm u _ => Indexed.updateOne hm u

/-- After every sequence of calls, the index has for each extent exactly the keys whose location is
in it, it has no empty set, and `keys_in_extent` returns those keys. -/
theorem keysInExtent_exact (calls : List Call) (id : UInt64) :
    let m := calls.foldl call empty
    m.reverseIndex id ≠ some ∅ ∧
      (∀ key, key ∈ (m.reverseIndex id).getD ∅ ↔ ∃ loc, m.lookup key = some loc ∧
        loc.extentId = id) ∧
      ∀ key, key ∈ m.keysInExtent id ↔ ∃ loc, m.lookup key = some loc ∧ loc.extentId = id := by
  intro m
  have hindexed : m.Indexed :=
    List.foldlRecOn calls call exact_empty fun _ hm c _ => Indexed.call hm c
  have hmem : ∀ key, key ∈ (m.reverseIndex id).getD ∅ ↔
      ∃ loc, m.lookup key = some loc ∧ loc.extentId = id := fun key => by
    calc key ∈ (m.reverseIndex id).getD ∅ ↔ m.extentOf key = some id := hindexed.mem key id
      _ ↔ ∃ loc, m.lookup key = some loc ∧ loc.extentId = id := Option.map_eq_some_iff
  have hkeys : m.keysInExtent id = (m.reverseIndex id).getD ∅ := by
    unfold keysInExtent
    cases m.reverseIndex id <;> rfl
  exact ⟨hindexed.nonempty id, hmem, fun key => by rw [hkeys]; exact hmem key⟩

/-! ## The key map of the engine -/

/-- The engine's key map, whose index has a list for each extent, is this one. -/
structure Agrees (m : KeyMap) (e : Engine) : Prop where
  /-- The locations. -/
  lookup : ∀ key, e.keyMap key = m.lookup key
  /-- No key is listed twice. -/
  nodup : ∀ id, (e.reverseIndex id).Nodup
  /-- The lists have the keys of the sets. -/
  mem : ∀ id key, key ∈ e.reverseIndex id ↔ key ∈ points m.reverseIndex id

variable {m : KeyMap} {e : Engine} {key : Key}

/-- A key that leaves the list of an extent leaves its set. -/
theorem Agrees.remove (h : Agrees m e) (id c : UInt64) (key k : Key) :
    (Function.update e.reverseIndex id ((e.reverseIndex id).erase key) c).Nodup ∧
      (k ∈ Function.update e.reverseIndex id ((e.reverseIndex id).erase key) c ↔
        k ∈ points (remove m.reverseIndex id key) c) := by
  rw [points_remove]
  by_cases hc : c = id
  · subst hc
    rw [Function.update_self, if_pos rfl, Finset.mem_erase, (h.nodup c).mem_erase_iff, h.mem]
    exact ⟨(h.nodup c).erase key, Iff.rfl⟩
  · rw [Function.update_of_ne hc, if_neg hc]
    exact ⟨h.nodup c, h.mem c k⟩

/-- A key that joins the list of an extent joins its set. -/
theorem insert_agrees {lists : UInt64 → List Key} {sets : UInt64 → Option (Finset Key)}
    (h : ∀ c k, (lists c).Nodup ∧ (k ∈ lists c ↔ k ∈ points sets c)) (id c : UInt64)
    (key k : Key) :
    (Function.update lists id ((lists id).insert key) c).Nodup ∧
      (k ∈ Function.update lists id ((lists id).insert key) c ↔ k ∈ points (add sets id key) c) := by
  rw [points_add]
  by_cases hc : c = id
  · subst hc
    rw [Function.update_self, if_pos rfl, Finset.mem_insert, List.mem_insert_iff, (h c k).2]
    exact ⟨(h c k).1.insert, Iff.rfl⟩
  · rw [Function.update_of_ne hc, if_neg hc]
    exact h c k

/-- The locations after a key has got an entry. -/
theorem lookup_update (m : KeyMap) (key : Key) (x : Option KeyEntry)
    (reverse : UInt64 → Option (Finset Key)) (k : Key) :
    lookup ⟨Function.update m.map key x, reverse⟩ k =
      Function.update m.lookup key (x.map KeyEntry.loc) k := by
  unfold lookup
  dsimp only
  by_cases h : k = key
  · subst h
    rw [Function.update_self, Function.update_self]
  · rw [Function.update_of_ne h, Function.update_of_ne h]

/-- The engine's `KeyMap::put` is that of the key map. -/
theorem Agrees.keyPut (h : Agrees m e) (key : Key) (loc : KeyLocation) (lba : UInt64) :
    Agrees (m.put key loc lba) (e.keyPut key loc) := by
  have hloc : ∀ k, (e.keyPut key loc).keyMap k = (m.put key loc lba).lookup k := fun k => by
    have hfun : e.keyMap = m.lookup := funext h.lookup
    unfold put
    rw [lookup_update]
    unfold Engine.keyPut
    dsimp only
    rw [hfun]
    rfl
  have hlook := h.lookup key
  cases hx : m.map key with
  | none =>
    have hnone : e.keyMap key = none := by rw [hlook, KeyMap.lookup, hx, Option.map_none]
    have hrev := fun c k => insert_agrees (fun c k => ⟨h.nodup c, h.mem c k⟩) loc.extentId c key k
    refine ⟨hloc, fun id => ?_, fun id k => ?_⟩
    · simpa [Engine.keyPut, hnone] using (hrev id key).1
    · simpa [Engine.keyPut, put, hx, hnone] using (hrev id k).2
  | some x =>
    have hsome : e.keyMap key = some x.loc := by rw [hlook, KeyMap.lookup, hx, Option.map_some]
    have hleave : ∀ c k, ((if x.loc.extentId ≠ loc.extentId then
          Function.update e.reverseIndex x.loc.extentId
            ((e.reverseIndex x.loc.extentId).erase key)
        else e.reverseIndex) c).Nodup ∧
        (k ∈ (if x.loc.extentId ≠ loc.extentId then
            Function.update e.reverseIndex x.loc.extentId
              ((e.reverseIndex x.loc.extentId).erase key)
          else e.reverseIndex) c ↔
          k ∈ points (m.leave key x.loc.extentId loc.extentId) c) := fun c k => by
      unfold leave
      split_ifs
      · exact h.remove _ c key k
      · exact ⟨h.nodup c, h.mem c k⟩
    have hrev := fun c k => insert_agrees hleave loc.extentId c key k
    refine ⟨hloc, fun id => ?_, fun id k => ?_⟩
    · unfold Engine.keyPut
      rw [hsome]
      exact (hrev id key).1
    · unfold Engine.keyPut put
      rw [hsome, hx]
      exact (hrev id k).2

/-- The engine's `KeyMap::erase` is that of the key map. -/
theorem Agrees.keyErase (h : Agrees m e) (key : Key) : Agrees (m.erase key) (e.keyErase key) := by
  have hlook := h.lookup key
  unfold erase Engine.keyErase
  cases hx : m.map key with
  | none =>
    rw [hlook, KeyMap.lookup, hx, Option.map_none]
    exact h
  | some x =>
    have hfun : e.keyMap = m.lookup := funext h.lookup
    rw [hlook, KeyMap.lookup, hx, Option.map_some]
    refine ⟨fun k => ?_, fun id => (h.remove _ id key key).1, fun id k => (h.remove _ id key k).2⟩
    rw [lookup_update, ← hfun]
    rfl

end KeyMap

end CxxLab.Btier
