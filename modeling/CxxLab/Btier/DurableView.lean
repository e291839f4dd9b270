import CxxLab.Btier.Durable

/-!
# What the journal's records change

The records that a call commits change the view, and here is that the devices hold the content
under the new view: after an `EXTENT_NEW`, a `KEY_PUT`, a `KEY_DEL`, and after a checkpoint, whose
view is the memory.
-/

namespace CxxLab.Btier

open Engine

namespace Engine

section

variable {env : Env} {held : List DiskLocation} {res : UInt64 → ℕ} {e e' e1 e2 : Engine}
  {m m' : Key → Option Value} {V V' : View}

/-! ## Slots and their bytes -/

/-- Two owned locations that are not the same do not overlap. -/
theorem Space.apart_of_ne (h : Space env held e) {a b : DiskLocation} (ha : a ∈ owned held e)
    (hb : b ∈ owned held e) (hab : a ≠ b) : a.Apart b := by
  have : Std.Symm DiskLocation.Apart := ⟨fun _ _ h => h.symm⟩
  exact h.apart.forall ha hb hab

/-- The location of an extent tells the extent. -/
theorem Space.location_inj (h : Space env held e) {a b : UInt64} {x y : ExtentEntry}
    (hx : e.entries.lookup a = some x) (hy : e.entries.lookup b = some y)
    (hloc : y.location = x.location) : b = a := by
  by_contra hab
  have hpos := (h.ok _ (location_mem_owned hx held)).pos
  have hc : x.location.Covers x.location.tier x.location.offset.toNat := ⟨rfl, le_refl _, by omega⟩
  exact h.apart_extents hx hy (Ne.symm hab) _ _ hc (hloc ▸ hc)

/-- The used part of an extent is in use. -/
theorem Space.inUse (h : Space env held e) {id : UInt64} {x : ExtentEntry}
    (hx : e.entries.lookup id = some x) {i : ℕ} (h1 : x.location.offset.toNat ≤ i)
    (h2 : i < x.location.offset.toNat + headerSize.toNat + x.usedBytes.toNat) :
    e.InUse x.location i := by
  obtain ⟨hfit, -⟩ := h.used id x hx
  refine ⟨h1, by omega, fun id' y hy hloc => ?_⟩
  obtain rfl := h.location_inj hx hy hloc
  obtain rfl : x = y := Option.some.inj (hx.symm.trans hy)
  exact h2

/-- A slot of the memory guards its value. -/
theorem Space.guards (h : Space env held e) {kl : KeyLocation} {v : Value} {x : ExtentEntry}
    (hx : e.entries.lookup kl.extentId = some x) (hh : e.Holds kl v)
    (hhead : e.HeaderOk x.location) : e.Guards x.location kl v := by
  obtain ⟨y, hy, hlen, hpos, hread⟩ := hh
  obtain rfl : x = y := Option.some.inj (hx.symm.trans hy)
  refine ⟨location_mem_owned hx [], hpos, fun i h1 h2 => ?_, hread, hhead⟩
  unfold slotStart at h1 h2
  exact h.inUse hx (by omega) (by omega)

/-- The keys of an extent need no more bytes than are live. -/
theorem Content.sum_le (h : Content env held res e m) {id : UInt64} {x : ExtentEntry}
    (hx : e.entries.lookup id = some x) {ks : List Key} (hnd : ks.Nodup)
    (hks : ∀ k ∈ ks, ∃ kl, e.keyMap k = some kl ∧ kl.extentId = id) :
    (ks.map e.slotLength).sum ≤ x.liveBytes.toNat := by
  have hsub : ks ⊆ e.reverseIndex id := fun k hk => (h.indexed.mem k id).mpr (hks k hk)
  obtain ⟨ks', hperm, hsl⟩ := List.subperm_of_subset hnd hsub
  calc (ks.map e.slotLength).sum = (ks'.map e.slotLength).sum := (hperm.map _).sum_eq.symm
    _ ≤ ((e.reverseIndex id).map e.slotLength).sum :=
      (hsl.map e.slotLength).sum_le_sum fun _ _ => Nat.zero_le _
    _ = e.keyBytes id := rfl
    _ ≤ x.liveBytes.toNat := (Nat.le_add_right _ _).trans (h.live id x hx)

/-! ## The views of the single records -/

/-- The keys of the view change, and the key map with them. -/
theorem Sound.withKeys (h : Sound e V m)
    (hf : e' = { e with keyMap := e'.keyMap, reverseIndex := e'.reverseIndex })
    {keys : Key → Option KeyLocation} (habsent : ∀ k, keys k = none → m' k = none)
    (hslot : ∀ k kl, keys k = some kl → ∃ loc v, V.extents kl.extentId = some loc ∧
      m' k = some v ∧ e.Guards loc kl v)
    (hbytes : ∀ id (ks : List Key), ks.Nodup →
      (∀ k ∈ ks, ∃ kl, keys k = some kl ∧ kl.extentId = id) →
      (ks.map fun k => ((keys k).getD {}).length.toNat).sum < 2 ^ 32)
    (htracks : Tracks e' { V with keys := keys }) : Sound e' { V with keys := keys } m' := by
  refine ⟨by rw [hf]; exact h.older, habsent, fun k kl hk => ?_, hbytes, ?_, htracks⟩
  · obtain ⟨loc, v, hext, hv, hg⟩ := hslot k kl hk
    refine ⟨loc, v, hext, hv, ?_⟩
    rw [hf]
    exact ⟨hg.mem, hg.pos, hg.inUse, hg.read, hg.header⟩
  · rw [hf]
    exact h.headers

/-- A `KEY_PUT` record, and the key map with it: the slot is in an extent that the view knows. -/
theorem Sound.keyPut (h : Sound e V m) {k : Key} {new : KeyLocation} {v : Value} {x : ExtentEntry}
    (hsp : Space env held e) (hx : e.entries.lookup new.extentId = some x)
    (hext : V.extents new.extentId = some x.location) (hh : e.Holds new v)
    (hc : Content env held res (e.keyPut k new) m') :
    Sound (e.keyPut k new) { V with keys := Function.update V.keys k (some new) }
      (Function.update m k (some v)) := by
  -- The counts of the extents follow the record.
  have htracks : Tracks (e.keyPut k new)
      { V with keys := Function.update V.keys k (some new) } := by
    intro k' kl y hk' hy
    rw [keyPut_keyMap]
    by_cases hkk : k' = k
    · subst hkk
      simpa using hk'
    · simp only [Function.update_of_ne hkk] at hk' ⊢
      exact h.tracks k' kl y hk' hy
  -- The keys without a slot, those with one, and the live bytes of each extent.
  refine h.withKeys rfl (fun k' hk' => ?_) (fun k' kl hk' => ?_) (fun id ks hnd hks => ?_) htracks
  · by_cases hkk : k' = k
    · subst hkk
      simp at hk'
    · rw [Function.update_of_ne hkk] at hk' ⊢
      exact h.absent k' hk'
  · by_cases hkk : k' = k
    · subst hkk
      rw [Function.update_self, Option.some.injEq] at hk'
      subst hk'
      exact ⟨x.location, v, hext, Function.update_self ..,
        hsp.guards hx hh (h.headers _ _ hx)⟩
    · rw [Function.update_of_ne hkk] at hk' ⊢
      exact h.slot k' kl hk'
  · by_cases hid : id = new.extentId
    · -- The extent is there, and its live bytes cover the keys.
      subst hid
      have hkeys : ∀ k' ∈ ks, ∃ kl, (e.keyPut k new).keyMap k' = some kl ∧
          kl.extentId = new.extentId := by
        intro k' hk'
        obtain ⟨kl, hkl, hid⟩ := hks k' hk'
        exact ⟨kl, htracks k' kl x hkl (by rw [hid]; exact hx), hid⟩
      have hsum := hc.sum_le (x := x) hx hnd hkeys
      have hmap : ks.map (e.keyPut k new).slotLength = ks.map fun k' =>
          ((Function.update V.keys k (some new) k').getD {}).length.toNat := by
        refine List.map_congr_left fun k' hk' => ?_
        obtain ⟨kl, hkl, hid⟩ := hks k' hk'
        rw [hkl]
        unfold slotLength
        rw [htracks k' kl x hkl (by rw [hid]; exact hx)]
        rfl
      rw [← hmap]
      exact hsum.trans_lt x.liveBytes.toNat_lt
    · -- The key has gone from every other extent.
      have hne : ∀ k' ∈ ks, k' ≠ k := by
        rintro k' hk' rfl
        obtain ⟨kl, hkl, rfl⟩ := hks k' hk'
        rw [Function.update_self, Option.some.injEq] at hkl
        exact hid (congrArg _ hkl.symm)
      have hmap : (ks.map fun k' => ((Function.update V.keys k (some new) k').getD {}).length.toNat) =
          ks.map fun k' => ((V.keys k').getD {}).length.toNat :=
        List.map_congr_left fun k' hk' => by rw [Function.update_of_ne (hne k' hk')]
      rw [hmap]
      refine h.bytes id ks hnd fun k' hk' => ?_
      obtain ⟨kl, hkl, hid'⟩ := hks k' hk'
      rw [Function.update_of_ne (hne k' hk')] at hkl
      exact ⟨kl, hkl, hid'⟩

/-- A `KEY_DEL` record, and the key map with it. -/
theorem Sound.keyErase (h : Sound e V m) (k : Key) :
    Sound (e.keyErase k) { V with keys := Function.update V.keys k none }
      (Function.update m k none) := by
  have hf := keyErase_frame e k
  have hne : ∀ k' kl, Function.update V.keys k none k' = some kl → k' ≠ k ∧ V.keys k' = some kl := by
    intro k' kl hk'
    by_cases hkk : k' = k
    · subst hkk
      simp at hk'
    · rw [Function.update_of_ne hkk] at hk'
      exact ⟨hkk, hk'⟩
  refine h.withKeys hf (fun k' hk' => ?_) (fun k' kl hk' => ?_) (fun id ks hnd hks => ?_) ?_
  · by_cases hkk : k' = k
    · rw [hkk, Function.update_self]
    · rw [Function.update_of_ne hkk] at hk' ⊢
      exact h.absent k' hk'
  · obtain ⟨hkk, hk'⟩ := hne k' kl hk'
    rw [Function.update_of_ne hkk]
    exact h.slot k' kl hk'
  · have hmap : (ks.map fun k' => ((Function.update V.keys k none k').getD {}).length.toNat) =
        ks.map fun k' => ((V.keys k').getD {}).length.toNat := by
      refine List.map_congr_left fun k' hk' => ?_
      obtain ⟨kl, hkl, -⟩ := hks k' hk'
      rw [Function.update_of_ne (hne k' kl hkl).1]
    rw [hmap]
    refine h.bytes id ks hnd fun k' hk' => ?_
    obtain ⟨kl, hkl, hid⟩ := hks k' hk'
    exact ⟨kl, (hne k' kl hkl).2, hid⟩
  · intro k' kl x hk' hx
    obtain ⟨hkk, hk'⟩ := hne k' kl hk'
    rw [keyErase_keyMap, Function.update_of_ne hkk]
    exact h.tracks k' kl x hk' (by rw [hf] at hx; exact hx)

/-- An `EXTENT_NEW` record of an extent that the view does not know. -/
theorem Sound.extentNew (h : Sound e V m) {id : UInt64} {loc : DiskLocation}
    (hnone : V.extents id = none) (hid : id.toNat < e.nextExtentId.toNat) :
    Sound e { V with extents := Function.update V.extents id (some loc) } m := by
  refine ⟨fun id' hid' => ?_, h.absent, fun k kl hk => ?_, h.bytes, h.headers, h.tracks⟩
  · by_cases hii : id' = id
    · rw [hii]; exact hid
    · simp only [Function.update_of_ne hii] at hid'
      exact h.older id' hid'
  · obtain ⟨loc', v, hext, hv, hg⟩ := h.slot k kl hk
    refine ⟨loc', v, ?_, hv, hg⟩
    have hne : kl.extentId ≠ id := by
      rintro rfl
      rw [hnone] at hext
      cases hext
    simp only [Function.update_of_ne hne]
    exact hext

/-! ## Checkpoints -/

/-- What the memory says. -/
def memoryView (e : Engine) : View :=
  ⟨e.keyMap, fun id => (e.entries.lookup id).map ExtentEntry.location⟩

/-- The memory is sound. -/
theorem Content.sound_memoryView (h : Content env held res e m)
    (hhead : ∀ id x, e.entries.lookup id = some x → e.HeaderOk x.location) :
    Sound e e.memoryView m := by
  refine ⟨fun id hid => ?_, h.absent, fun k kl hk => ?_, fun id ks hnd hks => ?_, hhead,
    fun k kl x hk _ => hk⟩
  · obtain ⟨loc, hloc⟩ := Option.ne_none_iff_exists'.mp hid
    obtain ⟨x, hx, -⟩ := Option.map_eq_some_iff.mp hloc
    exact h.space.fresh id x hx
  · obtain ⟨v, hv, hh⟩ := h.slot k kl hk
    obtain ⟨x, hx, -⟩ := id hh
    exact ⟨x.location, v, by simp only [memoryView, hx, Option.map_some], hv,
      h.space.guards hx hh (hhead _ _ hx)⟩
  · rcases ks with _ | ⟨k, ks⟩
    · simp
    obtain ⟨kl, hkl, rfl⟩ := hks k (by simp)
    obtain ⟨-, -, x, hx, -⟩ := h.slot k kl hkl
    refine (Eq.trans_le ?_ (h.sum_le hx hnd hks)).trans_lt x.liveBytes.toNat_lt
    refine congrArg List.sum (List.map_congr_left fun k' hk' => ?_)
    obtain ⟨kl', hkl', -⟩ := hks k' hk'
    rw [show e.memoryView.keys k' = e.keyMap k' from rfl] at hkl' ⊢
    unfold slotLength
    rw [hkl']
    rfl

/-- The view of the key records of one extent. -/
theorem foldl_keyRecords (f : Key → KeyLocation) (ks : List Key) (V : View) :
    (ks.map fun k => ({ op := .keyPut, key := k, keyLoc := f k } : JournalRecord)).foldl
      View.apply V = { V with keys := fun k => if k ∈ ks then some (f k) else V.keys k } := by
  induction ks generalizing V with
  | nil => simp
  | cons k ks ih =>
    rw [List.map_cons, List.foldl_cons, ih]
    simp only [View.apply, View.mk.injEq, and_true]
    funext k'
    by_cases hin : k' ∈ ks
    · simp [hin]
    · by_cases hkk : k' = k
      · subst hkk
        simp [hin]
      · simp [hin, hkk]

/-- The view of the records of some extents. -/
theorem foldl_extentRecords (ids : List UInt64) (V : View) :
    (ids.flatMap (e.extentRecords env)).foldl View.apply V =
      ⟨fun k => if ∃ id ∈ ids, id ∈ e.entries ∧ k ∈ e.keysInExtent env id then
          some ((e.keyMap k).getD {}) else V.keys k,
        fun id => if id ∈ ids ∧ id ∈ e.entries then
          (e.entries.lookup id).map ExtentEntry.location else V.extents id⟩ := by
  induction ids generalizing V with
  | nil => simp
  | cons id ids ih =>
    rw [List.flatMap_cons, List.foldl_append, ih]
    cases hx : e.entries.lookup id with
    | none =>
      have hnot : id ∉ e.entries := AList.lookup_eq_none.mp hx
      simp only [extentRecords, hx, List.foldl_nil, View.mk.injEq, List.mem_cons,
        exists_eq_or_imp, hnot, false_and, false_or, true_and]
      funext id'
      by_cases hii : id' = id
      · subst hii
        simp [hnot]
      · simp [hii]
    | some x =>
      have hmem : id ∈ e.entries := AList.lookup_isSome.mp (by rw [hx]; rfl)
      simp only [extentRecords, hx, List.foldl_cons, foldl_keyRecords, View.apply, View.mk.injEq,
        List.mem_cons, exists_eq_or_imp, hmem, true_and]
      constructor
      · funext k
        by_cases h1 : ∃ a ∈ ids, a ∈ e.entries ∧ k ∈ e.keysInExtent env a
        · simp [h1]
        · simp [h1]
      · funext id'
        by_cases hii : id' = id
        · subst hii
          simp [hmem, hx]
        · simp [hii]

/-- The view of a checkpoint is the memory. -/
theorem Content.after_buildCheckpointState (henv : env.Lawful) (h : Content env held res e m) :
    View.after (e.buildCheckpointState env) = e.memoryView := by
  have hids : ∀ id, id ∈ env.orderIds e.log.length e.entries.keys ↔ id ∈ e.entries := fun id =>
    (henv.ids _ _).mem_iff.trans AList.mem_keys.symm
  have hkeys : ∀ k id, k ∈ e.keysInExtent env id ↔ ∃ kl, e.keyMap k = some kl ∧ kl.extentId = id :=
    fun k id => (henv.keys _ _).mem_iff.trans (h.indexed.mem k id)
  unfold View.after buildCheckpointState
  rw [foldl_extentRecords]
  simp only [memoryView, View.mk.injEq, hids, hkeys]
  constructor
  · funext k
    cases hk : e.keyMap k with
    | none => simp [View.empty]
    | some kl =>
      obtain ⟨-, -, x, hx, -⟩ := h.slot k kl hk
      have hmem : kl.extentId ∈ e.entries := AList.lookup_isSome.mp (by rw [hx]; rfl)
      simp [hmem]
  · funext id
    cases hx : e.entries.lookup id with
    | none => simp [View.empty]
    | some x =>
      have hmem : id ∈ e.entries := AList.lookup_isSome.mp (by rw [hx]; rfl)
      simp [hmem]

/-- The records of a checkpoint can be stored when the keys are short. -/
theorem Content.storable (henv : env.Lawful) (h : Content env held res e m)
    (hshort : ∀ k v, m k = some v → k.length < 2 ^ 32) :
    ∀ r ∈ e.buildCheckpointState env, r.Storable := by
  intro r hr
  obtain ⟨id, -, hr⟩ := List.mem_flatMap.mp hr
  unfold extentRecords at hr
  cases hx : e.entries.lookup id with
  | none =>
    rw [hx] at hr
    cases hr
  | some x =>
    simp only [hx, List.mem_cons, List.mem_map] at hr
    rcases hr with rfl | ⟨k, hk, rfl⟩
    · refine ⟨by rfl, by simp, ?_⟩
      have := (h.space.ok _ (location_mem_owned hx held)).area
      tauto
    · obtain ⟨kl, hkl, -⟩ := (h.indexed.mem k id).mp ((henv.keys _ _).mem_iff.mp hk)
      obtain ⟨v, hv, -⟩ := h.slot k kl hkl
      exact ⟨by rfl, hshort k v hv, .inl rfl⟩

end

end Engine

end CxxLab.Btier
