import CxxLab.Btier.CrashMigration
import CxxLab.Btier.EngineRuns
import Mathlib.Data.List.TakeWhile

/-!
# The free-list index

`extent_map.cc`'s `free_lists_`: for each tier the set of pairs of free bytes and extent, by which
`find_extent_with_space` finds room. Each operation on an extent takes the pair away that it
remembers and puts in a new one. This keeps the index exact, but for `commit_migration`, which moves
an extent without its pair (`commitMigration_index_iff`).
-/

namespace CxxLab.Btier

namespace Engine

/-! ## The sets of pairs -/

/-- The order of the pairs. -/
def Before (p q : UInt32 × UInt64) : Prop := p.1 < q.1 ∨ (p.1 = q.1 ∧ p.2 < q.2)

/-- The order of the free list goes on. -/
theorem Before.trans {p q r : UInt32 × UInt64} (h1 : Before p q) (h2 : Before q r) :
    Before p r := by
  simp only [Before, UInt32.lt_iff_toNat_lt, UInt64.lt_iff_toNat_lt, ← UInt32.toNat_inj] at *
  omega

/-- No pair is before itself. -/
theorem Before.ne {p q : UInt32 × UInt64} (h : Before p q) : p ≠ q := by
  rintro rfl
  simp [Before] at h

/-- Of two pairs one is before the other. -/
theorem before_of_not {p q : UInt32 × UInt64} (h : ¬Before p q) (hne : p ≠ q) : Before q p := by
  have : ¬(p.1 = q.1 ∧ p.2 = q.2) := fun heq => hne (Prod.ext heq.1 heq.2)
  simp only [Before, UInt32.lt_iff_toNat_lt, UInt64.lt_iff_toNat_lt, ← UInt32.toNat_inj,
    ← UInt64.toNat_inj] at *
  omega

/-- A pair that is inserted is one more in the list. -/
@[simp] theorem mem_freeInsert {p q : UInt32 × UInt64} {l : List (UInt32 × UInt64)} :
    q ∈ freeInsert p l ↔ q = p ∨ q ∈ l := by
  induction l with
  | nil => simp [freeInsert]
  | cons r l ih =>
    rw [freeInsert]
    split_ifs with hlt heq
    · rw [List.mem_cons]
    · subst heq
      simp
    · rw [List.mem_cons, ih, List.mem_cons]
      exact or_left_comm

/-- An insertion keeps the order. -/
theorem pairwise_freeInsert {p : UInt32 × UInt64} {l : List (UInt32 × UInt64)}
    (h : l.Pairwise Before) : (freeInsert p l).Pairwise Before := by
  induction l with
  | nil => exact List.pairwise_singleton _ _
  | cons r l ih =>
    obtain ⟨hr, hl⟩ := List.pairwise_cons.mp h
    rw [freeInsert]
    split_ifs with hlt heq
    · refine List.pairwise_cons.mpr ⟨fun q hq => ?_, h⟩
      rcases List.mem_cons.mp hq with rfl | hq
      · exact hlt
      · exact Before.trans hlt (hr q hq)
    · exact h
    · refine List.pairwise_cons.mpr ⟨fun q hq => ?_, ih hl⟩
      rcases mem_freeInsert.mp hq with rfl | hq
      · exact before_of_not hlt heq
      · exact hr q hq

/-- What is left behind the pairs with too little room has room. -/
theorem le_of_mem_dropWhile {l : List (UInt32 × UInt64)} {n : UInt32} {p : UInt32 × UInt64}
    (h : l.Pairwise Before) (hp : p ∈ l.dropWhile (·.1 < n)) : n ≤ p.1 := by
  induction l with
  | nil => cases hp
  | cons r l ih =>
    obtain ⟨hr, hl⟩ := List.pairwise_cons.mp h
    rw [List.dropWhile_cons] at hp
    split_ifs at hp with hlt
    · exact ih hl hp
    · have hle : n ≤ r.1 := UInt32.not_lt.mp (by simpa using hlt)
      rcases List.mem_cons.mp hp with rfl | hp
      · exact hle
      · have hbefore := hr p hp
        simp only [Before, UInt32.lt_iff_toNat_lt, UInt32.le_iff_toNat_le,
          ← UInt32.toNat_inj] at hbefore hle ⊢
        omega

/-! ## The index -/

/-- The free bytes of an extent. -/
def freeBytesOf (x : ExtentEntry) : UInt32 := x.capacity - x.usedBytes

/-- The lists have one pair for each extent, on its tier and with its free bytes, and no other. -/
structure FreeIndex (e : Engine) : Prop where
  /-- The lists are in order, and have no pair twice. -/
  sorted : ∀ t, (e.freeLists t).Pairwise Before
  /-- The pairs are those of the extents. -/
  mem : ∀ t p, p ∈ e.freeLists t ↔
    ∃ x, e.entries.lookup p.2 = some x ∧ x.location.tier = t ∧ p.1 = freeBytesOf x

variable {env : Env} {e e' : Engine} {id : UInt64} {x x' : ExtentEntry}

namespace FreeIndex

/-- No pair is twice in a list. -/
theorem nodup (h : FreeIndex e) (t : Tier) : (e.freeLists t).Nodup :=
  (h.sorted t).imp Before.ne

/-- The pair of an extent. -/
theorem mem_iff (h : FreeIndex e) (hx : e.entries.lookup id = some x) {t : Tier} {f : UInt32} :
    (f, id) ∈ e.freeLists t ↔ x.location.tier = t ∧ f = freeBytesOf x := by
  rw [h.mem]
  constructor
  · rintro ⟨y, hy, htier, hf⟩
    obtain rfl := Option.some.inj (hx.symm.trans hy)
    exact ⟨htier, hf⟩
  · exact fun hf => ⟨x, hx, hf⟩

/-- The index depends on the entries and the lists alone. -/
theorem congr (h : FreeIndex e) (hent : e'.entries = e.entries)
    (hlists : e'.freeLists = e.freeLists) : FreeIndex e' where
  sorted := by rw [hlists]; exact h.sorted
  mem := by rw [hlists, hent]; exact h.mem

/-- What one extent changes to, in the lists and in the map, nothing at all or an entry. -/
theorem change (h : FreeIndex e) (id : UInt64) {o : Option ExtentEntry}
    (hent : ∀ a, e'.entries.lookup a = if a = id then o else e.entries.lookup a)
    (hsorted : ∀ t, (e'.freeLists t).Pairwise Before)
    (hlists : ∀ t p, p ∈ e'.freeLists t ↔ if p.2 = id then
      ∃ y, o = some y ∧ y.location.tier = t ∧ p.1 = freeBytesOf y else p ∈ e.freeLists t) :
    FreeIndex e' where
  sorted := hsorted
  mem t p := by
    rw [hlists, hent]
    split_ifs
    · rfl
    · exact h.mem t p

/-- The lookups after an entry is set. -/
theorem lookup_insert (s : AList fun _ : UInt64 => ExtentEntry) (a : UInt64) :
    (s.insert id x').lookup a = if a = id then some x' else s.lookup a := by
  split_ifs with ha
  · subst ha
    exact AList.lookup_insert s
  · exact AList.lookup_insert_ne ha

/-- An entry that keeps its tier and its free bytes keeps its pair. -/
theorem setEntry (h : FreeIndex e) (hx : e.entries.lookup id = some x)
    (htier : x'.location.tier = x.location.tier) (hfree : freeBytesOf x' = freeBytesOf x)
    (hent : e'.entries = e.entries.insert id x') (hlists : e'.freeLists = e.freeLists) :
    FreeIndex e' := by
  refine h.change id (fun a => by rw [hent]; exact lookup_insert _ a)
    (by rw [hlists]; exact h.sorted) fun t p => ?_
  rw [hlists]
  split_ifs with hp
  · obtain ⟨f, i⟩ := p
    obtain rfl : i = id := hp
    rw [h.mem_iff hx, ← htier, ← hfree]
    simp
  · rfl

/-- `update_free_list` for an entry that keeps its place. -/
theorem update (h : FreeIndex e) (hx : e.entries.lookup id = some x)
    (hloc : x'.location = x.location) :
    FreeIndex ({ e with entries := e.entries.insert id x' }.updateFreeList id x.location.tier
      (freeBytesOf x) (freeBytesOf x')) := by
  refine h.change id (lookup_insert _) (fun t => ?_) fun t p => ?_
  · simp only [updateFreeList]
    by_cases ht : t = x.location.tier
    · subst ht
      rw [Function.update_self]
      exact pairwise_freeInsert ((h.sorted _).sublist List.erase_sublist)
    · rw [Function.update_of_ne ht]
      exact h.sorted t
  · obtain ⟨f, i⟩ := p
    simp only [updateFreeList]
    by_cases ht : t = x.location.tier
    · subst ht
      rw [Function.update_self, mem_freeInsert, (h.nodup _).mem_erase_iff]
      split_ifs with hi
      · obtain rfl : i = id := hi
        rw [h.mem_iff hx]
        simp [hloc]
      · have hne : ∀ g : UInt32, (f, i) ≠ (g, id) := fun g heq => hi (Prod.mk.inj heq).2
        simp [hne]
    · rw [Function.update_of_ne ht]
      split_ifs with hi
      · obtain rfl : i = id := hi
        rw [h.mem_iff hx]
        simp [hloc, Ne.symm ht]
      · rfl

/-- A new extent. -/
theorem insert (h : FreeIndex e) (hnone : e.entries.lookup id = none) {loc : DiskLocation}
    (hent : e'.entries = e.entries.insert id { location := loc })
    (hlists : e'.freeLists = Function.update e.freeLists loc.tier
      (freeInsert (loc.length - headerSize, id) (e.freeLists loc.tier))) : FreeIndex e' := by
  have hno : ∀ t f, (f, id) ∉ e.freeLists t := by
    intro t f hmem
    obtain ⟨y, hy, -⟩ := (h.mem t (f, id)).mp hmem
    rw [hnone] at hy
    cases hy
  have hfree : freeBytesOf { location := loc } = loc.length - headerSize := UInt32.sub_zero _
  refine h.change id (fun a => by rw [hent]; exact lookup_insert _ a) (fun t => ?_) fun t p => ?_
  · rw [hlists]
    by_cases ht : t = loc.tier
    · subst ht
      rw [Function.update_self]
      exact pairwise_freeInsert (h.sorted _)
    · rw [Function.update_of_ne ht]
      exact h.sorted t
  · obtain ⟨f, i⟩ := p
    rw [hlists]
    by_cases ht : t = loc.tier
    · subst ht
      rw [Function.update_self, mem_freeInsert]
      split_ifs with hi
      · obtain rfl : i = id := hi
        simp [hno, hfree]
      · simp [show i ≠ id from hi]
    · rw [Function.update_of_ne ht]
      split_ifs with hi
      · obtain rfl : i = id := hi
        simp [hno, Ne.symm ht]
      · rfl

/-- `free`. -/
theorem freeExtent (h : FreeIndex e) (id : UInt64) : FreeIndex (e.freeExtent id) := by
  unfold Engine.freeExtent
  cases hx : e.entries.lookup id with
  | none => exact h
  | some x =>
    refine h.change id (o := none) (fun a => ?_) (fun t => ?_) fun t p => ?_
    · dsimp only
      split_ifs with ha
      · subst ha
        exact AList.lookup_erase _ _
      · exact AList.lookup_erase_ne ha
    · dsimp only
      by_cases ht : t = x.location.tier
      · subst ht
        rw [Function.update_self]
        exact (h.sorted _).sublist List.erase_sublist
      · rw [Function.update_of_ne ht]
        exact h.sorted t
    · obtain ⟨f, i⟩ := p
      dsimp only
      by_cases ht : t = x.location.tier
      · subst ht
        rw [Function.update_self, (h.nodup _).mem_erase_iff]
        split_ifs with hi
        · obtain rfl : i = id := hi
          rw [h.mem_iff hx]
          simp [freeBytesOf]
        · have hne : ∀ g : UInt32, (f, i) ≠ (g, id) := fun g heq => hi (Prod.mk.inj heq).2
          simp [hne]
      · rw [Function.update_of_ne ht]
        split_ifs with hi
        · obtain rfl : i = id := hi
          rw [h.mem_iff hx]
          simp [Ne.symm ht]
        · rfl

/-- `find_extent_with_space` finds an active extent that has room, if there is one. -/
theorem findExtentWithSpace (h : FreeIndex e) {t : Tier} {n : UInt32}
    (hex : ∃ id x, e.entries.lookup id = some x ∧ x.migrating = false ∧ x.location.tier = t ∧
      n ≤ freeBytesOf x) : ∃ x, e.entries.lookup (e.findExtentWithSpace t n) = some x ∧
      x.migrating = false ∧ x.location.tier = t ∧ n ≤ freeBytesOf x := by
  obtain ⟨id, x, hx, hactive, htier, hn⟩ := hex
  have hmem : (freeBytesOf x, id) ∈ (e.freeLists t).dropWhile (·.1 < n) := by
    have hlist := (h.mem_iff hx).mpr ⟨htier, rfl⟩
    rw [← List.takeWhile_append_dropWhile (p := (·.1 < n)) (l := e.freeLists t)] at hlist
    refine (List.mem_append.mp hlist).resolve_left fun htake => ?_
    have hlt : freeBytesOf x < n := by simpa using (List.mem_takeWhile_imp htake)
    exact absurd hlt (UInt32.not_lt.mpr hn)
  unfold Engine.findExtentWithSpace
  split
  case h_1 p hp =>
    have hpdrop := List.mem_of_find?_eq_some hp
    obtain ⟨y, hy, hytier, hyfree⟩ := (h.mem t p).mp ((List.dropWhile_sublist _).subset hpdrop)
    have hyactive := List.find?_some hp
    rw [hy] at hyactive
    exact ⟨y, hy, by simpa using hyactive, hytier, hyfree ▸ le_of_mem_dropWhile (h.sorted t) hpdrop⟩
  case h_2 hnone =>
    -- The pair of the extent is among those that are looked at.
    have hfound := List.find?_eq_none.mp hnone _ hmem
    simp [hx, hactive] at hfound

end FreeIndex

/-! ## The operations -/

/-- The index is exact, and no extent has the name of one that is still to come. -/
structure Listed (e : Engine) : Prop extends FreeIndex e where
  /-- The names are below the next one. -/
  named : ∀ id x, e.entries.lookup id = some x → id.toNat < e.nextExtentId.toNat

/-- After the operation the index is exact, and at most `n` names were given. -/
structure Lists (n : ℕ) (e e' : Engine) : Prop where
  listed : Listed e'
  next : e'.nextExtentId.toNat ≤ e.nextExtentId.toNat + n

/-- Two operations give the names of both. -/
theorem Lists.trans {m n : ℕ} {e1 : Engine} (h1 : Lists m e e1) (h2 : Lists n e1 e') :
    Lists (m + n) e e' :=
  ⟨h2.listed, by have := h1.next; have := h2.next; omega⟩

/-- An operation that gives few names gives no more than many. -/
theorem Lists.mono {m n : ℕ} (h : Lists m e e') (hmn : m ≤ n) : Lists n e e' :=
  ⟨h.listed, by have := h.next; omega⟩

namespace Listed

/-- Nothing is done. -/
theorem refl (h : Listed e) : Lists 0 e e := ⟨h, le_rfl⟩

/-- What is not about the extents. -/
theorem congr (h : Listed e) (e' : Engine) (hent : e'.entries = e.entries)
    (hlists : e'.freeLists = e.freeLists) (hnext : e'.nextExtentId = e.nextExtentId) :
    Lists 0 e e' :=
  ⟨⟨h.toFreeIndex.congr hent hlists, by rw [hent, hnext]; exact h.named⟩, by rw [hnext]; omega⟩

/-- An entry is set, where there was one. -/
theorem named_insert (h : Listed e) (hx : e.entries.lookup id = some x) (a : UInt64)
    (y : ExtentEntry) (hy : (e.entries.insert id x').lookup a = some y) :
    a.toNat < e.nextExtentId.toNat := by
  rw [FreeIndex.lookup_insert] at hy
  split_ifs at hy with ha
  · subst ha
    exact h.named _ x hx
  · exact h.named a y hy

/-- An entry that keeps its tier and its free bytes. -/
theorem setEntry (h : Listed e) (x' : ExtentEntry) (hx : e.entries.lookup id = some x)
    (htier : x'.location.tier = x.location.tier) (hfree : freeBytesOf x' = freeBytesOf x)
    (hent : e'.entries = e.entries.insert id x') (hlists : e'.freeLists = e.freeLists)
    (hnext : e'.nextExtentId = e.nextExtentId) : Lists 0 e e' :=
  ⟨⟨h.toFreeIndex.setEntry hx htier hfree hent hlists, by
    rw [hent, hnext]; exact h.named_insert hx⟩, by rw [hnext]; omega⟩

/-- `append_slot`. -/
theorem appendSlot (h : Listed e) (id : UInt64) (size : UInt32) :
    Lists 0 e (e.appendSlot id size).2 := by
  unfold Engine.appendSlot
  cases hx : e.entries.lookup id with
  | none => exact h.refl
  | some x =>
    dsimp only
    split_ifs
    · exact h.refl
    · exact ⟨⟨h.toFreeIndex.update hx rfl, h.named_insert hx⟩, le_rfl⟩

/-- `mark_dead_slot`. -/
theorem markDeadSlot (h : Listed e) (id : UInt64) (length : UInt32) :
    Lists 0 e (e.markDeadSlot id length) := by
  unfold Engine.markDeadSlot
  cases hx : e.entries.lookup id with
  | none => exact h.refl
  | some x => exact ⟨⟨h.toFreeIndex.update hx rfl, h.named_insert hx⟩, le_rfl⟩

/-- `free`. -/
theorem freeExtent (h : Listed e) (id : UInt64) : Lists 0 e (e.freeExtent id) := by
  have hframe := freeExtent_frame e id
  refine ⟨⟨h.toFreeIndex.freeExtent id, ?_⟩, by rw [hframe]; exact le_rfl⟩
  rw [hframe]
  intro a y hy
  by_cases ha : a = id
  · subst ha
    rw [AList.lookup_erase] at hy
    cases hy
  · rw [AList.lookup_erase_ne ha] at hy
    exact h.named a y hy

/-- A slot is given up, and with its last live bytes the extent. -/
theorem retireSlot (h : Listed e) (old : KeyLocation) : Lists 0 e (e.retireSlot old) := by
  unfold Engine.retireSlot
  have hdead := h.markDeadSlot old.extentId old.length
  dsimp only
  split_ifs
  · exact hdead.trans (hdead.listed.freeExtent _)
  · exact hdead

/-- A write to the device keeps the index exact. -/
theorem devWrite (h : Listed e) {t : Tier} {off : ℕ} {bs : List UInt8}
    (hw : e.devWrite env t off bs = some e') : Lists 0 e e' := by
  have hframe := (devWrite_frame hw).1
  exact h.congr _ (by rw [hframe]) (by rw [hframe]) (by rw [hframe])

/-- The allocators are not about the extents. -/
theorem allocateOn_frame (e : Engine) (env : Env) (t : Tier) (size : ℕ) :
    (e.allocateOn env t size).2 = { e with
      allocCalls := (e.allocateOn env t size).2.allocCalls
      free := (e.allocateOn env t size).2.free } := by
  unfold allocateOn Engine.allocate
  dsimp only
  generalize env.allocate e.allocCalls t (e.free t) (alignedSize env size) = frags
  cases frags with
  | nil => rfl
  | cons f fs =>
    dsimp only
    split_ifs
    · rfl
    · rfl

/-- Allocating space leaves the extents. -/
theorem allocateRaw_entries (env : Env) (e : Engine) (t : Tier) (size : ℕ) :
    (e.allocateRaw env t size).2.entries = e.entries := by
  have hon : ∀ (e : Engine) t, (e.allocateOn env t size).2.entries = e.entries := fun e t => by
    rw [allocateOn_frame]
  unfold Engine.allocateRaw
  have hfirst := hon e t
  cases ha : e.allocateOn env t size with
  | mk loc e1 =>
    rw [ha] at hfirst
    cases loc with
    | some loc => exact hfirst
    | none =>
      dsimp only
      split_ifs
      · exact (hon e1 .slow).trans hfirst
      · exact hfirst

/-- Allocating space keeps the index exact. -/
theorem allocateRaw (env : Env) (h : Listed e) (t : Tier) (size : ℕ) :
    Lists 0 e (e.allocateRaw env t size).2 := by
  have hon : ∀ {e : Engine} (t : Tier), Listed e → Lists 0 e (e.allocateOn env t size).2 := by
    intro e t h
    have hframe := allocateOn_frame e env t size
    exact h.congr _ (by rw [hframe]) (by rw [hframe]) (by rw [hframe])
  unfold Engine.allocateRaw
  have hfirst := hon t h
  cases ha : e.allocateOn env t size with
  | mk loc e1 =>
    rw [ha] at hfirst
    cases loc with
    | some loc => exact hfirst
    | none =>
      dsimp only
      split_ifs
      · exact hfirst.trans (hon .slow hfirst.listed)
      · exact hfirst

/-- `allocate_extent`, when there is a name left. -/
theorem allocateExtent (env : Env) (h : Listed e) (t : Tier) (size : ℕ)
    (hnext : e.nextExtentId.toNat + 1 < 2 ^ 64) : Lists 1 e (e.allocateExtent env t size).2 := by
  unfold Engine.allocateExtent
  have hraw := h.allocateRaw env t size
  cases ha : e.allocateRaw env t size with
  | mk loc e1 =>
    rw [ha] at hraw
    have hle : e1.nextExtentId.toNat ≤ e.nextExtentId.toNat := hraw.next
    cases loc with
    | none => exact hraw.mono (by omega)
    | some loc =>
      have hnone : e1.entries.lookup e1.nextExtentId = none := by
        cases hx : e1.entries.lookup e1.nextExtentId with
        | none => rfl
        | some x => exact absurd (hraw.listed.named _ x hx) (lt_irrefl _)
      have hsucc : (e1.nextExtentId + 1).toNat = e1.nextExtentId.toNat + 1 := by
        rw [UInt64.toNat_add]
        exact Nat.mod_eq_of_lt (by simp; omega)
      have hlisted : Listed { e1 with
          nextExtentId := e1.nextExtentId + 1
          entries := e1.entries.insert e1.nextExtentId { location := loc }
          freeLists := Function.update e1.freeLists loc.tier
            (freeInsert (loc.length - headerSize, e1.nextExtentId) (e1.freeLists loc.tier)) } := by
        refine ⟨hraw.listed.toFreeIndex.insert hnone rfl rfl, fun a y hy => ?_⟩
        dsimp only at hy ⊢
        rw [hsucc]
        rcases lookup_insert_cases hy with ⟨rfl, -⟩ | ⟨-, hy⟩
        · omega
        · have := hraw.listed.named a y hy
          dsimp only at this
          omega
      have hnew : Lists 1 e _ := ⟨hlisted, by dsimp only; rw [hsucc]; omega⟩
      dsimp only
      unfold writeExtentHeader
      cases hw : Engine.devWrite env _ loc.tier loc.offset.toNat
          (headerBytes e1.nextExtentId loc.length) with
      | none => exact hnew
      | some e2 => exact hnew.trans (hlisted.devWrite hw)

end Listed

/-! ## The calls -/

namespace Listed

/-- A journal transaction keeps the index exact. -/
theorem journalTxn (h : Listed e) (rs : List JournalRecord) : Lists 0 e (e.journalTxn rs).2 :=
  h.congr _ rfl rfl rfl

/-- A checkpoint keeps the index exact. -/
theorem checkpointIf (env : Env) (h : Listed e) (full : ℕ → ℕ → Bool) :
    Lists 0 e (e.checkpointIf env full) := by
  unfold Engine.checkpointIf
  split_ifs
  · exact h.congr _ rfl rfl rfl
  · exact h.refl

/-- A new extent takes a name, and goes into the list of its tier. -/
theorem putAllocateNewExtent (env : Env) (h : Listed e) (t : Tier) (size : ℕ)
    (hnext : e.nextExtentId.toNat + 1 < 2 ^ 64) :
    Lists 1 e (e.putAllocateNewExtent env t size).2.2.2 := by
  unfold Engine.putAllocateNewExtent
  have halloc := h.allocateExtent env t size hnext
  cases ha : e.allocateExtent env t size with
  | mk r e1 =>
    rw [ha] at halloc
    cases r with
    | none => exact halloc
    | some r =>
      obtain ⟨id, loc⟩ := r
      have htxn := halloc.listed.journalTxn [{ op := .extentNew, extentId := id, extentLoc := loc }]
      dsimp only
      unfold putPreTransactionExtent
      cases hj : e1.journalTxn [{ op := .extentNew, extentId := id, extentLoc := loc }] with
      | mk st e2 =>
        rw [hj] at htxn
        cases st with
        | ok => exact halloc.trans htxn
        | _ => exact halloc.trans (htxn.trans (htxn.listed.freeExtent id))

/-- Writing a slot keeps the index exact. -/
theorem putWriteSlot (h : Listed e) (value : Value) (ctx : PutWriteResult) :
    Lists 0 e (e.putWriteSlot env value ctx).2.2 := by
  unfold Engine.putWriteSlot
  cases hw : e.devWrite env ctx.extentLoc.tier
      (ctx.extentLoc.offset.toNat + headerSize.toNat + ctx.offset.toNat) value with
  | some e1 => exact h.devWrite hw
  | none =>
    dsimp only
    split_ifs
    · exact h.freeExtent _
    · exact h.markDeadSlot _ _

/-- Writing to a new extent takes a name. -/
theorem putNewExtent (h : Listed e) (value : Value) (size : ℕ)
    (hnext : e.nextExtentId.toNat + 1 < 2 ^ 64) :
    Lists 1 e (e.putNewExtent env value size).2.2 := by
  unfold Engine.putNewExtent
  have halloc := h.putAllocateNewExtent env .fast size hnext
  cases ha : e.putAllocateNewExtent env .fast size with
  | mk st r =>
    obtain ⟨id, loc, e1⟩ := r
    rw [ha] at halloc
    cases st with
    | ok =>
      have happend := halloc.listed.appendSlot id (UInt32.ofNat value.length)
      dsimp only
      split_ifs
      · exact halloc.trans (happend.trans (happend.listed.freeExtent id))
      · exact halloc.trans (happend.trans (happend.listed.putWriteSlot value _))
    | _ => exact halloc

/-- Writing the data of a `put` takes two names at most. -/
theorem putWriteData (env : Env) (h : Listed e) (value : Value)
    (hnext : e.nextExtentId.toNat + 2 < 2 ^ 64) : Lists 2 e (e.putWriteData env value).2.2 := by
  unfold Engine.putWriteData
  dsimp only
  by_cases hlarge : (UInt32.ofNat value.length).toNat ≥ env.largeValueThreshold
  · rw [if_pos hlarge]
    exact (h.putNewExtent value _ (by omega)).mono (by omega)
  rw [if_neg hlarge]
  by_cases hroom : e.findExtentWithSpace .fast (UInt32.ofNat value.length) = noExtent
  · rw [if_pos hroom]
    have halloc := h.putAllocateNewExtent env .fast env.extentSize (by omega)
    cases ha : e.putAllocateNewExtent env .fast env.extentSize with
    | mk st r =>
      obtain ⟨id, loc, e1⟩ := r
      rw [ha] at halloc
      cases st with
      | ok =>
        have happend := halloc.listed.appendSlot id (UInt32.ofNat value.length)
        dsimp only
        split_ifs
        · -- The value does not fit, and gets an extent of its own.
          have hfree := halloc.trans (happend.trans (happend.listed.freeExtent id))
          exact hfree.trans (hfree.listed.putNewExtent value _ (by have := hfree.next; omega))
        · exact (halloc.trans (happend.trans (happend.listed.putWriteSlot value _))).mono
            (by omega)
      | _ => exact halloc.mono (by omega)
  · rw [if_neg hroom]
    cases hx : e.entries.lookup (e.findExtentWithSpace .fast (UInt32.ofNat value.length)) with
    | none => exact h.refl.mono (by omega)
    | some x =>
      have happend := h.appendSlot (e.findExtentWithSpace .fast (UInt32.ofNat value.length))
        (UInt32.ofNat value.length)
      dsimp only
      split_ifs
      · exact (happend.trans (happend.listed.putNewExtent value _
          (by have := happend.next; omega))).mono (by omega)
      · exact (happend.trans (happend.listed.putWriteSlot value _)).mono (by omega)

/-- A slot that is given back moves its extent in the list. -/
theorem putCleanupOnFailure (h : Listed e) (ctx : PutWriteResult) (size : UInt32) :
    Lists 0 e (e.putCleanupOnFailure ctx size) := by
  unfold Engine.putCleanupOnFailure
  split_ifs
  · exact h.freeExtent _
  · exact h.markDeadSlot _ _

/-- Committing a `put` to memory moves the extent of the old slot in its list. -/
theorem putCommitMemoryState (h : Listed e) (k : Key) (old : Option KeyLocation)
    (new : KeyLocation) : Lists 0 e (e.putCommitMemoryState k old new) := by
  unfold Engine.putCommitMemoryState
  have hput : Lists 0 e (e.keyPut k new) := h.congr _ rfl rfl rfl
  cases old with
  | none => exact hput
  | some o => exact hput.trans (hput.listed.retireSlot o)

/-- Erasing a key moves the extent of its slot in the list. -/
theorem keyErase (h : Listed e) (k : Key) : Lists 0 e (e.keyErase k) := by
  have hframe := keyErase_frame e k
  exact h.congr _ (by rw [hframe]) (by rw [hframe]) (by rw [hframe])

/-- `put`. -/
theorem put (env : Env) (h : Listed e) (k : Key) (value : Value)
    (hnext : e.nextExtentId.toNat + 2 < 2 ^ 64) : Lists 2 e (e.put env k value).2 := by
  unfold Engine.put
  have hcheck := h.checkpointIf env env.isNearFull
  have hwrite := hcheck.listed.putWriteData env value (by have := hcheck.next; omega)
  dsimp only
  cases hr : (e.checkpointIf env env.isNearFull).putWriteData env value with
  | mk st r =>
    obtain ⟨ctx, e1⟩ := r
    rw [hr] at hwrite
    have hwritten := hcheck.trans hwrite
    cases st with
    | ok =>
      dsimp only
      have htxn := hwritten.listed.journalTxn (putRecords k
        ((e.checkpointIf env env.isNearFull).keyMap k)
        ⟨ctx.target, ctx.offset, UInt32.ofNat value.length⟩)
      cases hj : e1.journalTxn (putRecords k ((e.checkpointIf env env.isNearFull).keyMap k)
          ⟨ctx.target, ctx.offset, UInt32.ofNat value.length⟩) with
      | mk st e2 =>
        rw [hj] at htxn
        have hlogged := hwritten.trans htxn
        cases st with
        | ok =>
          have hfull := htxn.listed.checkpointIf env env.needsCheckpoint
          exact ((hlogged.trans hfull).trans (hfull.listed.putCommitMemoryState k _ _)).mono
            (by omega)
        | _ => exact (hlogged.trans (htxn.listed.putCleanupOnFailure ctx _)).mono (by omega)
    | _ => exact hwritten.mono (by omega)

/-- `del`. -/
theorem del (h : Listed e) (k : Key) : Lists 0 e (e.del k).2 := by
  unfold Engine.del
  cases hk : e.keyMap k with
  | none => exact h.refl
  | some kl =>
    have htxn := h.journalTxn [{ op := .keyDel, key := k },
      { op := .markDead, extentId := kl.extentId, deadLength := kl.length }]
    dsimp only
    cases hj : e.journalTxn [{ op := .keyDel, key := k },
        { op := .markDead, extentId := kl.extentId, deadLength := kl.length }] with
    | mk st e1 =>
      rw [hj] at htxn
      cases st with
      | ok =>
        have herase := htxn.listed.keyErase k
        exact htxn.trans (herase.trans (herase.listed.retireSlot kl))
      | _ => exact htxn

/-- A migration is given up. -/
theorem abortMigration (h : Listed e) (id : UInt64) : Lists 0 e (e.abortMigration id) := by
  unfold Engine.abortMigration
  cases hx : e.entries.lookup id with
  | none => exact h.refl
  | some x =>
    dsimp only
    split_ifs
    · exact h.setEntry { x with migrating := false } hx rfl rfl rfl rfl rfl
    · exact h.refl

/-- A migration begins. -/
theorem beginMigration (h : Listed e) {id : UInt64} {x : ExtentEntry} {e1 : Engine}
    (hb : e.beginMigration id = some (x, e1)) : Lists 0 e e1 ∧ e.entries.lookup id = some x ∧
      e1 = { e with entries := e.entries.insert id { x with migrating := true } } := by
  unfold Engine.beginMigration at hb
  cases hx : e.entries.lookup id with
  | none =>
    rw [hx] at hb
    cases hb
  | some y =>
    rw [hx] at hb
    dsimp only at hb
    split_ifs at hb
    obtain ⟨rfl, rfl⟩ := Prod.mk.inj (Option.some.inj hb)
    exact ⟨h.setEntry { y with migrating := true } hx rfl rfl rfl rfl rfl, rfl, rfl⟩

/-- A migration is committed to a place on the same tier and of the same length. -/
theorem commitMigration (h : Listed e) {id : UInt64} {gen : UInt32} {loc : DiskLocation}
    (hsame : ∀ x, e.entries.lookup id = some x → x.generation = gen →
      loc.tier = x.location.tier ∧ loc.length = x.location.length) :
    Lists 0 e (e.commitMigration id gen loc).2 := by
  unfold Engine.commitMigration
  cases hx : e.entries.lookup id with
  | none => exact h.refl
  | some x =>
    dsimp only
    split_ifs with hgen
    · exact h.refl
    · obtain ⟨htier, hlength⟩ := hsame x hx (not_not.mp hgen)
      refine h.setEntry _ hx htier ?_ rfl rfl rfl
      simp only [freeBytesOf, ExtentEntry.capacity, hlength]

end Listed

/-- A commit keeps the index if, and only if, the extent keeps its tier and its length. -/
theorem commitMigration_index_iff (h : FreeIndex e) {id : UInt64} {x : ExtentEntry}
    (hx : e.entries.lookup id = some x) (loc : DiskLocation) :
    FreeIndex (e.commitMigration id x.generation loc).2 ↔
      loc.tier = x.location.tier ∧ loc.length = x.location.length := by
  have hcommit : (e.commitMigration id x.generation loc).2 = { e with
      entries := e.entries.insert id
        { x with location := loc, migrating := false, generation := x.generation + 1 }
      deferredFree := e.deferredFree ++ [(x.location, e.seqno)] } := by
    simp [Engine.commitMigration, hx]
  rw [hcommit]
  constructor
  · intro hindex
    -- The pair of the old place is still there.
    have hpair := (h.mem_iff hx).mpr ⟨rfl, rfl⟩
    obtain ⟨htier, hfree⟩ := (hindex.mem_iff (AList.lookup_insert _)).mp hpair
    refine ⟨htier, ?_⟩
    simp only [freeBytesOf, ExtentEntry.capacity] at hfree
    exact ((UInt32.sub_left_inj _).mp ((UInt32.sub_left_inj _).mp hfree)).symm
  · rintro ⟨htier, hlength⟩
    refine h.setEntry hx htier ?_ rfl rfl
    simp only [freeBytesOf, ExtentEntry.capacity, hlength]

namespace Listed

/-- A migration that commits keeps the tier and the length: what the allocator returns has them. -/
theorem migrateTier (h : Listed e) {id : UInt64} {src dst : Tier}
    (hsame : ∀ x, e.entries.lookup id = some x →
      ∀ loc, (e.allocateRaw env dst x.location.length.toNat).1 = some loc →
        loc.tier = x.location.tier ∧ loc.length = x.location.length) :
    Lists 0 e (e.migrateTier env id src dst).2 := by
  unfold Engine.migrateTier
  -- Only an extent that is marked is moved.
  cases hb : e.beginMigration id with
  | none => exact h.refl
  | some r =>
    obtain ⟨x, e1⟩ := r
    obtain ⟨hbegin, hx, he1⟩ := h.beginMigration hb
    have hraw := hbegin.listed.allocateRaw env dst x.location.length.toNat
    have hsame' : (e1.allocateRaw env dst x.location.length.toNat).1 =
        (e.allocateRaw env dst x.location.length.toNat).1 :=
      allocateRaw_congr (by rw [he1]) (by rw [he1]) _ _
    have hents := allocateRaw_entries env e1 dst x.location.length.toNat
    dsimp only
    cases ha : e1.allocateRaw env dst x.location.length.toNat with
    | mk r e2 =>
      rw [ha] at hraw hsame' hents
      cases r with
      | none => exact hbegin.trans (hraw.trans (hraw.listed.abortMigration id))
      | some loc =>
        dsimp only
        cases hw : e2.devWrite env dst loc.offset.toNat
            (e1.devRead src x.location.offset.toNat x.location.length.toNat) with
        | none =>
          have habort := hraw.listed.abortMigration id
          exact hbegin.trans (hraw.trans (habort.trans
            (habort.listed.congr ((e2.abortMigration id).releaseSource loc) rfl rfl rfl)))
        | some e3 =>
          have hwrite := hraw.listed.devWrite hw
          have hcommit : Lists 0 e3 (e3.commitMigration id x.generation loc).2 :=
            hwrite.listed.commitMigration fun y hy _ => by
              rw [(devWrite_frame hw).1] at hy
              dsimp only at hents hy
              rw [hents, he1, AList.lookup_insert] at hy
              obtain rfl := Option.some.inj hy
              exact hsame x hx loc hsame'.symm
          have hall := hbegin.trans (hraw.trans (hwrite.trans hcommit))
          dsimp only
          cases hc : e3.commitMigration id x.generation loc with
          | mk ok e4 =>
            rw [hc] at hall
            cases ok with
            | true => exact hall
            | false =>
              have habort := hall.listed.abortMigration id
              exact hall.trans (habort.trans
                (habort.listed.congr ((e4.abortMigration id).releaseSource loc) rfl rfl rfl))

/-- The copy loop. -/
theorem compactCopy (env : Env) (h : Listed e) (src new : DiskLocation) (newId : UInt64)
    (ks : List Key) : Lists 0 e (Engine.compactCopy env src new newId ks e).2 := by
  induction ks generalizing e with
  | nil => exact h.refl
  | cons k ks ih =>
    have happend := h.appendSlot newId ((e.keyMap k).getD {}).length
    rw [Engine.compactCopy]
    dsimp only
    split_ifs
    · exact happend
    · cases hw : (e.appendSlot newId ((e.keyMap k).getD {}).length).2.devWrite env src.tier
          (new.offset.toNat + headerSize.toNat +
            (e.appendSlot newId ((e.keyMap k).getD {}).length).1.toNat)
          (e.devRead src.tier (src.offset.toNat + headerSize.toNat +
            ((e.keyMap k).getD {}).offset.toNat) ((e.keyMap k).getD {}).length.toNat) with
      | none => exact happend
      | some e1 =>
        have hwrite := happend.listed.devWrite hw
        have hrest := ih hwrite.listed
        dsimp only
        cases hr : Engine.compactCopy env src new newId ks e1 with
        | mk us e2 =>
          rw [hr] at hrest
          cases us with
          | none => exact happend.trans (hwrite.trans hrest)
          | some us => exact happend.trans (hwrite.trans hrest)

/-- A batch of new locations keeps the index exact. -/
theorem batchUpdate (h : Listed e) (us : List (Key × KeyLocation)) :
    Lists 0 e (e.batchUpdate us) := by
  have hframe := batchUpdate_frame us e
  exact h.congr _ (by rw [hframe]) (by rw [hframe]) (by rw [hframe])

/-- A compaction. -/
theorem compact (h : Listed e) (id : UInt64) (hnext : e.nextExtentId.toNat + 1 < 2 ^ 64) :
    Lists 1 e (e.compact env id).2 := by
  unfold Engine.compact
  cases hb : e.beginMigration id with
  | none => exact h.refl.mono (by omega)
  | some r =>
    obtain ⟨x, e1⟩ := r
    obtain ⟨hbegin, -, -⟩ := h.beginMigration hb
    dsimp only
    split_ifs with hkeys
    · exact (hbegin.trans (hbegin.listed.freeExtent id)).mono (by omega)
    · have halloc := hbegin.listed.allocateExtent env x.location.tier
        x.location.length.toNat (by have := hbegin.next; omega)
      cases ha : e1.allocateExtent env x.location.tier x.location.length.toNat with
      | mk r e2 =>
        rw [ha] at halloc
        cases r with
        | none => exact hbegin.trans (halloc.trans (halloc.listed.abortMigration id))
        | some r =>
          obtain ⟨newId, newLoc⟩ := r
          have hcopy := halloc.listed.compactCopy env x.location newLoc newId
            (e1.keysInExtent env id)
          dsimp only
          cases hc : Engine.compactCopy env x.location newLoc newId (e1.keysInExtent env id) e2 with
          | mk us e3 =>
            rw [hc] at hcopy
            have hall := hbegin.trans (halloc.trans hcopy)
            have hgiveUp : Lists 1 e ((e3.abortMigration id).freeExtent newId) := by
              have habort := hall.trans (hcopy.listed.abortMigration id)
              exact habort.trans (habort.listed.freeExtent newId)
            cases us with
            | none => exact hgiveUp
            | some us =>
              dsimp only
              split_ifs
              · have hbatch := hall.trans (hcopy.listed.batchUpdate us)
                exact hbatch.trans (hbatch.listed.freeExtent id)
              · exact hgiveUp

end Listed

/-! ## Recovery -/

/-- The condition under which a record is replayed into the index: no extent is made a second time,
and there is a name left. -/
def Creates (e : Engine) (r : JournalRecord) : Prop :=
  r.op = .extentNew → e.entries.lookup r.extentId = none ∧ r.extentId.toNat + 1 < 2 ^ 64

namespace Listed

/-- An engine that has just been opened has no extents and empty lists. -/
theorem opened (env : Env) (j : Journal) (slow : ℕ → UInt8) : Listed (opened env j slow) where
  sorted _ := List.Pairwise.nil
  mem t p := by simp [Engine.opened]
  named id x hx := by simp [Engine.opened] at hx

/-- An extent that recovery creates goes into the list of its tier. -/
theorem createEntryFromJournal (h : Listed e) {id : UInt64} (hnone : e.entries.lookup id = none)
    (hid : id.toNat + 1 < 2 ^ 64) (loc : DiskLocation) :
    Listed (e.createEntryFromJournal id loc) := by
  refine ⟨h.toFreeIndex.insert hnone rfl rfl, fun a y hy => ?_⟩
  have hsucc : (id + 1).toNat = id.toNat + 1 := by
    rw [UInt64.toNat_add]
    exact Nat.mod_eq_of_lt (by simpa using hid)
  simp only [Engine.createEntryFromJournal] at hy ⊢
  rcases lookup_insert_cases hy with ⟨rfl, -⟩ | ⟨-, hy⟩
  · split_ifs with hge
    · omega
    · simpa [UInt64.lt_iff_toNat_lt] using hge
  · have := h.named a y hy
    split_ifs with hge
    · have : e.nextExtentId.toNat ≤ id.toNat := UInt64.le_iff_toNat_le.mp hge
      omega
    · exact this

/-- The replay of one record. -/
theorem replayRecord (h : Listed e) {r : JournalRecord} (hr : Creates e r) :
    Listed (e.replayRecord r) := by
  unfold Engine.replayRecord
  cases hop : r.op with
  | extentNew =>
    obtain ⟨hnone, hid⟩ := hr hop
    exact h.createEntryFromJournal hnone hid _
  | keyPut => exact (h.congr (e.keyPut r.key r.keyLoc) rfl rfl rfl).listed
  | keyDel => exact (h.keyErase r.key).listed
  | markDead => exact (h.markDeadSlot _ _).listed
  | extentFree => exact (h.freeExtent _).listed
  | _ => exact h

/-- Restoring the state of an extent moves it in its list. -/
theorem restoreExtent (env : Env) (h : Listed e) (id : UInt64) :
    Listed (e.restoreExtent env id) := by
  unfold Engine.restoreExtent
  dsimp only
  split_ifs
  · exact (h.freeExtent id).listed
  · unfold restoreExtentState
    cases hx : e.entries.lookup id with
    | none => exact h
    | some x => exact ⟨h.toFreeIndex.update hx rfl, h.named_insert hx⟩

/-- Checking the header of an extent keeps the index exact. -/
theorem verifyHeader (env : Env) (h : Listed e) (id : UInt64) : Listed (e.verifyHeader env id) := by
  unfold Engine.verifyHeader
  cases hx : e.entries.lookup id with
  | none => exact h
  | some x =>
    dsimp only
    split_ifs
    · have herase : ∀ (ks : List Key) (e : Engine), Listed e →
          Listed (ks.foldl Engine.keyErase e) := by
        intro ks
        induction ks with
        | nil => exact fun _ h => h
        | cons k ks ih => exact fun e h => ih _ (h.keyErase k).listed
      exact ((herase _ e h).freeExtent id).listed
    · exact h

/-- A step that keeps the index keeps it over a list. -/
theorem foldl {α : Type} {f : Engine → α → Engine} (hf : ∀ {e} (a : α), Listed e → Listed (f e a))
    (as : List α) (h : Listed e) : Listed (as.foldl f e) := by
  induction as generalizing e with
  | nil => exact h
  | cons a as ih => exact ih (hf a h)

/-- The replay of the records of a journal. -/
theorem recoverInternal (h : Listed e) {rs : List JournalRecord}
    (hrs : Runs.Meets (fun e r => some (e.replayRecord r)) Creates e rs) :
    Listed (e.recoverInternal env rs) := by
  have hreplay : Listed (rs.foldl Engine.replayRecord e) := by
    induction rs generalizing e with
    | nil => exact h
    | cons r rs ih => exact ih (h.replayRecord hrs.1) (hrs.2 _ rfl)
  unfold Engine.recoverInternal
  dsimp only
  generalize rs.foldl Engine.replayRecord e = e1 at hreplay
  have hrestore := foldl (fun id h => h.restoreExtent env id) (e1.snapshot env) hreplay
  generalize (e1.snapshot env).foldl (Engine.restoreExtent env) e1 = e2 at hrestore
  have hmark : Listed e2.markAllocated := (hrestore.congr e2.markAllocated rfl rfl rfl).listed
  generalize e2.markAllocated = e3 at hmark
  have hverify := foldl (fun id h => h.verifyHeader env id) (e3.snapshot env) hmark
  exact (hverify.congr (clearDeferredFree _) rfl rfl rfl).listed

end Listed

/-! ## Runs -/

/-- A call, a call of the extent map by itself, or a restart. -/
inductive ExtentCall where
  /-- A call of the engine, or a task of a cycle. -/
  | act (a : Action)
  /-- `allocate_extent`. -/
  | allocate (t : Tier) (size : ℕ)
  /-- `free`. -/
  | free (id : UInt64)
  /-- `begin_migration`. -/
  | begin (id : UInt64)
  /-- `commit_migration`. -/
  | commit (id : UInt64) (gen : UInt32) (loc : DiskLocation)
  /-- `abort_migration`. -/
  | abort (id : UInt64)
  /-- `init` on the devices that are there. -/
  | reopen (d : Devices)

/-- One step. -/
def callStep (env : Env) (e : Engine) : ExtentCall → Option Engine
  | .act a => step env e a
  | .allocate t size => some (e.allocateExtent env t size).2
  | .free id => some (e.freeExtent id)
  | .begin id => some ((e.beginMigration id).elim e Prod.snd)
  | .commit id gen loc => some (e.commitMigration id gen loc).2
  | .abort id => some (e.abortMigration id)
  | .reopen d => reopen env d

/-- The condition under which a step keeps the index: an extent that is moved keeps its tier and its
length, there are names for new extents, and no extent is recovered twice. -/
def KeepsIndex (env : Env) (e : Engine) : ExtentCall → Prop
  | .act (.put _ _ _) => e.nextExtentId.toNat + 2 < 2 ^ 64
  | .act (.migrateTier id) => ∀ x ∈ e.entries.lookup id,
    ∀ loc ∈ (e.allocateRaw env (otherTier x.location.tier) x.location.length.toNat).1,
      loc.tier = x.location.tier ∧ loc.length = x.location.length
  | .act (.compact _) => e.nextExtentId.toNat + 1 < 2 ^ 64
  | .allocate _ _ => e.nextExtentId.toNat + 1 < 2 ^ 64
  | .commit id gen loc => ∀ x ∈ e.entries.lookup id, x.generation = gen →
    loc.tier = x.location.tier ∧ loc.length = x.location.length
  | .reopen d => ∀ rs ∈ (Journal.create d.fast env.journalSize).recover,
    Runs.Meets (fun e r => some (e.replayRecord r)) Creates
      (opened env (Journal.create d.fast env.journalSize) d.slow) rs
  | _ => True

instance (e : Engine) (r : JournalRecord) : Decidable (Creates e r) := by
  unfold Creates
  infer_instance

instance (env : Env) (e : Engine) (c : ExtentCall) : Decidable (KeepsIndex env e c) := by
  unfold KeepsIndex
  split <;> infer_instance

/-- A step that meets the condition keeps the index. -/
theorem Listed.callStep (h : Listed e) {c : ExtentCall} (hc : KeepsIndex env e c)
    (hs : callStep env e c = some e') : Listed e' := by
  -- The calls of the engine, and those below it that handle an extent alone.
  cases c with
  | act a =>
    cases a with
    | put k value st =>
      simp only [Engine.callStep, step] at hs
      cases hr : e.put env k value with
      | mk st' e1 =>
        have hput := (h.put env k value hc).listed
        rw [hr] at hs hput
        dsimp only at hs
        split_ifs at hs
        obtain rfl := Option.some.inj hs
        exact hput
    | del k st =>
      simp only [Engine.callStep, step] at hs
      cases hr : e.del k with
      | mk st' e1 =>
        have hdel := (h.del k).listed
        rw [hr] at hs hdel
        dsimp only at hs
        split_ifs at hs
        obtain rfl := Option.some.inj hs
        exact hdel
    | processDeferredFree =>
      obtain rfl := Option.some.inj hs
      exact (h.congr e.processDeferredFree rfl rfl rfl).listed
    | migrateTier id =>
      simp only [Engine.callStep, step] at hs
      cases hx : e.entries.lookup id with
      | none =>
        rw [hx] at hs
        obtain rfl := Option.some.inj hs
        exact h
      | some x =>
        rw [hx] at hs
        obtain rfl := Option.some.inj hs
        refine (h.migrateTier fun y hy loc hloc => ?_).listed
        obtain rfl := Option.some.inj (hx.symm.trans hy)
        exact hc x hx loc hloc
    | compact id =>
      obtain rfl := Option.some.inj hs
      exact (h.compact id hc).listed
    | checkpoint =>
      obtain rfl := Option.some.inj hs
      exact (h.congr (e.checkpoint env) rfl rfl rfl).listed
  | allocate t size =>
    obtain rfl := Option.some.inj hs
    exact (h.allocateExtent env t size hc).listed
  | free id =>
    obtain rfl := Option.some.inj hs
    exact (h.freeExtent id).listed
  -- The parts of a migration, each by the lemma about it.
  | begin id =>
    obtain rfl := Option.some.inj hs
    cases hb : e.beginMigration id with
    | none => exact h
    | some r =>
      obtain ⟨x, e1⟩ := r
      exact (h.beginMigration hb).1.listed
  | commit id gen loc =>
    obtain rfl := Option.some.inj hs
    exact (h.commitMigration hc).listed
  | abort id =>
    obtain rfl := Option.some.inj hs
    exact (h.abortMigration id).listed
  -- The index is built anew from the extents that the journal names.
  | reopen d =>
    simp only [Engine.callStep, Engine.reopen] at hs
    cases hr : (Journal.create d.fast env.journalSize).recover with
    | none =>
      rw [hr] at hs
      cases hs
    | some rs =>
      have hrs := hc rs hr
      rw [hr] at hs
      cases rs with
      | nil =>
        obtain rfl := Option.some.inj hs
        exact Listed.opened env _ _
      | cons r rs =>
        obtain rfl := Option.some.inj hs
        exact (Listed.opened env _ _).recoverInternal hrs

/-- In every state that a run reaches whose steps all meet the condition, the free lists have one
pair for each extent and no other, `find_extent_with_space` finds room where there is some, and a
commit leaves it so if, and only if, the extent keeps its tier and its length. -/
theorem freeLists_exact (env : Env) (dev : Device) (slow : ℕ → UInt8) (cs : List ExtentCall)
    (e : Engine) (hm : Runs.Meets (callStep env) (KeepsIndex env) (init env dev slow) cs)
    (he : Runs.exec (callStep env) (init env dev slow) cs = some e) :
    FreeIndex e ∧
      (∀ t n, (∃ id x, e.entries.lookup id = some x ∧ x.migrating = false ∧
        x.location.tier = t ∧ n ≤ freeBytesOf x) →
          ∃ x, e.entries.lookup (e.findExtentWithSpace t n) = some x ∧ x.migrating = false ∧
            x.location.tier = t ∧ n ≤ freeBytesOf x) ∧
      ∀ id x loc, e.entries.lookup id = some x →
        (FreeIndex (e.commitMigration id x.generation loc).2 ↔
          loc.tier = x.location.tier ∧ loc.length = x.location.length) := by
  have h : Listed e := Runs.exec_invariant (fun _ _ _ h hc hs => h.callStep hc hs) cs _ e
    (Listed.opened env _ slow) hm he
  exact ⟨h.toFreeIndex, fun t n => h.toFreeIndex.findExtentWithSpace,
    fun id x loc hx => commitMigration_index_iff h.toFreeIndex hx loc⟩

/-- A start on blank devices, two keys in one extent, of which one is deleted, an extent that is
moved within its tier, one that is given back, and a compaction. -/
def putMoveFree : List ExtentCall :=
  [.reopen ⟨blankDevice 15, fun _ => 0⟩, .act (.put [97] [6] .ok), .act (.put [98] [4, 5] .ok),
    .act (.del [98] .ok), .allocate .slow 8192, .begin 2, .commit 2 0 ⟨16384, 8192, .slow⟩,
    .begin 1, .abort 1, .allocate .fast 8192, .free 3, .act (.compact 1)]

/-- The condition is met by a run with a delete, a commit, a free and a compaction. -/
theorem freeLists_exact_putMoveFree :
    ∃ e, Runs.exec (callStep smallEnv) freshEngine putMoveFree = some e ∧ FreeIndex e := by
  have hrun : (Runs.exec (callStep smallEnv) freshEngine putMoveFree).isSome := by decide +kernel
  have hm : Runs.Meets (callStep smallEnv) (KeepsIndex smallEnv) freshEngine putMoveFree := by
    decide +kernel
  obtain ⟨e, he⟩ := Option.isSome_iff_exists.mp hrun
  exact ⟨e, he, (freeLists_exact smallEnv (blankDevice 15) (fun _ => 0) putMoveFree e hm he).1⟩

end Engine

end CxxLab.Btier
