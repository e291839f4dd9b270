import CxxLab.Btier.Engine

/-!
# The space of the engine

Who owns which bytes of the two devices. A location is owned by an extent, by the list of retired
locations, or by a call that has allocated it and not yet entered it. `Space` is the invariant:
owned locations do not overlap and are not free, and what an extent has used fits in it. Every
change of the extent map is a permutation of the owned locations, with a location more when one was
allocated and some less when retired ones are given back.
-/

namespace CxxLab.Btier

open Engine

/-! ## Locations -/

/-- The bytes that a location covers. -/
def DiskLocation.Covers (loc : DiskLocation) (t : Tier) (i : ℕ) : Prop :=
  loc.tier = t ∧ loc.offset.toNat ≤ i ∧ i < loc.offset.toNat + loc.length.toNat

/-- Two locations without a common byte. -/
def DiskLocation.Apart (a b : DiskLocation) : Prop := ∀ t i, a.Covers t i → ¬ b.Covers t i

/-- Two locations are apart in either order. -/
theorem DiskLocation.Apart.symm {a b : DiskLocation} (h : a.Apart b) : b.Apart a :=
  fun t i hb ha => h t i ha hb

/-- What the allocators and the containers of the code do, whatever else they do. -/
structure Env.Lawful (env : Env) : Prop where
  /-- An allocator returns free bytes. -/
  free : ∀ n t fr want, ∀ f ∈ env.allocate n t fr want, ∀ i,
    f.offset.toNat ≤ i → i < f.offset.toNat + f.length.toNat → fr i = true
  /-- It returns whole blocks, and no more than was wanted. -/
  blocks : ∀ n t fr want, ∀ f ∈ env.allocate n t fr want,
    env.blockSize ∣ f.length.toNat ∧ 0 < f.length.toNat ∧ f.length.toNat ≤ want
  /-- A set of keys is iterated in some order. -/
  keys : ∀ n ks, (env.orderKeys n ks).Perm ks
  /-- The extents are iterated in some order. -/
  ids : ∀ n ids, (env.orderIds n ids).Perm ids

/-- The configurations under which the engine works: a block holds an extent header, extents are
shorter than 2 GiB, and the journal has a data area. -/
structure Env.ConfigOk (env : Env) : Prop where
  /-- A block holds a header. -/
  block : headerSize.toNat ≤ env.blockSize
  /-- Extents are shorter than 2 GiB. -/
  extent : env.extentSize + env.blockSize ≤ 2 ^ 31
  /-- The journal has a data area. -/
  journal : kSuperblockSize + kTxnAlignment ≤ env.journalSize

/-! ## Allocation -/

namespace Engine

/-- `e'` is `e` after allocations that may have taken `loc`. -/
structure Took (env : Env) (e e' : Engine) (want : ℕ) (loc : Option DiskLocation) : Prop where
  /-- Only the allocators changed. -/
  frame : e' = { e with allocCalls := e'.allocCalls, free := e'.free }
  /-- Nothing became free. -/
  free_le : ∀ t i, e'.free t i = true → e.free t i = true
  /-- What was taken was free. -/
  was_free : ∀ l ∈ loc, ∀ t i, l.Covers t i → e.free t i = true
  /-- What was taken is no longer free. -/
  not_free : ∀ l ∈ loc, ∀ t i, l.Covers t i → e'.free t i = false
  /-- It is whole blocks, and no more than was wanted. -/
  blocks : ∀ l ∈ loc, env.blockSize ∣ l.length.toNat ∧ 0 < l.length.toNat ∧ l.length.toNat ≤ want

/-- An allocation on one tier. -/
theorem took_allocateOn {env : Env} (henv : env.Lawful) (e : Engine) (t : Tier) (size : ℕ) :
    Took env e (e.allocateOn env t size).2 (alignedSize env size) (e.allocateOn env t size).1 ∧
      ∀ l ∈ (e.allocateOn env t size).1, l.tier = t := by
  obtain ⟨want, hwant⟩ : ∃ w, w = alignedSize env size := ⟨_, rfl⟩
  obtain ⟨frags, hfrags⟩ : ∃ fs, fs = env.allocate e.allocCalls t (e.free t) want := ⟨_, rfl⟩
  obtain ⟨e', he'⟩ : ∃ e', e' = (e.allocate env t want).2 := ⟨_, rfl⟩
  have hframe : e' = { e with allocCalls := e'.allocCalls, free := e'.free } := by rw [he']; rfl
  have hfree : ∀ t' i, e'.free t' i = if t' = t then
      e.free t i && !frags.any fun f => inRange f.offset.toNat f.length.toNat i
      else e.free t' i := by
    intro t' i
    rw [he']
    by_cases ht : t' = t
    · subst ht; simp [Engine.allocate, ← hfrags]
    · simp [Engine.allocate, ht]
  have hle : ∀ t' i, e'.free t' i = true → e.free t' i = true := by
    intro t' i h
    rw [hfree] at h
    split_ifs at h with ht
    · rw [ht]
      simp only [Bool.and_eq_true] at h
      exact h.1
    · exact h
  -- Nothing is taken, or one fragment of what the allocator gave.
  have hnone : Took env e e' want none :=
    ⟨hframe, hle, by simp, by simp, by simp⟩
  have hsome : ∀ f ∈ frags, Took env e e' want (some ⟨f.offset, f.length, t⟩) := by
    intro f hf
    rw [hfrags] at hf
    refine ⟨hframe, hle, ?_, ?_, ?_⟩
    · rintro l hl t' i ⟨ht, h1, h2⟩
      obtain rfl := Option.some.inj (Option.mem_def.mp hl)
      obtain rfl : t = t' := ht
      exact henv.free _ _ _ _ f hf i h1 h2
    · rintro l hl t' i ⟨ht, h1, h2⟩
      obtain rfl := Option.some.inj (Option.mem_def.mp hl)
      obtain rfl : t = t' := ht
      rw [hfree, if_pos rfl]
      have hany : (frags.any fun f => inRange f.offset.toNat f.length.toNat i) = true := by
        rw [List.any_eq_true]
        exact ⟨f, hfrags ▸ hf, by simpa [inRange] using ⟨h1, h2⟩⟩
      simp [hany]
    · rintro l hl
      obtain rfl := Option.some.inj (Option.mem_def.mp hl)
      exact henv.blocks _ _ _ _ f hf
  have hal : e.allocate env t want = (frags, e') := by
    rw [he', hfrags]
    rfl
  simp only [allocateOn, ← hwant, hal]
  -- No fragment, one that will not do, or one that does.
  cases hfr : frags with
  | nil => exact ⟨hnone, by simp⟩
  | cons f fs =>
    simp only
    split_ifs
    · exact ⟨hnone, by simp⟩
    · exact ⟨hsome f (by simp [hfr]), by simp⟩

/-- Allocations one after the other. -/
theorem Took.trans {env : Env} {e e1 e2 : Engine} {want : ℕ} {loc : Option DiskLocation}
    (h1 : Took env e e1 want none) (h2 : Took env e1 e2 want loc) : Took env e e2 want loc where
  frame := by rw [h2.frame, h1.frame]
  free_le t i h := h1.free_le t i (h2.free_le t i h)
  was_free l hl t i h := h1.free_le t i (h2.was_free l hl t i h)
  not_free := h2.not_free
  blocks := h2.blocks

/-- An allocation with its fallback. -/
theorem took_allocateRaw {env : Env} (henv : env.Lawful) (e : Engine) (t : Tier) (size : ℕ) :
    Took env e (e.allocateRaw env t size).2 (alignedSize env size) (e.allocateRaw env t size).1 ∧
      ∀ l ∈ (e.allocateRaw env t size).1, l.tier = t ∨ (t = .fast ∧ l.tier = .slow) := by
  obtain ⟨h1, ht1⟩ := took_allocateOn henv e t size
  unfold allocateRaw
  cases hr : e.allocateOn env t size with
  | mk r e1 =>
    rw [hr] at h1 ht1
    cases r with
    | some loc => exact ⟨h1, fun l hl => .inl (ht1 l hl)⟩
    | none =>
      simp only
      split_ifs with ht
      · obtain ⟨h2, ht2⟩ := took_allocateOn henv e1 .slow size
        exact ⟨h1.trans h2, fun l hl => .inr ⟨ht, ht2 l hl⟩⟩
      · exact ⟨h1, by simp⟩

/-! ## The invariant -/

/-- The locations of the extents. -/
def extentLocations (e : Engine) : List DiskLocation := e.entries.entries.map fun s => s.2.location

/-- The locations that are in use: by a call, by the extents, or retired and not given back. -/
def owned (held : List DiskLocation) (e : Engine) : List DiskLocation :=
  held ++ e.extentLocations ++ e.deferredFree.map Prod.fst

/-- A location that can be an extent: whole blocks on one of the tiers, behind the journal. -/
structure LocationOk (env : Env) (loc : DiskLocation) : Prop where
  /-- It is whole blocks. -/
  blocks : env.blockSize ∣ loc.length.toNat
  /-- It is not empty. -/
  pos : 0 < loc.length.toNat
  /-- It is at most 2 GiB. -/
  le : loc.length.toNat ≤ 2 ^ 31
  /-- It is on one of the tiers, behind the journal. -/
  area : (loc.tier = .fast ∧ env.journalSize ≤ loc.offset.toNat) ∨ loc.tier = .slow

/-- A location has room for a header. -/
theorem LocationOk.header_le {env : Env} {loc : DiskLocation} (hcfg : env.ConfigOk)
    (h : LocationOk env loc) : headerSize.toNat ≤ loc.length.toNat :=
  hcfg.block.trans (Nat.le_of_dvd h.pos h.blocks)

/-- The space of the devices is in order. -/
structure Space (env : Env) (held : List DiskLocation) (e : Engine) : Prop where
  /-- Extents have older names than the next one. -/
  fresh : ∀ id x, e.entries.lookup id = some x → id.toNat < e.nextExtentId.toNat
  /-- What is used of an extent fits in it, and what is live was used. -/
  used : ∀ id x, e.entries.lookup id = some x →
    headerSize.toNat + x.usedBytes.toNat ≤ x.location.length.toNat ∧
      x.liveBytes.toNat ≤ x.usedBytes.toNat
  /-- The owned locations can be extents. -/
  ok : ∀ loc ∈ owned held e, LocationOk env loc
  /-- They do not overlap. -/
  apart : (owned held e).Pairwise DiskLocation.Apart
  /-- They are not free. -/
  not_free : ∀ loc ∈ owned held e, ∀ t i, loc.Covers t i → e.free t i = false
  /-- The journal is not free. -/
  journal_not_free : ∀ i, e.free .fast i = true → env.journalSize ≤ i

/-- An entry is one of the entries, and the others are what is left without it. -/
theorem entries_perm {e : Engine} {id : UInt64} {x : ExtentEntry}
    (h : e.entries.lookup id = some x) :
    e.entries.entries.Perm (⟨id, x⟩ :: (e.entries.erase id).entries) := by
  have hmem : id ∈ e.entries.entries.keys := AList.lookup_isSome.mp (by rw [h]; rfl)
  obtain ⟨y, l1, l2, hl1, hl, hk⟩ := List.exists_of_kerase hmem
  have hy : e.entries.lookup id = some y := by
    refine AList.mem_lookup_iff.mpr ?_
    rw [hl]
    simp
  obtain rfl : x = y := Option.some.inj (h.symm.trans hy)
  calc e.entries.entries = l1 ++ ⟨id, x⟩ :: l2 := hl
    _ |>.Perm (⟨id, x⟩ :: (l1 ++ l2)) := List.perm_middle
    _ = ⟨id, x⟩ :: (e.entries.erase id).entries := by rw [← hk]; rfl

/-- The location of an extent is one of the locations of the extents. -/
theorem location_mem {e : Engine} {id : UInt64} {x : ExtentEntry}
    (h : e.entries.lookup id = some x) : x.location ∈ e.extentLocations :=
  List.mem_map.mpr ⟨⟨id, x⟩, AList.mem_lookup_iff.mp h, rfl⟩

/-- The location of an extent is owned. -/
theorem location_mem_owned {e : Engine} {id : UInt64} {x : ExtentEntry}
    (h : e.entries.lookup id = some x) (held : List DiskLocation) : x.location ∈ owned held e :=
  List.mem_append_left _ (List.mem_append_right _ (location_mem h))

/-- The invariant is about the entries, the free bytes and the set of owned locations. -/
theorem Space.of_perm {env : Env} {e e' : Engine} {held held' : List DiskLocation}
    (h : Space env held e) (hfresh : ∀ id x, e'.entries.lookup id = some x →
      id.toNat < e'.nextExtentId.toNat)
    (hused : ∀ id x, e'.entries.lookup id = some x →
      headerSize.toNat + x.usedBytes.toNat ≤ x.location.length.toNat ∧
        x.liveBytes.toNat ≤ x.usedBytes.toNat)
    (hfree : e'.free = e.free) (hperm : (owned held' e').Perm (owned held e)) :
    Space env held' e' where
  fresh := hfresh
  used := hused
  ok loc hloc := h.ok loc (hperm.mem_iff.mp hloc)
  apart := (hperm.pairwise_iff DiskLocation.Apart.symm).mpr h.apart
  not_free loc hloc := hfree ▸ h.not_free loc (hperm.mem_iff.mp hloc)
  journal_not_free := hfree ▸ h.journal_not_free

/-- The locations with an entry set. -/
theorem extentLocations_insert {e e' : Engine} {id : UInt64} {x : ExtentEntry}
    (h : e'.entries = e.entries.insert id x) :
    e'.extentLocations = x.location :: { e with entries := e.entries.erase id }.extentLocations := by
  unfold extentLocations
  rw [h, AList.entries_insert]
  rfl

/-- The locations with an entry taken out. -/
theorem extentLocations_perm {e : Engine} {id : UInt64} {x : ExtentEntry}
    (h : e.entries.lookup id = some x) : e.extentLocations.Perm
      (x.location :: { e with entries := e.entries.erase id }.extentLocations) :=
  (entries_perm h).map _

/-- The locations with an entry that was not there. -/
theorem extentLocations_insert_new {e e' : Engine} {id : UInt64} {x : ExtentEntry}
    (h : e'.entries = e.entries.insert id x) (hid : e.entries.lookup id = none) :
    e'.extentLocations = x.location :: e.extentLocations := by
  unfold extentLocations
  rw [h, AList.entries_insert_of_notMem (AList.lookup_eq_none.mp hid)]
  rfl

/-- Lookups after an entry was set. -/
theorem lookup_insert_cases {s : AList fun _ : UInt64 => ExtentEntry} {a id : UInt64}
    {x y : ExtentEntry} (h : (s.insert id x).lookup a = some y) :
    (a = id ∧ y = x) ∨ (a ≠ id ∧ s.lookup a = some y) := by
  by_cases ha : a = id
  · subst ha
    rw [AList.lookup_insert] at h
    exact .inl ⟨rfl, (Option.some.inj h).symm⟩
  · rw [AList.lookup_insert_ne ha] at h
    exact .inr ⟨ha, h⟩

/-! ## What the operations do to the space -/

/-- An entry changes its counters. -/
theorem Space.setEntry {env : Env} {held : List DiskLocation} {e e' : Engine} {id : UInt64}
    {x x' : ExtentEntry} (h : Space env held e) (hx : e.entries.lookup id = some x)
    (he : e'.entries = e.entries.insert id x') (hn : e'.nextExtentId = e.nextExtentId)
    (hf : e'.free = e.free) (hd : e'.deferredFree = e.deferredFree)
    (hloc : x'.location = x.location)
    (hused : headerSize.toNat + x'.usedBytes.toNat ≤ x.location.length.toNat)
    (hlive : x'.liveBytes.toNat ≤ x'.usedBytes.toNat) : Space env held e' := by
  refine h.of_perm ?_ ?_ hf ?_
  · intro a y hy
    rw [he] at hy
    rw [hn]
    rcases lookup_insert_cases hy with ⟨rfl, -⟩ | ⟨-, hy⟩
    · exact h.fresh _ _ hx
    · exact h.fresh _ _ hy
  · intro a y hy
    rw [he] at hy
    rcases lookup_insert_cases hy with ⟨-, rfl⟩ | ⟨-, hy⟩
    · exact ⟨hloc ▸ hused, hlive⟩
    · exact h.used _ _ hy
  · unfold owned
    rw [hd, extentLocations_insert he, hloc]
    exact ((extentLocations_perm hx).symm.append_left _).append_right _

/-- A location that a call holds becomes an extent. -/
theorem Space.newEntry {env : Env} {held : List DiskLocation} {e e' : Engine}
    {loc : DiskLocation} (hcfg : env.ConfigOk) (h : Space env (loc :: held) e)
    (hbound : e.nextExtentId.toNat + 1 < 2 ^ 64)
    (he : e'.entries = e.entries.insert e.nextExtentId { location := loc })
    (hn : e'.nextExtentId = e.nextExtentId + 1)
    (hf : e'.free = e.free) (hd : e'.deferredFree = e.deferredFree) : Space env held e' := by
  have hnext : e'.nextExtentId.toNat = e.nextExtentId.toNat + 1 := by
    rw [hn, UInt64.toNat_add]
    exact Nat.mod_eq_of_lt hbound
  have hnone : e.entries.lookup e.nextExtentId = none := by
    rw [Option.eq_none_iff_forall_ne_some]
    intro x hx
    exact absurd (h.fresh _ _ hx) (lt_irrefl _)
  refine h.of_perm ?_ ?_ hf ?_
  · intro a y hy
    rw [he] at hy
    rcases lookup_insert_cases hy with ⟨rfl, -⟩ | ⟨-, hy⟩
    · omega
    · have := h.fresh _ _ hy
      omega
  · intro a y hy
    rw [he] at hy
    rcases lookup_insert_cases hy with ⟨-, rfl⟩ | ⟨-, hy⟩
    · have := (h.ok loc (by simp [owned])).header_le hcfg
      simpa using this
    · exact h.used _ _ hy
  · unfold owned
    rw [hd, extentLocations_insert_new he hnone]
    simp

/-- The location of an extent is retired with the extent. -/
theorem Space.free {env : Env} {held : List DiskLocation} {e : Engine} (h : Space env held e)
    (id : UInt64) : Space env held (e.freeExtent id) := by
  unfold freeExtent
  cases hx : e.entries.lookup id with
  | none => exact h
  | some x =>
    have hlook : ∀ a y, (e.entries.erase id).lookup a = some y → e.entries.lookup a = some y := by
      intro a y hy
      by_cases ha : a = id
      · subst ha
        rw [AList.lookup_erase] at hy
        cases hy
      · rwa [AList.lookup_erase_ne ha] at hy
    refine h.of_perm (fun a y hy => h.fresh a y (hlook a y hy))
      (fun a y hy => h.used a y (hlook a y hy)) rfl ?_
    unfold owned
    simp only [List.map_append, List.map_cons, List.map_nil, List.append_assoc]
    refine List.Perm.append_left _ ?_
    calc { e with entries := e.entries.erase id }.extentLocations ++
          (e.deferredFree.map Prod.fst ++ [x.location])
      _ |>.Perm (x.location :: ({ e with entries := e.entries.erase id }.extentLocations ++
          e.deferredFree.map Prod.fst)) := by
        rw [← List.append_assoc]
        exact List.perm_append_singleton _ _
      _ |>.Perm (e.extentLocations ++ e.deferredFree.map Prod.fst) :=
        (extentLocations_perm hx).symm.append_right _

/-- A location that a call holds is retired. -/
theorem Space.release {env : Env} {held : List DiskLocation} {e : Engine} {loc : DiskLocation}
    (h : Space env (loc :: held) e) : Space env held (e.releaseSource loc) := by
  refine h.of_perm h.fresh h.used rfl ?_
  unfold owned releaseSource
  simp only [List.map_append, List.map_cons, List.map_nil, ← List.append_assoc]
  exact List.perm_append_singleton _ _

/-- An extent takes the location that a call holds, and its old one is retired. -/
theorem Space.move {env : Env} {held : List DiskLocation} {e e' : Engine} {id : UInt64}
    {x x' : ExtentEntry} {n : ℕ} (h : Space env (x'.location :: held) e)
    (hx : e.entries.lookup id = some x)
    (he : e'.entries = e.entries.insert id x') (hn : e'.nextExtentId = e.nextExtentId)
    (hf : e'.free = e.free) (hd : e'.deferredFree = e.deferredFree ++ [(x.location, n)])
    (hlen : x'.location.length = x.location.length) (hu : x'.usedBytes = x.usedBytes)
    (hl : x'.liveBytes = x.liveBytes) : Space env held e' := by
  refine h.of_perm ?_ ?_ hf ?_
  · intro a y hy
    rw [he] at hy
    rw [hn]
    rcases lookup_insert_cases hy with ⟨rfl, -⟩ | ⟨-, hy⟩
    · exact h.fresh _ _ hx
    · exact h.fresh _ _ hy
  · intro a y hy
    rw [he] at hy
    rcases lookup_insert_cases hy with ⟨-, rfl⟩ | ⟨-, hy⟩
    · rw [hlen, hu, hl]
      exact h.used _ _ hx
    · exact h.used _ _ hy
  · obtain ⟨rest, hrest⟩ : ∃ r, r = { e with entries := e.entries.erase id }.extentLocations :=
      ⟨_, rfl⟩
    have hp : e.extentLocations.Perm (x.location :: rest) := hrest ▸ extentLocations_perm hx
    have he'' : e'.extentLocations = x'.location :: rest := hrest ▸ extentLocations_insert he
    unfold owned
    rw [hd, he'', List.map_append, List.map_cons, List.map_nil, List.cons_append, List.cons_append]
    calc held ++ x'.location :: rest ++ (e.deferredFree.map Prod.fst ++ [x.location])
      _ |>.Perm (x'.location :: (held ++ rest ++ (e.deferredFree.map Prod.fst ++ [x.location]))) :=
        List.perm_middle.append_right _
      _ |>.Perm (x'.location :: (held ++ (x.location :: rest) ++ e.deferredFree.map Prod.fst)) := by
        refine List.Perm.cons _ ?_
        rw [← List.append_assoc]
        refine (List.perm_append_singleton _ _).trans ?_
        rw [← List.cons_append]
        exact List.perm_middle.symm.append_right _
      _ |>.Perm (x'.location :: (held ++ e.extentLocations ++ e.deferredFree.map Prod.fst)) :=
        ((hp.symm.append_left _).append_right _).cons _

/-- A location that an allocator gave is held by the call. -/
theorem Space.took {env : Env} {held : List DiskLocation} {e e' : Engine} {want : ℕ}
    {loc : Option DiskLocation} (h : Space env held e) (ht : Took env e e' want loc)
    (hwant : want ≤ 2 ^ 31) (htier : ∀ l ∈ loc, l.tier = .fast ∨ l.tier = .slow) :
    Space env (loc.toList ++ held) e' := by
  have hentries : e'.entries = e.entries := by rw [ht.frame]
  have hnext : e'.nextExtentId = e.nextExtentId := by rw [ht.frame]
  have hdef : e'.deferredFree = e.deferredFree := by rw [ht.frame]
  have howned : ∀ l, owned l e' = owned l e := by
    intro l
    unfold owned extentLocations
    rw [hentries, hdef]
  have hnot : ∀ l ∈ owned held e, ∀ t i, l.Covers t i → e'.free t i = false := by
    intro l hl t i hc
    have hold := h.not_free l hl t i hc
    by_contra hne
    rw [ht.free_le t i (by simpa using hne)] at hold
    cases hold
  have hbase : Space env held e' :=
    { fresh := by rw [hentries, hnext]; exact h.fresh
      used := by rw [hentries]; exact h.used
      ok := by rw [howned]; exact h.ok
      apart := by rw [howned]; exact h.apart
      not_free := by rw [howned]; exact hnot
      journal_not_free := fun i hi => h.journal_not_free i (ht.free_le _ _ hi) }
  cases loc with
  | none => exact hbase
  | some l =>
    obtain ⟨hdvd, hpos, hle⟩ := ht.blocks l rfl
    have hcons : owned ((some l).toList ++ held) e' = l :: owned held e' := by simp [owned]
    refine ⟨hbase.fresh, hbase.used, ?_, ?_, ?_, hbase.journal_not_free⟩
    · rw [hcons]
      intro loc hloc
      rcases List.mem_cons.mp hloc with rfl | hloc
      · refine ⟨hdvd, hpos, hle.trans hwant, ?_⟩
        rcases htier loc rfl with hfast | hslow
        · refine .inl ⟨hfast, h.journal_not_free _ ?_⟩
          exact ht.was_free loc rfl _ _ ⟨hfast, le_refl _, by omega⟩
        · exact .inr hslow
      · exact hbase.ok loc hloc
    · rw [hcons, List.pairwise_cons]
      refine ⟨?_, hbase.apart⟩
      intro loc hloc t i hc hc'
      -- What was free is not owned.
      have hfree := ht.was_free l rfl t i hc
      rw [howned] at hloc
      rw [h.not_free loc hloc t i hc'] at hfree
      cases hfree
    · rw [hcons]
      intro loc hloc t i hc
      rcases List.mem_cons.mp hloc with rfl | hloc
      · exact ht.not_free loc rfl t i hc
      · exact hbase.not_free loc hloc t i hc

/-- What was retired two cycles ago is given back. -/
theorem Space.processDeferredFree {env : Env} {e : Engine} (h : Space env [] e) :
    Space env [] e.processDeferredFree := by
  obtain ⟨keep, hkeep⟩ : ∃ k : List (DiskLocation × ℕ),
    k = e.deferredFree.filter fun d => ¬ e.seqno - d.2 ≥ 2 := ⟨_, rfl⟩
  obtain ⟨due, hdue⟩ : ∃ k : List (DiskLocation × ℕ),
    k = e.deferredFree.filter fun d => e.seqno - d.2 ≥ 2 := ⟨_, rfl⟩
  -- What is due and what is kept are all that was retired.
  have hsplit : (due ++ keep).Perm e.deferredFree := by
    rw [hdue, hkeep]
    simp only [decide_not]
    exact List.filter_append_perm _ _
  obtain ⟨e', he'⟩ : ∃ e', e' = e.processDeferredFree := ⟨_, rfl⟩
  have hd : e'.deferredFree = keep := by rw [he', hkeep]; rfl
  have hentries : e'.entries = e.entries := by rw [he']; rfl
  have hfree : ∀ t i, e'.free t i = true →
      e.free t i = true ∨ ∃ d ∈ due, d.1.Covers t i := by
    intro t i hi
    rw [he'] at hi
    simp only [Engine.processDeferredFree, Bool.or_eq_true, List.any_eq_true, Bool.and_eq_true,
      decide_eq_true_eq, inRange] at hi
    rcases hi with hi | ⟨d, hmem, ht, hr⟩
    · exact .inl hi
    · rw [hdue]
      exact .inr ⟨d, hmem, ht, hr.1, hr.2⟩
  -- What is due is owned no more.
  have howned : (due.map Prod.fst ++ owned [] e').Perm (owned [] e) := by
    unfold owned extentLocations
    rw [hd, hentries]
    simp only [List.nil_append]
    calc due.map Prod.fst ++ (e.entries.entries.map (fun s => s.2.location) ++ keep.map Prod.fst)
      _ |>.Perm (e.entries.entries.map (fun s => s.2.location) ++
          (due.map Prod.fst ++ keep.map Prod.fst)) := by
        rw [← List.append_assoc, ← List.append_assoc]
        exact List.perm_append_comm.append_right _
      _ |>.Perm (e.entries.entries.map (fun s => s.2.location) ++
          e.deferredFree.map Prod.fst) := by
        rw [← List.map_append]
        exact (hsplit.map _).append_left _
  have hpair : (due.map Prod.fst ++ owned [] e').Pairwise DiskLocation.Apart :=
    (howned.pairwise_iff DiskLocation.Apart.symm).mpr h.apart
  rw [List.pairwise_append] at hpair
  have hmem : ∀ loc ∈ owned [] e', loc ∈ owned [] e := fun loc hloc =>
    howned.mem_iff.mp (List.mem_append_right _ hloc)
  have hdueOk : ∀ d ∈ due, LocationOk env d.1 := fun d hd =>
    h.ok d.1 (howned.mem_iff.mp (List.mem_append_left _ (List.mem_map_of_mem hd)))
  rw [← he']
  -- The invariant clause by clause.
  refine ⟨?_, ?_, fun loc hloc => h.ok loc (hmem loc hloc), hpair.2.1, ?_, ?_⟩
  · rw [hentries, he']; exact h.fresh
  · rw [hentries]; exact h.used
  · intro loc hloc t i hc
    by_contra hne
    rcases hfree t i (by simpa using hne) with hi | ⟨d, hd, hdc⟩
    · rw [h.not_free loc (hmem loc hloc) t i hc] at hi
      cases hi
    · exact hpair.2.2 d.1 (List.mem_map_of_mem hd) loc hloc t i hdc hc
  · intro i hi
    rcases hfree _ i hi with hi | ⟨d, hd, htier, hle, -⟩
    · exact h.journal_not_free i hi
    · rcases (hdueOk d hd).area with ⟨-, hj⟩ | hslow
      · omega
      · rw [htier] at hslow
        cases hslow

/-- Extents do not overlap. -/
theorem Space.apart_extents {env : Env} {held : List DiskLocation} {e : Engine}
    (h : Space env held e) {a b : UInt64} {x y : ExtentEntry} (hx : e.entries.lookup a = some x)
    (hy : e.entries.lookup b = some y) (hab : a ≠ b) : x.location.Apart y.location := by
  have hloc : (x.location :: { e with entries := e.entries.erase a }.extentLocations).Pairwise
      DiskLocation.Apart := by
    refine ((extentLocations_perm hx).pairwise_iff DiskLocation.Apart.symm).mp ?_
    have := h.apart
    unfold owned at this
    exact (List.pairwise_append.mp (List.pairwise_append.mp this).1).2.1
  refine (List.pairwise_cons.mp hloc).1 _ ?_
  have hy' : { e with entries := e.entries.erase a }.entries.lookup b = some y := by
    rw [AList.lookup_erase_ne hab.symm, hy]
  exact location_mem hy'

/-- A location that a call holds does not overlap an extent. -/
theorem Space.apart_held {env : Env} {held : List DiskLocation} {e : Engine}
    {loc : DiskLocation} (h : Space env (loc :: held) e) {a : UInt64} {x : ExtentEntry}
    (hx : e.entries.lookup a = some x) : loc.Apart x.location := by
  have := h.apart
  rw [show owned (loc :: held) e = loc :: owned held e from rfl, List.pairwise_cons] at this
  exact this.1 _ (location_mem_owned hx held)

end Engine

end CxxLab.Btier
