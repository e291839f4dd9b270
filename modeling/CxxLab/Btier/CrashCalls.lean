import CxxLab.Btier.DurableView

/-!
# The calls under crashes

What each part of a call does to the view that the journal carries, to the content that a crash
yields, and to the room that the journal has. A call ends with one transaction that changes the
content; before it, every crash yields the old content.
-/

namespace CxxLab.Btier

open Engine

namespace Engine

section

variable {env : Env} {held : List DiskLocation} {res : UInt64 → ℕ} {e e' e1 e2 : Engine}
  {m m' : Key → Option Value} {V V' : View}

/-! ## Room in the journal -/

/-- The journal has room for transactions of the given lengths. -/
def HasRoom (e : Engine) (lens : List ℕ) : Prop := e.journal.Room e.journal.getUsedBytes lens

/-- The used bytes of the journal after them. -/
def usedBy (e : Engine) (lens : List ℕ) : ℕ := e.journal.usedAfter e.journal.getUsedBytes lens

/-- The journal has as much room as before. -/
def SameRoom (e e' : Engine) : Prop :=
  ∀ lens, e.HasRoom lens → e'.HasRoom lens ∧ e'.usedBy lens = e.usedBy lens

/-- A journal that stays has the same room. -/
theorem sameRoom_of_journal (h : e'.journal = e.journal) : SameRoom e e' := by
  intro lens hr
  unfold HasRoom usedBy at *
  rw [h]
  exact ⟨hr, rfl⟩

/-- The room stays the same over two steps. -/
theorem SameRoom.trans (h1 : SameRoom e e1) (h2 : SameRoom e1 e2) : SameRoom e e2 := by
  intro lens hr
  obtain ⟨hr1, hu1⟩ := h1 lens hr
  obtain ⟨hr2, hu2⟩ := h2 lens hr1
  exact ⟨hr2, hu2.trans hu1⟩

/-- A data write behind the journal takes no room in it. -/
theorem sameRoom_devWrite {t : Tier} {off : ℕ} {bs : List UInt8}
    (ht : (t = .fast ∧ env.journalSize ≤ off) ∨ t = .slow) (hj : JournalReady env e.journal)
    (hw : e.devWrite env t off bs = some e') : SameRoom e e' := by
  have hjournal := devWrite_journal hw
  have hdata : ∀ i < e.journal.dataSize, e'.journal.dev.data i = e.journal.dev.data i := by
    intro i hi
    have hds := hj.dataSize
    unfold Engine.devWrite Device.write at hw
    rcases ht with ⟨rfl, hoff⟩ | rfl
    · simp only [if_true, Option.map_eq_some_iff, Option.ite_none_right_eq_some,
        Option.some.injEq] at hw
      obtain ⟨dev, ⟨-, rfl⟩, rfl⟩ := hw
      simp only [Ring.splice]
      rw [if_neg (by omega)]
    · rw [if_neg (by simp), Option.ite_none_right_eq_some] at hw
      obtain ⟨-, hw⟩ := hw
      obtain rfl := Option.some.inj hw
      rfl
  have hsame : ∀ used, Journal.SameHead e.journal e'.journal used := fun used =>
    ⟨by rw [hjournal], by rw [hjournal], fun _ i _ hi => hdata i hi⟩
  have hused : e'.journal.getUsedBytes = e.journal.getUsedBytes := by
    unfold Journal.getUsedBytes
    rw [hjournal]
  intro lens hr
  unfold HasRoom usedBy at *
  rw [hused]
  exact (hsame _).room hr

/-- A transaction takes its room. -/
theorem Committed.room {bl : List UInt8} {lens : List ℕ} (hpos : 0 < bl.length)
    (hc : Committed env e e1 bl V V')
    (hused : e1.journal.getUsedBytes = e.journal.getUsedBytes +
      e.journal.skipped (Journal.padded bl.length) + Journal.padded bl.length)
    (hr : e.HasRoom (bl.length :: lens)) :
    e1.HasRoom lens ∧ e1.usedBy lens = e.usedBy (bl.length :: lens) := by
  obtain ⟨hf, hrest⟩ := hr
  have hsame := hc.wrote.sameHead hpos hf
  unfold HasRoom usedBy at *
  rw [hused]
  exact hsame.room hrest

/-! ## Parts of calls that the journal does not see -/

/-- What the view names is spared when no owned location goes, and extents only grow, move to a
location that was not owned, or are new. -/
theorem Sound.spares (h : Sound e V m) (hnext : e.nextExtentId.toNat ≤ e'.nextExtentId.toNat)
    (hmap : e'.keyMap = e.keyMap) (hown : ∀ loc ∈ owned [] e, loc ∈ owned [] e')
    (hplaces : ∀ loc ∈ owned [] e', loc ∈ owned [] e ∨ OnDevice env loc)
    (hent : ∀ id x', e'.entries.lookup id = some x' →
      (∃ x, e.entries.lookup id = some x ∧ x.location = x'.location ∧
        x.usedBytes.toNat ≤ x'.usedBytes.toNat) ∨
      (((∃ x, e.entries.lookup id = some x) ∨ e.nextExtentId.toNat ≤ id.toNat) ∧
        x'.location ∉ owned [] e ∧ e'.HeaderOk x'.location)) : Spares env e e' V := by
  refine ⟨hnext, fun _ _ loc _ _ hloc => hown loc hloc, hplaces, fun id x' hx' => ?_,
    h.tracks_of_keyMap hmap fun id x' hx' => ?_⟩
  · rcases hent id x' hx' with ⟨x, hx, hloc, hused⟩ | ⟨-, hnew, hh⟩
    · exact .inl ⟨id, x, hx, hloc, hused⟩
    · exact .inr ⟨hnew, hh⟩
  · rcases hent id x' hx' with ⟨x, hx, -, -⟩ | ⟨hid, -, -⟩
    · exact .inl ⟨x, hx⟩
    · exact hid

/-- The owned locations with an entry set that stays where it is. -/
theorem owned_setEntry {id : UInt64} {x x' : ExtentEntry} (hx : e.entries.lookup id = some x)
    (he : e'.entries = e.entries.insert id x') (hd : e'.deferredFree = e.deferredFree)
    (hloc : x'.location = x.location) (loc : DiskLocation) :
    loc ∈ owned [] e' ↔ loc ∈ owned [] e := by
  have hperm : (owned [] e').Perm (owned [] e) := by
    unfold owned
    rw [hd, extentLocations_insert he, hloc]
    exact ((extentLocations_perm hx).symm.append_left _).append_right _
  exact hperm.mem_iff

/-- An entry changes its counters. -/
theorem Sound.spares_setEntry (h : Sound e V m) {id : UInt64} {x x' : ExtentEntry}
    (hx : e.entries.lookup id = some x) (he : e'.entries = e.entries.insert id x')
    (hd : e'.deferredFree = e.deferredFree) (hn : e'.nextExtentId = e.nextExtentId)
    (hmap : e'.keyMap = e.keyMap) (hloc : x'.location = x.location)
    (hused : x.usedBytes.toNat ≤ x'.usedBytes.toNat) : Spares env e e' V := by
  refine h.spares (by rw [hn]) hmap (fun loc hl => (owned_setEntry hx he hd hloc loc).mpr hl)
    (fun loc hl => .inl ((owned_setEntry hx he hd hloc loc).mp hl)) ?_
  intro id' y hy
  rw [he] at hy
  rcases lookup_insert_cases hy with ⟨rfl, rfl⟩ | ⟨-, hy⟩
  · exact .inl ⟨x, hx, hloc.symm, hused⟩
  · exact .inl ⟨y, hy, rfl, le_refl _⟩

/-- The owned locations of a freed extent. -/
theorem owned_freeExtent (e : Engine) (id : UInt64) (loc : DiskLocation) :
    loc ∈ owned [] (e.freeExtent id) ↔ loc ∈ owned [] e := by
  unfold freeExtent
  cases hx : e.entries.lookup id with
  | none => rfl
  | some x =>
    have hperm := extentLocations_perm hx
    simp only [owned, List.nil_append, List.map_append, List.map_cons, List.map_nil,
      List.mem_append, hperm.mem_iff, List.mem_cons]
    tauto

/-- An extent goes, and its location is retired. -/
theorem Sound.spares_freeExtent (h : Sound e V m) (id : UInt64) :
    Spares env e (e.freeExtent id) V := by
  have hf := freeExtent_frame e id
  refine h.spares (by rw [hf]) (by rw [hf]) (fun loc => (owned_freeExtent e id loc).mpr)
    (fun loc hloc => .inl ((owned_freeExtent e id loc).mp hloc)) fun id' y hy => ?_
  rw [hf] at hy
  by_cases hid : id' = id
  · subst hid
    rw [AList.lookup_erase] at hy
    cases hy
  · rw [AList.lookup_erase_ne hid] at hy
    exact .inl ⟨y, hy, rfl, le_refl _⟩

/-- What a quiet part of a call does: the view, the content and the room stay. -/
structure Quiet (env : Env) (e e' : Engine) (V : View) (m : Key → Option Value) : Prop where
  /-- The devices hold the content under the same view. -/
  durable : Durable env e' V m
  /-- Every crash yields the content. -/
  trail : Trail (Yields env m) e e'
  /-- The room is the same. -/
  room : SameRoom e e'

/-- Two quiet steps are one. -/
theorem Quiet.trans (h1 : Quiet env e e1 V m) (h2 : Quiet env e1 e2 V m) : Quiet env e e2 V m :=
  ⟨h2.durable, h1.trail.trans h2.trail, h1.room.trans h2.room⟩

/-- Nothing happens. -/
theorem Durable.quiet (henv : env.Lawful) (hcfg : env.ConfigOk) (hsp : Space env held e)
    (h : Durable env e V m) : Quiet env e e V m :=
  ⟨h, trail_refl (h.yields henv hcfg hsp) rfl rfl, fun _ hr => ⟨hr, rfl⟩⟩

/-- The memory changes. -/
theorem Durable.quiet_memory (henv : env.Lawful) (hcfg : env.ConfigOk) (hsp : Space env held e)
    (h : Durable env e V m) (hsp' : Spares env e e' V) (hj : e'.journal = e.journal)
    (hslow : e'.slow = e.slow) (hlog : e'.log = e.log)
    (hfree : ∀ t i, e'.free t i = true → e.free t i = true ∨ i < Engine.devSize env t) :
    Quiet env e e' V m := by
  obtain ⟨hd, ht⟩ := h.memory henv hcfg hsp hsp' hj hslow hlog hfree
  exact ⟨hd, ht, sameRoom_of_journal hj⟩

/-- The view is spared when the extents and the key map stay. -/
theorem Sound.spares_of_eq (h : Sound e V m) (hent : e'.entries = e.entries)
    (hdef : e'.deferredFree = e.deferredFree) (hnext : e'.nextExtentId = e.nextExtentId)
    (hmap : e'.keyMap = e.keyMap) : Spares env e e' V := by
  have hown : owned [] e' = owned [] e := by
    unfold owned extentLocations
    rw [hent, hdef]
  refine h.spares (by rw [hnext]) hmap (fun loc hloc => by rw [hown]; exact hloc)
    (fun loc hloc => .inl (by rw [hown] at hloc; exact hloc)) fun id x hx => ?_
  rw [hent] at hx
  exact .inl ⟨x, hx, rfl, le_refl _⟩

/-- Something is allocated. -/
theorem Durable.took (henv : env.Lawful) (hcfg : env.ConfigOk) (hsp : Space env held e)
    (h : Durable env e V m) {want : ℕ} {loc : Option DiskLocation}
    (htook : Took env e e' want loc) : Quiet env e e' V m := by
  have hf := htook.frame
  exact h.quiet_memory henv hcfg hsp
    (h.sound.spares_of_eq (by rw [hf]) (by rw [hf]) (by rw [hf]) (by rw [hf])) (by rw [hf])
    (by rw [hf]) (by rw [hf]) fun t i hi => .inl (htook.free_le t i hi)

/-- An extent goes. -/
theorem Durable.freeExtent (henv : env.Lawful) (hcfg : env.ConfigOk) (hsp : Space env held e)
    (h : Durable env e V m) (id : UInt64) : Quiet env e (e.freeExtent id) V m := by
  have hf := freeExtent_frame e id
  exact h.quiet_memory henv hcfg hsp (h.sound.spares_freeExtent id) (by rw [hf]) (by rw [hf])
    (by rw [hf]) fun t i hi => .inl (by rw [hf] at hi; exact hi)

/-- An entry changes its counters. -/
theorem Durable.setEntry (henv : env.Lawful) (hcfg : env.ConfigOk) (hsp : Space env held e)
    (h : Durable env e V m) {id : UInt64} {x x' : ExtentEntry}
    (hx : e.entries.lookup id = some x)
    (hf : e' = { e with entries := e.entries.insert id x', freeLists := e'.freeLists })
    (hloc : x'.location = x.location) (hused : x.usedBytes.toNat ≤ x'.usedBytes.toNat) :
    Quiet env e e' V m :=
  h.quiet_memory henv hcfg hsp (h.sound.spares_setEntry hx (by rw [hf]) (by rw [hf]) (by rw [hf])
    (by rw [hf]) hloc hused) (by rw [hf]) (by rw [hf]) (by rw [hf])
    fun t i hi => .inl (by rw [hf] at hi; exact hi)

/-- A slot dies. -/
theorem Durable.markDeadSlot (henv : env.Lawful) (hcfg : env.ConfigOk) (hsp : Space env held e)
    (h : Durable env e V m) (id : UInt64) (length : UInt32) :
    Quiet env e (e.markDeadSlot id length) V m := by
  cases hx : e.entries.lookup id with
  | none =>
    have heq : e.markDeadSlot id length = e := by
      unfold Engine.markDeadSlot
      rw [hx]
    rw [heq]
    exact h.quiet henv hcfg hsp
  | some x =>
    have hf : e.markDeadSlot id length = { e with
        entries := e.entries.insert id { x with
          liveBytes := if x.liveBytes ≥ length then x.liveBytes - length else 0
          generation := x.generation + 1 }
        freeLists := (e.markDeadSlot id length).freeLists } := by
      unfold Engine.markDeadSlot updateFreeList
      simp only [hx]
    exact h.setEntry henv hcfg hsp hx hf rfl (le_refl _)

/-- The slot of a key is retired. -/
theorem Durable.retireSlot (henv : env.Lawful) (hcfg : env.ConfigOk) (hsp : Space env held e)
    (h : Durable env e V m) (old : KeyLocation)
    (hdead : Space env held (e.markDeadSlot old.extentId old.length)) :
    Quiet env e (e.retireSlot old) V m := by
  have h1 := h.markDeadSlot henv hcfg hsp old.extentId old.length
  unfold Engine.retireSlot
  simp only
  split_ifs
  · exact h1.trans (h1.durable.freeExtent henv hcfg hdead _)
  · exact h1

/-! ## Data writes -/

/-- A value goes into a slot that was reserved for it. -/
theorem Durable.writeSlot (henv : env.Lawful) (hcfg : env.ConfigOk) {m0 : Key → Option Value}
    (hc : Content env held res e m0) (h : Durable env e V m) {id : UInt64} {size off : UInt32}
    {x : ExtentEntry} {bs : List UInt8} (hsize : size.toNat ≤ 2 ^ 31)
    (hx : e.entries.lookup id = some x) (happ : e.appendSlot id size = (off, e1))
    (hoff : off ≠ noSlot) (hbs : bs.length = size.toNat)
    (hw : e1.devWrite env x.location.tier (slotStart x.location off) bs = some e2) :
    Quiet env e e2 V m := by
  obtain ⟨h1, -, y, x', hy, hloc, hoffy, hused, hf1⟩ :=
    ((hc.appendSlot hcfg hsize happ).resolve_left fun hno => hoff hno.1).2
  obtain rfl : x = y := Option.some.inj (hx.symm.trans hy)
  obtain ⟨hf2, -, -⟩ := devWrite_frame hw
  have hx' : e1.entries.lookup id = some x' := by rw [hf1, AList.lookup_insert]
  have hmem := location_mem_owned hx held
  have harea : (x.location.tier = .fast ∧ env.journalSize ≤ slotStart x.location off) ∨
      x.location.tier = .slow := by
    rcases (hc.space.ok _ hmem).area with ⟨ht, hj⟩ | ht
    · refine .inl ⟨ht, ?_⟩
      unfold slotStart
      omega
    · exact .inr ht
  -- Other locations are elsewhere, and what is in use of this one ends before the slot.
  have hspot : Spot env e x.location.tier (slotStart x.location off) bs.length := by
    refine ⟨harea, fun loc hloc' htier i hi => ?_⟩
    by_cases heq : loc = x.location
    · subst heq
      have := hi.2.2 id x hx rfl
      unfold slotStart
      rw [hoffy]
      omega
    · by_contra hin
      refine hc.space.apart_of_ne (mem_owned hloc' held) hmem heq x.location.tier i ⟨htier, hi.1, hi.2.1⟩ ?_
      have hlen : off.toNat + size.toNat ≤ x'.usedBytes.toNat := by rw [hused, hoffy]
      rw [hbs] at hin
      rw [← hloc] at hin ⊢
      exact h1.space.slot_covers hx' hlen (by omega) (by omega)
  have hspares : Spares env e e2 V :=
    h.sound.spares_setEntry hx (by rw [hf2, hf1]) (by rw [hf2, hf1]) (by rw [hf2, hf1])
      (by rw [hf2, hf1]) hloc (by omega)
  obtain ⟨hd, ht⟩ := h.write henv hcfg hc.space hc.journal hspot (by rw [hf1])
    (fun t i hi => by rw [hf1] at hi; exact hi) hw hspares
  have hj1 : e1.journal = e.journal := by rw [hf1]
  exact ⟨hd, ht, (sameRoom_of_journal hj1).trans (sameRoom_devWrite harea h1.journal hw)⟩

/-- A header that was written is not corrupt. -/
theorem headerCorrupt_headerBytes (id : UInt64) (length : UInt32) :
    headerCorrupt (headerBytes id length) = false := by
  obtain ⟨fields, hfields⟩ : ∃ f, f = headerFields id length 0 0 0 := ⟨_, rfl⟩
  obtain ⟨crc, hcrc⟩ : ∃ c, c = Common.calcCrc32 fields 0 := ⟨_, rfl⟩
  have hlen : fields.length = 40 := by rw [hfields]; simp [headerFields]
  have hbytes : headerBytes id length =
      fields ++ (Codec.putU32 crc ++ List.replicate 4052 0) := by
    unfold headerBytes
    simp only [← hfields, ← hcrc, List.append_assoc]
  have htake : (headerBytes id length).take 40 = fields := by
    rw [hbytes]
    exact List.take_left' hlen
  have hdrop : ((headerBytes id length).drop 40).take 4 = Codec.putU32 crc := by
    rw [hbytes, List.drop_left' hlen]
    exact List.take_left' (Codec.length_putU32 crc)
  have hnat : Codec.leNat (Codec.putU32 crc) = crc.toNat := by
    unfold Codec.putU32
    rw [Codec.leNat_leBytes]
    exact Nat.mod_eq_of_lt crc.toNat_lt
  unfold headerCorrupt
  rw [htake, hdrop, hnat, ← hcrc]
  simp

/-- What was free is on the device, so a write there succeeds. -/
theorem Durable.devWrite_free (hcfg : env.ConfigOk) (h : Durable env e V m) (hj : e1.journal = e.journal)
    {t : Tier} {off : ℕ} {bs : List UInt8} (ht : (t = .fast ∧ env.journalSize ≤ off) ∨ t = .slow)
    (hpos : 0 < bs.length)
    (hfree : ∀ i, off ≤ i → i < off + bs.length → e.free t i = true) :
    ∃ e2, e1.devWrite env t off bs = some e2 := by
  have hjs := hcfg.journal
  have hlast := h.sized.free_lt t (off + bs.length - 1) (by tauto)
    (hfree _ (by omega) (by omega))
  unfold Engine.devSize at hlast
  unfold Engine.devWrite Device.write
  rcases ht with ⟨rfl, hoff⟩ | rfl
  · have hcap := h.sized.capacity
    rw [if_pos rfl] at hlast
    rw [if_pos rfl, if_pos (by rw [hj]; omega)]
    exact ⟨_, rfl⟩
  · rw [if_neg (by simp)] at hlast
    rw [if_neg (by simp), if_pos (by omega)]
    exact ⟨_, rfl⟩

/-- What was allocated is on its device. -/
theorem Durable.onDevice (h : Durable env e V m) {loc : DiskLocation} {want : ℕ}
    (hok : LocationOk env loc) (htook : Took env e e1 want (some loc)) : OnDevice env loc := by
  have hpos := hok.pos
  have hlast := h.sized.free_lt loc.tier (loc.offset.toNat + loc.length.toNat - 1)
    (by have := hok.area; tauto) (htook.was_free loc rfl _ _ ⟨rfl, by omega, by omega⟩)
  unfold OnDevice
  omega

/-- A new extent is made, and its header written. -/
theorem Durable.allocateExtent (henv : env.Lawful) (hcfg : env.ConfigOk)
    {m0 : Key → Option Value} (hc : Content env held res e m0) (h : Durable env e V m) {t : Tier}
    {size : ℕ} (ht : t = .fast ∨ t = .slow) (hwant : alignedSize env size ≤ 2 ^ 31)
    (hnext : e.nextExtentId.toNat + 1 < 2 ^ 64) {r : Option (UInt64 × DiskLocation)}
    (hr : e.allocateExtent env t size = (r, e')) : Quiet env e e' V m := by
  -- What the allocator of the tier took is free no more.
  obtain ⟨htook, htiers⟩ := took_allocateRaw henv e t size
  unfold Engine.allocateExtent at hr
  cases hraw : e.allocateRaw env t size with
  | mk l e1 =>
    rw [hraw] at hr htook htiers
    replace htook : Took env e e1 (alignedSize env size) l := htook
    have htier : ∀ l' ∈ l, l'.tier = .fast ∨ l'.tier = .slow := by
      intro l' hl'
      have := htiers l' hl'
      rcases ht with rfl | rfl <;> tauto
    have hsp1 := hc.space.took htook hwant htier
    have hf1 := htook.frame
    have hfree1 : ∀ t i, e1.free t i = true → e.free t i = true := htook.free_le
    -- Nothing was found, or an extent is put in the index and its header written.
    cases l with
    | none =>
      obtain ⟨rfl, rfl⟩ := Prod.mk.inj hr
      exact h.took henv hcfg hc.space htook
    | some loc =>
      obtain ⟨e2, he2⟩ : ∃ e2, e2 = { e1 with
        nextExtentId := e1.nextExtentId + 1
        entries := e1.entries.insert e1.nextExtentId { location := loc }
        freeLists := Function.update e1.freeLists loc.tier
          (freeInsert (loc.length - headerSize, e1.nextExtentId) (e1.freeLists loc.tier)) } :=
        ⟨_, rfl⟩
      simp only [← he2] at hr
      obtain ⟨rfl, rfl⟩ := Prod.mk.inj hr
      have hn1 : e1.nextExtentId = e.nextExtentId := by rw [hf1]
      have hent2 : e2.entries = e.entries.insert e.nextExtentId { location := loc } := by
        rw [he2, hf1]
      have hmap2 : e2.keyMap = e.keyMap := by rw [he2, hf1]
      have hdef2 : e2.deferredFree = e.deferredFree := by rw [he2, hf1]
      have hj2 : e2.journal = e.journal := by rw [he2, hf1]
      have hfree2 : e2.free = e1.free := by rw [he2]
      have hnext2 : e2.nextExtentId.toNat = e.nextExtentId.toNat + 1 := by
        rw [he2, hn1, UInt64.toNat_add]
        exact Nat.mod_eq_of_lt hnext
      have hok : LocationOk env loc := hsp1.ok loc (by simp [owned])
      have hhead := hok.header_le hcfg
      have hlen := length_headerBytes e1.nextExtentId loc.length
      obtain ⟨hdr, hhdr⟩ : ∃ b, b = headerBytes e1.nextExtentId loc.length := ⟨_, rfl⟩
      rw [← hhdr] at hlen
      -- What was taken was free: it is on the device, and nothing that is owned is there.
      have hwas : ∀ i, loc.offset.toNat ≤ i → i < loc.offset.toNat + hdr.length →
          e.free loc.tier i = true := fun i h1 h2 =>
        htook.was_free loc rfl _ i ⟨rfl, h1, by omega⟩
      have hspot : Spot env e loc.tier loc.offset.toNat hdr.length := by
        refine ⟨hok.area, fun loc' hloc' htier' i hi => ?_⟩
        by_contra hin
        have := hc.space.not_free loc' (mem_owned hloc' held) loc.tier i ⟨htier', hi.1, hi.2.1⟩
        rw [hwas i (by omega) (by omega)] at this
        cases this
      have hzero : 0 < headerSize.toNat := by decide
      obtain ⟨e3, hw⟩ := h.devWrite_free hcfg hj2 hok.area (by omega) hwas
      have hwrite : e2.writeExtentHeader env e1.nextExtentId loc = e3 := by
        unfold writeExtentHeader
        rw [← hhdr, hw]
        rfl
      rw [hwrite]
      obtain ⟨hf3, -, -⟩ := devWrite_frame hw
      have hent3 : e3.entries = e.entries.insert e.nextExtentId { location := loc } := by
        rw [hf3]; exact hent2
      have hheader : e3.HeaderOk loc := by
        have hjs := hcfg.journal
        have hread := devRead_devWrite hw
          (fun hfast => by
            have := superblock_le hok (le_refl _) hfast
            omega) (by have := hok.area; tauto)
        unfold HeaderOk
        rw [← hlen, hread, hhdr]
        exact headerCorrupt_headerBytes _ _
      have hnotin : loc ∉ owned [] e := by
        intro hloc
        have := hc.space.not_free loc (mem_owned hloc held) loc.tier loc.offset.toNat
          ⟨rfl, le_refl _, by omega⟩
        rw [hwas _ (le_refl _) (by omega)] at this
        cases this
      have hspares : Spares env e e3 V := by
        have hown : ∀ loc', loc' ∈ owned [] e3 ↔ loc' = loc ∨ loc' ∈ owned [] e := by
          intro loc'
          have hdef3 : e3.deferredFree = e.deferredFree := by rw [hf3]; exact hdef2
          unfold owned
          rw [extentLocations_insert_new hent3 hc.space.lookup_next, hdef3]
          simp only [List.nil_append, List.mem_append, List.mem_cons, or_assoc]
        refine h.sound.spares (by rw [hf3]; simp only; omega) (by rw [hf3]; exact hmap2)
          (fun loc' hloc' => (hown loc').mpr (.inr hloc')) (fun loc' hloc' => ?_) ?_
        · refine ((hown loc').mp hloc').elim (fun heq => .inr ?_) .inl
          rw [heq]
          exact h.onDevice hok htook
        · intro id x hx
          rw [hent3] at hx
          rcases lookup_insert_cases hx with ⟨rfl, rfl⟩ | ⟨-, hx⟩
          · exact .inr ⟨.inr (le_refl _), hnotin, hheader⟩
          · exact .inl ⟨x, hx, rfl, le_refl _⟩
      have hmem2 : e2 = { e with
          entries := e2.entries
          nextExtentId := e2.nextExtentId
          freeLists := e2.freeLists
          allocCalls := e2.allocCalls
          free := e2.free } := by
        rw [he2, hf1]
      obtain ⟨hd, htrail⟩ := h.write henv hcfg hc.space hc.journal hspot hmem2
        (fun t i hi => hfree1 t i (by rw [hfree2] at hi; exact hi)) hw hspares
      refine ⟨hd, htrail, (sameRoom_of_journal hj2).trans ?_⟩
      exact sameRoom_devWrite hok.area (by rw [hj2]; exact hc.journal) hw

end

end Engine

end CxxLab.Btier
