import CxxLab.Common.Object
import CxxLab.Lib.SortedList

/-!
# Listing a collection

`BlueStore::collection_list`. The iterator goes through the keys of `PREFIX_OBJ` in the order of
their bytes, while the listing stops, skips and continues by `operator<` of the objects. The two
orders agree on many objects and not on all of them: a byte from 128 on is escaped as if it came
before the letters, the shard 255 comes before the shard 0, and a key before its own name. And an
object with a name whose escaped form has 2 GiB or more is skipped: `key_decode_object` refuses its
key.

One page is a prefix of the objects that the iterator meets, less those before `start`
(`walk_eq`). The pages together are then a function of that list alone (`listAll_eq`), and this
function returns the list itself exactly when it is ascending.
-/

namespace CxxLab.Bluestore

open Common Common.GhObject

/-- `key_encode_extent_shard`. -/
def keyEncodeExtentShard (onodeKey : Str) (offset : UInt32) : Str :=
  onodeKey ++ keyEncodeU32 offset ++ [extentShardKeySuffix]

/-- The keys of `PREFIX_OBJ`. -/
structure ObjectKeys where
  /-- The keys, in the order of their bytes. -/
  keys : SortedList Str.nums
  /-- Each is the key of an object, or of a shard of its extent map. -/
  wf : ∀ k ∈ keys.toList, ∃ o : GhObject, o.Storable ∧
    (k = keyEncodeObject o ∨ ∃ offset, k = keyEncodeExtentShard (keyEncodeObject o) offset)

/-- The stored objects of a collection. -/
def ObjectKeys.Mem (db : ObjectKeys) (c : UInt64) (o : GhObject) : Prop :=
  o.Storable ∧ keyEncodeObject o ∈ db.keys.toList ∧ o.pool = c.toInt64

/-- The keys within `IteratorBounds`. -/
def inBounds (start «end» : GhObject) (k : Str) : Bool :=
  (keyEncodeObject start).nums ≤ k.nums ∧ («end».max = true ∨ k.nums < (keyEncodeObject «end»).nums)

/-- The loop of `collection_list`: what is appended to `ls`, and `next`. -/
def walk (c : UInt64) (start «end» : GhObject) (max : ℤ) : ℕ → List Str → List GhObject × GhObject
  | _, [] => ([], getMax)
  | count, key :: it =>
    if key.getLast? = some extentShardKeySuffix then walk c start «end» max count it
    else match keyDecodeObject key with
      | .error _ => walk c start «end» max count it
      | .ok oid =>
        if oid.pool ≠ c.toInt64 then walk c start «end» max count it
        else if oid.ge «end» then ([], getMax)
        else if oid.lt start then walk c start «end» max count it
        else if count ≥ max then ([], oid)
        else
          let r := walk c start «end» max (count + 1) it
          (oid :: r.1, r.2)

/-- `collection_list`: what is appended to `ls`, and `next` when it is set. `c` is the id of the
collection, if there is one. -/
def collectionList (db : ObjectKeys) (c : Option UInt64) (start «end» : GhObject) (max : ℤ) :
    Except ℤ (List GhObject × Option GhObject) :=
  match c with
  | none => .error (-2)
  | some c =>
    if max ≤ 0 then .ok ([], none)
    else
      let r := walk c start «end» max 0 (db.keys.toList.filter (inBounds start «end»))
      .ok (r.1, some r.2)

/-- Calls `collection_list` until `next` is behind all objects, at most `fuel` times. -/
def listAll (db : ObjectKeys) (c : Option UInt64) («end» : GhObject) (max : ℤ) :
    ℕ → GhObject → Option (List GhObject)
  | 0, _ => none
  | fuel + 1, start =>
    match collectionList db c start «end» max with
    | .ok (ls, some next) =>
      if next.max then some ls else (listAll db c «end» max fuel next).map (ls ++ ·)
    | _ => none

/-! ## One page -/

/-- The object that the loop looks at, if the key is one of the collection. -/
def entry (c : UInt64) (key : Str) : Option GhObject :=
  if key.getLast? = some extentShardKeySuffix then none
  else match keyDecodeObject key with
    | .error _ => none
    | .ok oid => if oid.pool ≠ c.toInt64 then none else some oid

/-- The objects that the listing meets, in the order in which it does, if there were no `max`. -/
def met (c : UInt64) (start «end» : GhObject) (it : List Str) : List GhObject :=
  ((it.filterMap (entry c)).takeWhile (·.lt «end»)).filter (!·.lt start)

/-- One step of the loop. -/
theorem walk_cons (c : UInt64) (start «end» : GhObject) (max : ℤ) (count : ℕ) (key : Str)
    (it : List Str) : walk c start «end» max count (key :: it) =
      match entry c key with
      | none => walk c start «end» max count it
      | some oid =>
        if oid.ge «end» then ([], getMax)
        else if oid.lt start then walk c start «end» max count it
        else if count ≥ max then ([], oid)
        else (oid :: (walk c start «end» max (count + 1) it).1,
          (walk c start «end» max (count + 1) it).2) := by
  rw [walk, entry]
  by_cases hx : key.getLast? = some extentShardKeySuffix
  · rw [if_pos hx, if_pos hx]
  · rw [if_neg hx, if_neg hx]
    cases keyDecodeObject key with
    | error => rfl
    | ok oid =>
      dsimp only
      by_cases hp : oid.pool = c.toInt64
      · simp only [hp, ne_eq, not_true_eq_false, if_false]
      · simp only [hp, ne_eq, not_false_eq_true, if_true]

/-- A page is a prefix of what the listing meets, and continues behind it. -/
theorem walk_eq (c : UInt64) (start «end» : GhObject) (max count : ℕ) (it : List Str) :
    walk c start «end» max count it =
      ((met c start «end» it).take (max - count),
        ((met c start «end» it)[max - count]?).getD getMax) := by
  unfold met
  induction it generalizing count with
  | nil => simp [walk]
  | cons key it ih =>
    rw [walk_cons, List.filterMap_cons]
    cases entry c key with
    | none => exact ih count
    | some oid =>
      dsimp only
      by_cases hend : oid.lt «end» = true
      · rw [if_neg (by simp [ge, hend]), List.takeWhile_cons_of_pos (p := fun o : GhObject => o.lt «end») hend]
        by_cases hlt : oid.lt start = true
        · rw [if_pos hlt, ih, List.filter_cons_of_neg (by simp [hlt])]
        · rw [if_neg hlt, List.filter_cons_of_pos (by simp [hlt])]
          by_cases hcount : max ≤ count
          · rw [if_pos (by exact_mod_cast hcount), Nat.sub_eq_zero_of_le hcount]
            rfl
          · obtain ⟨n, hn⟩ : ∃ n, max - count = n + 1 := ⟨max - count - 1, by omega⟩
            have hn' : max - (count + 1) = n := by omega
            rw [if_neg (by exact_mod_cast hcount), ih, hn, hn']
            rfl
      · rw [if_pos (by simp [ge, hend]), List.takeWhile_cons_of_neg (p := fun o : GhObject => o.lt «end») hend]
        simp

/-! ## All pages -/

/-- What the pages of a listing return, from what the first of them meets: each goes on at the
object behind the page, and skips the objects before it. -/
def pages {α : Type*} (lt : α → α → Bool) (max : ℕ) : ℕ → List α → Option (List α)
  | 0, _ => none
  | fuel + 1, l =>
    match l.drop max with
    | [] => some (l.take max)
    | a :: r => (pages lt max fuel ((a :: r).filter (!lt · a))).map (l.take max ++ ·)

/-- The pages return no object that the first did not meet, and in the same order. -/
theorem pages_sublist {α : Type*} {lt : α → α → Bool} {max fuel : ℕ} {l r : List α}
    (h : pages lt max fuel l = some r) : r.Sublist l := by
  induction fuel generalizing l r with
  | zero => simp [pages] at h
  | succ fuel ih =>
    unfold pages at h
    cases hd : l.drop max with
    | nil =>
      rw [hd] at h
      rw [← Option.some.inj h]
      exact List.take_sublist max l
    | cons a s =>
      rw [hd] at h
      obtain ⟨t, ht, rfl⟩ := Option.map_eq_some_iff.mp h
      have hsub : t.Sublist (l.drop max) := by
        rw [hd]
        exact (ih ht).trans List.filter_sublist
      have happ := hsub.append_left (l.take max)
      rwa [List.take_append_drop] at happ

/-- An ascending list is returned as a whole. -/
theorem pages_of_ascending {α : Type*} {lt : α → α → Bool} (hlt : ∀ a b, lt a b → ¬lt b a)
    {max fuel : ℕ} {l : List α} (hmax : 0 < max) (hfuel : l.length < fuel)
    (h : l.Pairwise fun a b => lt a b) : pages lt max fuel l = some l := by
  induction fuel generalizing l with
  | zero => omega
  | succ fuel ih =>
    unfold pages
    cases hd : l.drop max with
    | nil => rw [List.take_of_length_le (List.drop_eq_nil_iff.mp hd)]
    | cons a r =>
      have hr : (a :: r).Pairwise fun a b => lt a b := hd ▸ h.drop
      have hall : (a :: r).filter (!lt · a) = a :: r := by
        refine List.filter_eq_self.mpr fun b hb => ?_
        rcases List.mem_cons.mp hb with rfl | hb
        · simpa using fun hbb => hlt b b hbb hbb
        · simpa using hlt a b ((List.pairwise_cons.mp hr).1 b hb)
      have hlen : (a :: r).length = l.length - max := by rw [← hd, List.length_drop]
      have hpos : 0 < (a :: r).length := by simp
      dsimp only
      rw [hall, ih (by omega) hr, Option.map_some, ← hd, List.take_append_drop]

/-! ## The objects behind the keys -/

/-- The key of an object ends with its suffix. -/
theorem getLast?_keyEncodeObject (o : GhObject) :
    (keyEncodeObject o).getLast? = some onodeKeySuffix := by
  simp [keyEncodeObject]

/-- The loop sees an object under its key, if its names are short and it is one of the collection. -/
theorem entry_keyEncodeObject_iff {o o' : GhObject} (h : o.Storable) {c : UInt64} :
    entry c (keyEncodeObject o) = some o' ↔ (o.Short ∧ o' = o) ∧ o.pool = c.toInt64 := by
  unfold entry
  rw [getLast?_keyEncodeObject, if_neg (by decide), ← keyDecodeObject_keyEncodeObject_iff h]
  cases hd : keyDecodeObject (keyEncodeObject o) with
  | error => simp
  | ok oid =>
    obtain ⟨-, rfl⟩ := (keyDecodeObject_keyEncodeObject_iff h).mp hd
    simp [and_comm]

/-- What the loop sees under a stored key is the object with that key. -/
theorem entry_some {db : ObjectKeys} {c : UInt64} {k : Str} (hk : k ∈ db.keys.toList)
    {o : GhObject} (h : entry c k = some o) : o.Storable ∧ o.Short ∧ k = keyEncodeObject o ∧
      o.pool = c.toInt64 := by
  obtain ⟨o', hs, rfl | ⟨offset, rfl⟩⟩ := db.wf k hk
  · obtain ⟨⟨hshort, rfl⟩, hp⟩ := (entry_keyEncodeObject_iff hs).mp h
    exact ⟨hs, hshort, rfl, hp⟩
  · unfold entry at h
    rw [if_pos (by simp [keyEncodeExtentShard])] at h
    simp at h

/-- The objects of the collection that the loop sees, in the order of their keys. -/
def ObjectKeys.objects (db : ObjectKeys) (c : UInt64) : List GhObject :=
  db.keys.toList.filterMap (entry c)

/-- The objects that the listing decodes are those whose names it can read. -/
theorem ObjectKeys.mem_objects {db : ObjectKeys} {c : UInt64} {o : GhObject} :
    o ∈ db.objects c ↔ db.Mem c o ∧ o.Short := by
  unfold ObjectKeys.objects
  rw [List.mem_filterMap]
  constructor
  · rintro ⟨k, hk, h⟩
    obtain ⟨hs, hshort, rfl, hp⟩ := entry_some hk h
    exact ⟨⟨hs, hk, hp⟩, hshort⟩
  · rintro ⟨⟨hs, hk, hp⟩, hshort⟩
    exact ⟨_, hk, (entry_keyEncodeObject_iff hs).mpr ⟨⟨hshort, rfl⟩, hp⟩⟩

/-- Where an object is in the order of the keys. -/
def keyNums (o : GhObject) : List ℕ := (keyEncodeObject o).nums

/-- They come in the order of their keys. -/
theorem ObjectKeys.objects_sorted (db : ObjectKeys) (c : UInt64) :
    (db.objects c).Pairwise fun a b => keyNums a < keyNums b := by
  unfold ObjectKeys.objects
  rw [List.pairwise_filterMap]
  refine db.keys.sorted.imp_of_mem fun {k k'} hk hk' h o ho o' ho' => ?_
  obtain ⟨-, -, rfl, -⟩ := entry_some hk ho
  obtain ⟨-, -, rfl, -⟩ := entry_some hk' ho'
  exact h

/-- What the iterator goes through are the objects with their keys in the bounds. -/
theorem filterMap_entry (db : ObjectKeys) (c : UInt64) (start «end» : GhObject) :
    (db.keys.toList.filter (inBounds start «end»)).filterMap (entry c) =
      (db.objects c).filter (inBounds start «end» <| keyEncodeObject ·) := by
  unfold ObjectKeys.objects
  rw [List.filterMap_filter, List.filter_filterMap]
  refine List.filterMap_congr fun k hk => ?_
  cases he : entry c k with
  | none => simp
  | some o =>
    obtain ⟨-, -, rfl, -⟩ := entry_some hk he
    simp [Option.filter]

/-- What a listing from `start` meets. -/
def ObjectKeys.met (db : ObjectKeys) (c : UInt64) (start «end» : GhObject) : List GhObject :=
  Bluestore.met c start «end» (db.keys.toList.filter (inBounds start «end»))

/-- The objects that the listing meets come in the order of their keys. -/
theorem ObjectKeys.met_sorted (db : ObjectKeys) (c : UInt64) (start «end» : GhObject) :
    (db.met c start «end»).Pairwise fun a b => keyNums a < keyNums b := by
  unfold ObjectKeys.met Bluestore.met
  rw [filterMap_entry]
  exact (((db.objects_sorted c).filter _).sublist (List.takeWhile_sublist _)).filter _

/-- An object is met if it is in the range, its names are short, its key is in the bounds, and the
listing has not stopped before it. -/
theorem ObjectKeys.mem_met {db : ObjectKeys} {c : UInt64} {start «end» o : GhObject} :
    o ∈ db.met c start «end» ↔ (db.Mem c o ∧ o.lt start = false ∧ o.lt «end» = true) ∧
      o.Short ∧ inBounds start «end» (keyEncodeObject o) = true ∧
      ∀ o', db.Mem c o' → o'.Short → inBounds start «end» (keyEncodeObject o') = true →
        keyNums o' ≤ keyNums o → o'.lt «end» = true := by
  unfold ObjectKeys.met Bluestore.met
  rw [filterMap_entry, List.mem_filter,
    mem_takeWhile_of_sorted ((db.objects_sorted c).filter _)]
  simp only [List.mem_filter, mem_objects, Bool.not_eq_true', and_imp]
  constructor
  · rintro ⟨⟨⟨⟨hm, hshort⟩, hb⟩, hall⟩, hs⟩
    exact ⟨⟨hm, hs, hall o hm hshort hb le_rfl⟩, hshort, hb, hall⟩
  · rintro ⟨⟨hm, hs, -⟩, hshort, hb, hall⟩
    exact ⟨⟨⟨⟨hm, hshort⟩, hb⟩, hall⟩, hs⟩

/-- The bounds of a later page. -/
theorem inBounds_next {start «end» next : GhObject} {k : Str}
    (h : (keyEncodeObject start).nums ≤ (keyEncodeObject next).nums) :
    inBounds next «end» k = (inBounds start «end» k && decide ((keyEncodeObject next).nums ≤ k.nums)) := by
  unfold inBounds
  rw [Bool.eq_iff_iff]
  simp only [decide_eq_true_eq, Bool.and_eq_true]
  constructor
  · rintro ⟨hle, hup⟩
    exact ⟨⟨h.trans hle, hup⟩, hle⟩
  · rintro ⟨⟨-, hup⟩, hle⟩
    exact ⟨hle, hup⟩

/-- What the listing meets when it continues at an object that it has met. -/
theorem ObjectKeys.met_next {db : ObjectKeys} {c : UInt64} {start «end» next : GhObject} {n : ℕ}
    {r : List GhObject} (h : (db.met c start «end»).drop n = next :: r) :
    db.met c next «end» = ((db.met c start «end»).drop n).filter (!·.lt next) := by
  have hmem : next ∈ db.met c start «end» := by
    refine List.mem_of_mem_drop (i := n) ?_
    rw [h]
    exact List.mem_cons_self
  rw [← filter_eq_drop_of_sorted (db.met_sorted c start «end») h]
  obtain ⟨⟨-, hs, -⟩, -, hb, -⟩ := ObjectKeys.mem_met.mp hmem
  have hle : (keyEncodeObject start).nums ≤ (keyEncodeObject next).nums := by
    unfold inBounds at hb
    exact (of_decide_eq_true hb).1
  have hobj : (db.objects c).filter (inBounds next «end» <| keyEncodeObject ·) =
      ((db.objects c).filter (inBounds start «end» <| keyEncodeObject ·)).filter
        (keyNums next ≤ keyNums ·) := by
    rw [List.filter_filter]
    refine List.filter_congr fun o _ => ?_
    rw [inBounds_next hle, Bool.and_comm]
    rfl
  unfold ObjectKeys.met Bluestore.met at hmem ⊢
  rw [filterMap_entry] at hmem ⊢
  rw [filterMap_entry, hobj, takeWhile_filter_of_sorted ((db.objects_sorted c).filter _)
    (List.mem_filter.mp hmem).1]
  simp only [List.filter_filter]
  -- What is not before `next` is not before `start` either.
  refine List.filter_congr fun o _ => ?_
  have htrans : o.lt next = false → o.lt start = false := by
    rw [Bool.eq_false_iff, Bool.eq_false_iff, ne_eq, ne_eq, lt_iff, lt_iff, not_lt, not_lt]
    rw [Bool.eq_false_iff, ne_eq, lt_iff, not_lt] at hs
    exact hs.trans
  cases ho : o.lt next with
  | false => simp [htrans ho]
  | true => simp

/-- The pages are a function of what the first of them meets. -/
theorem listAll_eq (db : ObjectKeys) (c : UInt64) (start «end» : GhObject) {max : ℕ}
    (hmax : 0 < max) (fuel : ℕ) : listAll db (some c) «end» max fuel start =
      pages GhObject.lt max fuel (db.met c start «end») := by
  induction fuel generalizing start with
  | zero => rfl
  | succ fuel ih =>
    unfold listAll pages collectionList
    have hpos : ¬(max : ℤ) ≤ 0 := by omega
    simp only [if_neg hpos, walk_eq, Nat.sub_zero]
    rw [← ObjectKeys.met]
    cases hd : (db.met c start «end»).drop max with
    | nil =>
      rw [List.getElem?_eq_none (List.drop_eq_nil_iff.mp hd)]
      rfl
    | cons next r =>
      have hnext : (db.met c start «end»)[max]? = some next := by
        rw [← List.head?_drop, hd]
        rfl
      have hmem : next ∈ db.met c start «end» := List.mem_of_getElem? hnext
      have hreal : next.max = false := (ObjectKeys.mem_met.mp hmem).1.1.1.max
      rw [hnext, Option.getD_some, hreal, if_neg (by simp), ih, ObjectKeys.met_next hd, hd]

/-! ## What the listing returns -/

/-- The objects of the collection from `start` on and before `end`. -/
def ObjectKeys.InRange (db : ObjectKeys) (c : UInt64) (start «end» o : GhObject) : Prop :=
  db.Mem c o ∧ o.lt start = false ∧ o.lt «end» = true

/-- The repeated calls come to an end and return the objects of the range, each once and in
ascending order, and no others. -/
def ListsRange (db : ObjectKeys) (c : UInt64) (start «end» : GhObject) (max : ℤ) : Prop :=
  ∃ fuel ls, listAll db (some c) «end» max fuel start = some ls ∧
    (ls.Pairwise fun a b => a.lt b = true) ∧ ∀ o, o ∈ ls ↔ db.InRange c start «end» o

/-- The order of the keys agrees with the order of the objects, as far as the range goes, and the keys
of the range can be read. -/
structure OrdersAgree (db : ObjectKeys) (c : UInt64) (start «end» : GhObject) : Prop where
  /-- Two objects of the range are in the order of their keys. -/
  lt : ∀ a b, db.InRange c start «end» a → db.InRange c start «end» b →
    (keyEncodeObject a).nums < (keyEncodeObject b).nums → a.lt b = true
  /-- The keys of the range are within the bounds of the iterator. -/
  bounds : ∀ o, db.InRange c start «end» o → inBounds start «end» (keyEncodeObject o) = true
  /-- No object from `end` on that is seen has a key within the bounds and before one of the range. -/
  stop : ∀ a b, db.InRange c start «end» a → db.Mem c b → b.Short → b.lt «end» = false →
    inBounds start «end» (keyEncodeObject b) = true →
    (keyEncodeObject a).nums < (keyEncodeObject b).nums
  /-- The names of the objects of the range fit the `int` of `decode_escaped`. -/
  short : ∀ o, db.InRange c start «end» o → o.Short

/-- Where the orders agree, the listing meets the range. -/
theorem OrdersAgree.mem_met {db : ObjectKeys} {c : UInt64} {start «end» : GhObject}
    (h : OrdersAgree db c start «end») (o : GhObject) :
    o ∈ db.met c start «end» ↔ db.InRange c start «end» o := by
  rw [ObjectKeys.mem_met]
  constructor
  · exact fun ho => ho.1
  · refine fun ho => ⟨ho, h.short o ho, h.bounds o ho, fun o' hm hshort hb hle => ?_⟩
    by_contra hend
    exact absurd (h.stop o o' ho hm hshort (Bool.eq_false_iff.mpr hend) hb) (not_lt_of_ge hle)

/-- What the listing meets ascends. -/
theorem OrdersAgree.ascending {db : ObjectKeys} {c : UInt64} {start «end» : GhObject}
    (h : OrdersAgree db c start «end») :
    (db.met c start «end»).Pairwise fun a b => a.lt b = true :=
  (db.met_sorted c start «end»).imp_of_mem fun ha hb hlt =>
    h.lt _ _ ((h.mem_met _).mp ha) ((h.mem_met _).mp hb) hlt

/-- No two objects are each before the other. -/
theorem lt_asymm_objects (a b : GhObject) (h : a.lt b = true) : ¬b.lt a = true := by
  rw [lt_iff] at h ⊢
  exact h.asymm

/-- Two elements of a list that ascends in two orders compare the same way in both. -/
theorem lt_of_keyNums_lt {ls : List GhObject} (hk : ls.Pairwise fun a b => keyNums a < keyNums b)
    (ha : ls.Pairwise fun a b => a.lt b = true) {a b : GhObject} (hma : a ∈ ls) (hmb : b ∈ ls)
    (h : keyNums a < keyNums b) : a.lt b = true := by
  have hafter : ls.Pairwise fun a b => keyNums a < keyNums b → a.lt b = true :=
    ha.imp (S := fun a b => keyNums a < keyNums b → a.lt b = true) fun h _ => h
  have hbefore : ls.Pairwise fun a b => keyNums b < keyNums a → b.lt a = true :=
    hk.imp fun {_ _} h h' => absurd h' h.asymm
  exact List.Pairwise.forall_of_forall_of_flip (fun _ _ h => absurd h (lt_irrefl _)) hafter hbefore
    hma hmb h

/-- A listing that returns the range has met it in ascending order. -/
theorem ListsRange.ordersAgree {db : ObjectKeys} {c : UInt64} {start «end» : GhObject} {max : ℕ}
    (hmax : 0 < max) (h : ListsRange db c start «end» max) : OrdersAgree db c start «end» := by
  obtain ⟨fuel, ls, hall, hasc, hmem⟩ := h
  rw [listAll_eq db c start «end» hmax] at hall
  have hsub := pages_sublist hall
  have hmet : ∀ o, db.InRange c start «end» o → o ∈ db.met c start «end» :=
    fun o ho => hsub.subset ((hmem o).mpr ho)
  constructor
  · intro a b ha hb
    exact lt_of_keyNums_lt ((db.met_sorted c start «end»).sublist hsub) hasc ((hmem a).mpr ha)
      ((hmem b).mpr hb)
  · exact fun o ho => (ObjectKeys.mem_met.mp (hmet o ho)).2.2.1
  · intro a b ha hm hshort hend hb
    by_contra hle
    have hlt := (ObjectKeys.mem_met.mp (hmet a ha)).2.2.2 b hm hshort hb (not_lt.mp hle)
    rw [hend] at hlt
    exact Bool.false_ne_true hlt
  · exact fun o ho => (ObjectKeys.mem_met.mp (hmet o ho)).2.1

/-- For every set of stored objects, every range and every `max`, the listing returns the range
exactly when the orders of the keys and of the objects agree on it and its keys can be read. -/
theorem listsRange_iff_ordersAgree (db : ObjectKeys) (c : UInt64) (start «end» : GhObject) (max : ℤ)
    (hmax : 0 < max) : ListsRange db c start «end» max ↔ OrdersAgree db c start «end» := by
  obtain ⟨n, rfl⟩ := Int.eq_ofNat_of_zero_le hmax.le
  have hn : 0 < n := by exact_mod_cast hmax
  constructor
  · exact ListsRange.ordersAgree hn
  · intro h
    refine ⟨(db.met c start «end»).length + 1, db.met c start «end», ?_, h.ascending, h.mem_met⟩
    rw [listAll_eq db c start «end» hn]
    exact pages_of_ascending lt_asymm_objects hn (Nat.lt_succ_self _) h.ascending

/-- The keys of the given objects. -/
def ObjectKeys.ofObjects (os : List GhObject) (h : ∀ o ∈ os, o.Storable) : ObjectKeys where
  keys := SortedList.ofList Str.nums (os.map keyEncodeObject)
  wf k hk := by
    obtain ⟨o, ho, rfl⟩ := List.mem_map.mp (SortedList.mem_of_mem_ofList hk)
    exact ⟨o, h o ho, .inl rfl⟩

/-- An object of pool 1 that is named by the given bytes. -/
def named (oid : Str) : GhObject := { pool := 1, oid := oid }

/-- The objects "a" and "ab" of one collection. -/
def plain : ObjectKeys := .ofObjects [named [0x61], named [0x61, 0x62]] (by decide)

/-- Their listing with one object a page returns them both. -/
theorem listsRange_plain : ListsRange plain 1 (named []) getMax 1 := by
  refine (listsRange_iff_ordersAgree plain 1 (named []) getMax 1 (by decide)).mpr ?_
  have hmem : ∀ o, plain.Mem 1 o → o = named [0x61] ∨ o = named [0x61, 0x62] := by
    rintro o ⟨hs, hk, -⟩
    have hkeys : plain.keys.toList =
        [keyEncodeObject (named [0x61]), keyEncodeObject (named [0x61, 0x62])] := by decide +kernel
    rw [hkeys, List.mem_cons, List.mem_singleton] at hk
    exact hk.imp (keyEncodeObject_inj hs (by decide)) (keyEncodeObject_inj hs (by decide))
  constructor
  · intro a b ha hb
    rcases hmem a ha.1 with rfl | rfl <;> rcases hmem b hb.1 with rfl | rfl <;> decide +kernel
  · intro o ho
    rcases hmem o ho.1 with rfl | rfl <;> decide +kernel
  · intro a b _ hb _ hend
    rcases hmem b hb with rfl | rfl <;> exact absurd hend (by decide +kernel)
  · intro o ho
    rcases hmem o ho.1 with rfl | rfl <;> decide +kernel

/-- The objects "a", "ab" and "a\xe9" of one collection. -/
def latin : ObjectKeys :=
  .ofObjects [named [0x61], named [0x61, 0x62], named [0x61, 0xe9]] (by decide)

/-- The listing with one object a page goes from "a" to "a\xe9", and "ab" is lost. -/
theorem not_listsRange_latin : ¬ListsRange latin 1 (named []) getMax 1 := by
  intro h
  have hrange : latin.InRange 1 (named []) getMax (named [0x61, 0xe9]) ∧
      latin.InRange 1 (named []) getMax (named [0x61, 0x62]) := by
    unfold ObjectKeys.InRange ObjectKeys.Mem
    decide +kernel
  have hlt := (@ListsRange.ordersAgree latin 1 (named []) getMax 1 Nat.one_pos h).lt _ _ hrange.1 hrange.2
    (by decide +kernel)
  exact absurd hlt (by decide +kernel)

end CxxLab.Bluestore
