import CxxLab.Bluestore.BufferCache

/-!
# Runs of the buffer cache

What holds after any calls on the spaces that share a cache. `Follows` is what the calls that bring
no buffer have in common, `Placed` is about the two that bring one, and `Does` about a call of
either kind. The counter runs ahead of the buffers: `_discard` shortens a buffer without telling it.
-/

namespace CxxLab.Bluestore

namespace BufferCache

variable {σ : Type} [DecidableEq σ] {c c' c'' : BufferCache σ} {s : σ} {b b' : Buffer} {n : ℕ}

/-! ## What follows from a state -/

/-- The state `c'` comes from `c` without new buffers: the counter gets `k` bytes more than the
buffers, and the buffers with the property `kept` are there as before. -/
structure Follows (kept : σ → Buffer → Prop) (k : ℕ) (c c' : BufferCache σ) : Prop where
  /-- The lists are right. -/
  sound : Sound c'
  /-- The counter. -/
  counts : ∀ n, c.Counts n → c'.Counts (n + k)
  /-- A buffer was there, with the same bytes at the same place. -/
  has : ∀ s b', c'.Has s b' → ∃ b, c.Has s b ∧ b'.offset = b.offset ∧ b'.data = b.data ∧
    b'.length ≤ b.length
  /-- The buffers that stay. -/
  kept : ∀ s b, kept s b → c.Has s b → c'.Has s b

variable {kept kept' : σ → Buffer → Prop} {k k' : ℕ}

namespace Follows

omit [DecidableEq σ] in
/-- Nothing has happened. -/
theorem refl (h : Sound c) : Follows kept 0 c c :=
  ⟨h, fun _ h => h, fun _ b hb => ⟨b, hb, rfl, rfl, le_rfl⟩, fun _ _ _ hb => hb⟩

omit [DecidableEq σ] in
/-- One thing after another. -/
theorem trans (h : Follows kept k c c') (h' : Follows kept k' c' c'') :
    Follows kept (k + k') c c'' where
  sound := h'.sound
  counts n hn := by
    rw [← Nat.add_assoc]
    exact h'.counts _ (h.counts n hn)
  has s b'' hb'' := by
    obtain ⟨b', hb', hoff', hdata', hlen'⟩ := h'.has s b'' hb''
    obtain ⟨b, hb, hoff, hdata, hlen⟩ := h.has s b' hb'
    exact ⟨b, hb, hoff'.trans hoff, hdata'.trans hdata, hlen'.trans hlen⟩
  kept s b hk hb := h'.kept s b hk (h.kept s b hk hb)

omit [DecidableEq σ] in
/-- What keeps many buffers keeps few. -/
theorem mono (h : Follows kept k c c') (hk : ∀ s b, kept' s b → kept s b) :
    Follows kept' k c c' :=
  ⟨h.sound, h.counts, h.has, fun s b hkept => h.kept s b (hk s b hkept)⟩

/-- A space that shrinks. -/
theorem of_shrunk (h : Sound c) {f : Buffer → Option Buffer} (hf : Shrinks f)
    (hc : Shrunk f s c c') (hkept : ∀ b, kept s b → c.Has s b → f b = some b) :
    Follows kept (lost f (c.spaces s).buffers.toList) c c' where
  sound := h.shrunk hf hc
  counts n hn := hn.shrunk h hf hc
  has t b' hb' := by
    by_cases ht : t = s
    · subst ht
      obtain ⟨b, hb, hfb⟩ := (hc.has b').mp hb'
      exact ⟨b, hb, hf.offset b b' hfb, hf.data b b' hfb,
        (hf.length b b' ((h.good t).fits b hb).1 hfb).2⟩
    · exact ⟨b', by rwa [Has, ← hc.spaces t ht], rfl, rfl, le_rfl⟩
  kept t b hk hb := by
    by_cases ht : t = s
    · subst ht
      exact (hc.has b).mpr ⟨b, hb, hkept b hk hb⟩
    · rwa [Has, hc.spaces t ht]

omit [DecidableEq σ] in
/-- The list in another order. -/
theorem of_perm (h : Sound c) (hspaces : c'.spaces = c.spaces) (hlru : c'.lru.Perm c.lru)
    (hcur : c'.curBytes = c.curBytes) : Follows kept 0 c c' where
  sound := ⟨by rw [hspaces]; exact h.good, hlru.nodup_iff.mpr h.nodup,
    fun s off => by rw [hlru.mem_iff, h.mem_lru]; simp only [Has, hspaces]⟩
  counts n hn := by
    have hbytes : c'.bytes = c.bytes := by
      rw [bytes, (hlru.map _).sum_eq]
      simp only [find, hspaces]
      rfl
    rw [Counts, hbytes, hcur]
    exact hn
  has s b hb := ⟨b, by rwa [Has, ← hspaces], rfl, rfl, le_rfl⟩
  kept s b _ hb := by rwa [Has, hspaces]

end Follows

/-- Nothing is lost when the buffers that stay keep their length. -/
theorem lost_eq_zero {f : Buffer → Option Buffer} (h : ∀ b b', f b = some b' → b'.length = b.length)
    (bs : List Buffer) : lost f bs = 0 := by
  refine List.sum_eq_zero fun k hk => ?_
  obtain ⟨b, -, rfl⟩ := List.mem_map.mp hk
  cases hb : f b with
  | none => rfl
  | some b' =>
    rw [Option.elim_some, h b b' hb]
    exact Nat.sub_self _

/-- Dropping a whole buffer loses none of its bytes to the count. -/
theorem lost_dropAt (off : ℕ) (bs : List Buffer) : lost (dropAt off) bs = 0 :=
  lost_eq_zero (fun b b' h => by
    unfold dropAt at h
    split_ifs at h
    rw [Option.some.inj h]) bs

/-- Making a buffer clean loses no bytes. -/
theorem lost_cleanAt (off : ℕ) (bs : List Buffer) : lost (cleanAt off) bs = 0 :=
  lost_eq_zero (fun b b' h => by
    rw [← Option.some.inj h]
    split_ifs <;> rfl) bs

/-- A buffer goes. -/
theorem Follows.drop (h : Sound c) (hb : c.Has s b) {w : List ℕ}
    (hw : ∀ off, off ∈ w ↔ off ∈ (c.spaces s).writing ∧ off ≠ b.offset) (hnodup : w.Nodup)
    (hkept : ¬kept s b) : Follows kept 0 c
      ((c.setSpace s
        { buffers := (c.spaces s).buffers.remove b.offset, writing := w }).rm s b) := by
  rw [← lost_dropAt b.offset (c.spaces s).buffers.toList]
  refine Follows.of_shrunk h (shrinks_dropAt _) (dropped_shrunk h hb hw hnodup) fun a ha hhas => ?_
  rw [dropAt, if_neg]
  intro hoff
  exact hkept (SortedList.eq_of_key_eq hhas hb hoff ▸ ha)

/-! ## The loop of `trim` -/

omit [DecidableEq σ] in
/-- A clean buffer is not in `writing_`. -/
theorem Sound.not_writing (h : Sound c) (hb : c.Has s b) (hclean : b.writing = false) :
    b.offset ∉ (c.spaces s).writing := by
  intro hin
  obtain ⟨a, ha, hoff, hw⟩ := ((h.good s).mem_writing _).mp hin
  obtain rfl := SortedList.eq_of_key_eq ha hb hoff
  rw [hclean] at hw
  cases hw

/-- The state after a clean buffer is dropped from the back. -/
def evicted (c : BufferCache σ) (p : σ × ℕ) (b : Buffer) : BufferCache σ :=
  { c.setSpace p.1 { c.spaces p.1 with buffers := (c.spaces p.1).buffers.remove p.2 } with
    lru := c.lru.dropLast
    curBytes := c.curBytes - UInt64.ofNat b.length }

/-- Evicting the last buffer, which is clean, keeps those that are being written. -/
theorem evicted_follows (h : Sound c) {p : σ × ℕ} (hp : c.lru.getLast? = some p)
    (hb : c.find p = some b) (hclean : b.writing = false) :
    Follows (fun _ b => b.writing = true) 0 c (c.evicted p b) := by
  obtain ⟨s, off⟩ := p
  obtain ⟨hb, rfl⟩ := find_eq_some_iff.mp hb
  have hnot := h.not_writing hb hclean
  have hdrop : Follows (fun _ b => b.writing = true) 0 c _ := Follows.drop h hb
    (w := (c.spaces s).writing)
    (fun off => ⟨fun hin => ⟨hin, fun heq => hnot (heq ▸ hin)⟩, And.left⟩) (h.good s).nodup
    (by simp [hclean])
  have heq : c.evicted (s, b.offset) b = ((c.setSpace s
      { buffers := (c.spaces s).buffers.remove b.offset
        writing := (c.spaces s).writing }).rm s b) := by
    rw [evicted, rm, ← erase_getLast h.nodup hp]
    rfl
  rw [heq]
  exact hdrop

/-- The state after a buffer that is written was skipped. -/
def skipped (c : BufferCache σ) (p : σ × ℕ) : BufferCache σ := { c with lru := p :: c.lru.dropLast }

omit [DecidableEq σ] in
/-- Moving the last buffer to the front keeps all. -/
theorem skipped_follows (h : Sound c) {p : σ × ℕ} (hp : c.lru.getLast? = some p) :
    Follows kept 0 c (c.skipped p) := by
  obtain ⟨l, hl⟩ := List.getLast?_eq_some_iff.mp hp
  refine Follows.of_perm h rfl ?_ rfl
  rw [skipped, hl, List.dropLast_concat]
  exact (List.perm_append_singleton p l).symm

/-- The rounds of `trim`: it ends, or it drops a clean buffer, or it skips one that is written. -/
theorem trimLoop_succ (h : Sound c) (rounds skip : ℕ) :
    (trimLoop (rounds + 1) skip c = c ∧
      (c.curBytes ≤ c.maxBytes ∨ c.lru.length ≤ skip)) ∨
    ∃ p b, c.lru.getLast? = some p ∧ c.find p = some b ∧ skip < c.lru.length ∧
      ((b.writing = true ∧
          trimLoop (rounds + 1) skip c = trimLoop rounds (skip + 1) (c.skipped p)) ∨
        (b.writing = false ∧
          trimLoop (rounds + 1) skip c = trimLoop rounds 0 (c.evicted p b))) := by
  rw [trimLoop]
  cases hp : c.lru.getLast? with
  | none =>
    rw [List.getLast?_eq_none_iff.mp hp]
    exact .inl ⟨rfl, .inr (Nat.zero_le _)⟩
  | some p =>
    dsimp only
    by_cases hcond : c.maxBytes < c.curBytes ∧ skip < c.lru.length
    · rw [if_pos hcond]
      obtain ⟨b, hb⟩ := h.exists_find (List.mem_of_getLast? hp)
      refine .inr ⟨p, b, rfl, hb, hcond.2, ?_⟩
      rw [hb]
      dsimp only
      cases hw : b.writing with
      | true => exact .inl ⟨rfl, if_pos rfl⟩
      | false => exact .inr ⟨rfl, if_neg (by simp)⟩
    · rw [if_neg hcond]
      refine .inl ⟨rfl, ?_⟩
      rcases not_and_or.mp hcond with hcur | hskip
      · exact .inl (UInt64.not_lt.mp hcur)
      · exact .inr (not_lt.mp hskip)

/-- `trim` drops clean buffers only. -/
theorem trimLoop_follows (h : Sound c) (rounds skip : ℕ) :
    Follows (fun _ b => b.writing = true) 0 c (trimLoop rounds skip c) := by
  induction rounds generalizing c skip with
  | zero => exact Follows.refl h
  | succ rounds ih =>
    obtain ⟨hend, -⟩ | ⟨p, b, hp, hb, -, ⟨-, hloop⟩ | ⟨hclean, hloop⟩⟩ :=
      trimLoop_succ h rounds skip
    · rw [hend]
      exact Follows.refl h
    · rw [hloop]
      have hskip : Follows (fun _ b => b.writing = true) 0 c _ := skipped_follows h hp
      exact hskip.trans (ih hskip.sound _)
    · rw [hloop]
      have hevict := evicted_follows h hp hb hclean
      exact hevict.trans (ih hevict.sound _)

/-- The bytes are within the limit, or no buffer is clean. -/
def Bounded (c : BufferCache σ) : Prop :=
  c.curBytes ≤ c.maxBytes ∨ ∀ s b, c.Has s b → b.writing = true

/-- The loop of `trim` ends by its own condition: those that it has skipped are written. -/
theorem trimLoop_bounded (h : Sound c) {rounds skip : ℕ}
    (hrounds : c.lru.length * c.lru.length + (c.lru.length - skip) < rounds)
    (hskip : ∀ p ∈ c.lru.take skip, ∀ b, c.find p = some b → b.writing = true) :
    (trimLoop rounds skip c).Bounded := by
  induction rounds generalizing c skip with
  | zero => omega
  | succ rounds ih =>
    obtain ⟨hend, hbound⟩ | ⟨p, b, hp, hb, hlt, ⟨hwriting, hloop⟩ | ⟨hclean, hloop⟩⟩ :=
      trimLoop_succ h rounds skip
    · rw [hend]
      refine hbound.imp_right fun hall s b hhas => ?_
      rw [List.take_of_length_le hall] at hskip
      exact hskip _ (h.mem_of_has hhas) b (find_eq_some_iff.mpr ⟨hhas, rfl⟩)
    · rw [hloop]
      obtain ⟨l, hl⟩ := List.getLast?_eq_some_iff.mp hp
      have hlru : (c.skipped p).lru = p :: l := by rw [skipped, hl, List.dropLast_concat]
      rw [hl, List.length_append, List.length_singleton] at hlt hrounds
      have hskipped : Follows (fun _ _ => True) 0 c _ := skipped_follows h hp
      refine ih hskipped.sound ?_ ?_
      · rw [hlru, List.length_cons]
        omega
      · rw [hlru, List.take_succ_cons]
        intro q hq a ha
        rcases List.mem_cons.mp hq with rfl | hq
        · exact Option.some.inj (ha.symm.trans hb) ▸ hwriting
        · refine hskip q ?_ a ha
          rw [hl, List.take_append_of_le_length (by omega)]
          exact hq
    · rw [hloop]
      have hpos : 0 < c.lru.length := by omega
      have hlen : (c.evicted p b).lru.length + 1 = c.lru.length := by
        simp only [evicted, List.length_dropLast]
        omega
      refine ih (evicted_follows h hp hb hclean).sound ?_ (by simp)
      obtain ⟨m, hm⟩ : ∃ m, m = (c.evicted p b).lru.length := ⟨_, rfl⟩
      have hsquare : (m + 1) * (m + 1) = m * m + 2 * m + 1 := by ring
      rw [← hlen, ← hm, hsquare] at hrounds
      rw [← hm]
      omega

/-- `trim` keeps the buffers that are being written. -/
theorem trim_follows (h : Sound c) : Follows (fun _ b => b.writing = true) 0 c c.trim :=
  trimLoop_follows h _ _

/-- After `trim` the limit is kept, or nothing is clean. -/
theorem trim_bounded (h : Sound c) : c.trim.Bounded :=
  trimLoop_bounded h (by omega) (by simp)

/-! ## New buffers -/

/-- A range before or behind another. -/
def Beside (a b : Buffer) : Prop := a.offset + a.length ≤ b.offset ∨ b.offset + b.length ≤ a.offset

/-- A new buffer in a space and in the list. -/
def emplaced (c : BufferCache σ) (s : σ) (b : Buffer) : BufferCache σ :=
  (c.setSpace s
    { buffers := (c.spaces s).buffers.set b
      writing := if b.writing then (c.spaces s).writing ++ [b.offset]
        else (c.spaces s).writing }).add s b

/-- A buffer that is put in is one more. -/
theorem emplaced_has (hfree : ∀ a, c.Has s a → a.offset ≠ b.offset) {t : σ} {a : Buffer} :
    (c.emplaced s b).Has t a ↔ c.Has t a ∨ t = s ∧ a = b := by
  by_cases ht : t = s
  · subst ht
    have hself : (c.emplaced t b).Has t a ↔ a ∈ ((c.spaces t).buffers.set b).toList := by
      simp only [Has, emplaced, add, setSpace, Function.update_self]
    rw [hself, SortedList.mem_set, Has]
    constructor
    · rintro (rfl | ⟨ha, -⟩)
      · exact .inr ⟨rfl, rfl⟩
      · exact .inl ha
    · rintro (ha | ⟨-, rfl⟩)
      · exact .inr ⟨ha, hfree a ha⟩
      · exact .inl rfl
  · have hother : (c.emplaced s b).spaces t = c.spaces t := Function.update_of_ne ht _ _
    simp only [Has, hother, ht, false_and, or_false]

/-- A buffer that is put in beside the others keeps the cache sound. -/
theorem Sound.emplaced (h : Sound c) (hpos : 0 < b.length) (hfits : b.offset + b.length < 2 ^ 32)
    (hdata : b.length ≤ b.data.length) (hfree : ∀ a, c.Has s a → Beside a b) :
    Sound (c.emplaced s b) := by
  -- No buffer begins where this one does, since they would share a byte.
  have hne : ∀ a, c.Has s a → a.offset ≠ b.offset := fun a ha => by
    have := ((h.good s).fits a ha).1
    have := hfree a ha
    unfold Beside at this
    omega
  have hhas : ∀ {t a}, (c.emplaced s b).Has t a ↔ _ := emplaced_has hne
  have hfresh : b.offset ∉ (c.spaces s).writing := fun hin => by
    obtain ⟨a, ha, hoff, -⟩ := ((h.good s).mem_writing _).mp hin
    exact hne a ha hoff
  constructor
  -- The space it is put in has one more buffer, any other is as it was.
  case good =>
    intro t
    by_cases ht : t = s
    · subst ht
      have hgood := h.good t
      have hwriting : ((c.emplaced t b).spaces t).writing =
          if b.writing then (c.spaces t).writing ++ [b.offset] else (c.spaces t).writing := by
        simp only [BufferCache.emplaced, add, setSpace, Function.update_self]
      constructor
      case fits =>
        intro a ha
        rcases hhas.mp ha with ha | ⟨-, rfl⟩
        · exact hgood.fits a ha
        · exact ⟨hpos, hfits, hdata⟩
      case apart =>
        intro a ha d hd hlt
        rcases hhas.mp ha with hold | ⟨-, rfl⟩
        · rcases hhas.mp hd with hold' | ⟨-, rfl⟩
          · exact hgood.apart a hold d hold' hlt
          · exact (hfree a hold).resolve_right (by omega)
        · rcases hhas.mp hd with hold' | ⟨-, rfl⟩
          · have := (hgood.fits d hold').1
            exact (hfree d hold').resolve_left (by omega)
          · omega
      case nodup =>
        rw [hwriting]
        split_ifs
        · exact hgood.nodup.append (List.nodup_singleton _) (by simpa using hfresh)
        · exact hgood.nodup
      case mem_writing =>
        intro off
        have hold := hgood.mem_writing off
        change _ ↔ ∃ a, (c.emplaced t b).Has t a ∧ _
        simp only [hhas, true_and, or_and_right, exists_or, exists_eq_left]
        rw [hwriting]
        change _ ↔ (∃ a ∈ (c.spaces t).buffers.toList, _) ∨ _
        rw [← hold]
        split_ifs with hw
        · simp [hw, eq_comm]
        · simp [hw]
    · have hother : (c.emplaced s b).spaces t = c.spaces t := Function.update_of_ne ht _ _
      rw [hother]
      exact h.good t
  -- It is at the head of the list, which did not have it.
  case nodup =>
    refine List.nodup_cons.mpr ⟨fun hin => ?_, h.nodup⟩
    obtain ⟨a, ha, hoff⟩ := (h.mem_lru s _).mp hin
    exact hne a ha hoff
  case mem_lru =>
    intro t off
    simp only [hhas]
    change (t, off) ∈ (s, b.offset) :: c.lru ↔ _
    rw [List.mem_cons, h.mem_lru, Prod.mk.injEq]
    constructor
    · rintro (⟨rfl, rfl⟩ | ⟨a, ha, hoff⟩)
      · exact ⟨b, .inr ⟨rfl, rfl⟩, rfl⟩
      · exact ⟨a, .inl ha, hoff⟩
    · rintro ⟨a, ha | ⟨rfl, rfl⟩, rfl⟩
      · exact .inr ⟨a, ha, rfl⟩
      · exact .inl ⟨rfl, rfl⟩

/-- A new buffer is counted. -/
theorem Counts.emplaced (hn : c.Counts n) (h : Sound c) (h' : Sound (c.emplaced s b))
    (hfree : ∀ a, c.Has s a → a.offset ≠ b.offset) : (c.emplaced s b).Counts n := by
  have hbytes := h.bytes_add h' fun t ht => Function.update_of_ne ht _ _
  have hspace : (c.emplaced s b).spaceBytes s = b.length + c.spaceBytes s := by
    have hnodup : ∀ {l : SortedList Buffer.offset}, l.toList.Nodup := fun {l} =>
      l.sorted.imp fun hab heq => absurd (congrArg Buffer.offset heq) hab.ne
    have hperm : ((c.emplaced s b).spaces s).buffers.toList.Perm
        (b :: (c.spaces s).buffers.toList) := by
      rw [List.perm_ext_iff_of_nodup hnodup
        (List.nodup_cons.mpr ⟨fun hin => hfree b hin rfl, hnodup⟩)]
      intro a
      rw [List.mem_cons]
      exact (emplaced_has hfree).trans (by simp [Has, or_comm])
    exact (hperm.map _).sum_eq
  have hcur : (c.emplaced s b).curBytes = c.curBytes + UInt64.ofNat b.length := rfl
  have hnat : (c.emplaced s b).bytes + n = c.bytes + n + b.length := by omega
  rw [Counts, hnat, UInt64.ofNat_add, hcur, hn]

/-- `_discard`, and the buffers that it leaves. -/
theorem discardRange_follows (h : Sound c) {offset length : ℕ} (hfits : offset + length < 2 ^ 32) :
    Follows (fun t b => t = s → b.offset + b.length ≤ offset ∨ offset + length ≤ b.offset)
        (lost (discardOne offset (offset + length)) (c.spaces s).buffers.toList) c
        (c.discardRange s offset length) ∧
      ∀ a, (c.discardRange s offset length).Has s a →
        a.offset + a.length ≤ offset ∨ offset + length ≤ a.offset := by
  have hshrunk := discardRange_shrunk (s := s) h hfits
  constructor
  · exact Follows.of_shrunk h (shrinks_discardOne _ _) hshrunk fun b hb _ => if_pos (hb rfl).symm
  · intro a ha
    obtain ⟨b, hb, hone⟩ := (hshrunk.has a).mp ha
    unfold discardOne at hone
    split_ifs at hone with hout hhead
    · obtain rfl := Option.some.inj hone
      exact hout.symm
    · obtain rfl := Option.some.inj hone
      dsimp only
      omega

/-- A call that makes a buffer takes away what is in its place first, and trims at the end. -/
structure Placed (s : σ) (b : Buffer) (c c' : BufferCache σ) : Prop where
  /-- The lists are right. -/
  sound : Sound c'
  /-- The bytes are within the limit. -/
  bounded : Bounded c'
  /-- The counter. -/
  counts : ∀ n, c.Counts n → c'.Counts
    (n + lost (discardOne b.offset (b.offset + b.length)) (c.spaces s).buffers.toList)
  /-- The buffers are the new one and those beside it that were there. -/
  has : ∀ t a', c'.Has t a' → ∃ a, (t = s ∧ a = b ∨ (t = s → Beside a' b) ∧ c.Has t a) ∧
    a'.offset = a.offset ∧ a'.data = a.data ∧ a'.length ≤ a.length
  /-- The writes beside it stay. -/
  kept : ∀ t a, c.Has t a → a.writing = true → (t = s → Beside a b) → c'.Has t a
  /-- The write stays. -/
  stays : b.writing = true → c'.Has s b

/-- A range is discarded, its buffer put in, and the cache trimmed. -/
theorem placed (h : Sound c) (hpos : 0 < b.length) (hfits : b.offset + b.length < 2 ^ 32)
    (hdata : b.length ≤ b.data.length) :
    Placed s b c ((c.discardRange s b.offset b.length).emplaced s b).trim := by
  obtain ⟨hdiscard, hfree⟩ := discardRange_follows (s := s) h hfits
  have hsound := hdiscard.sound.emplaced hpos hfits hdata hfree
  have hne : ∀ a, (c.discardRange s b.offset b.length).Has s a → a.offset ≠ b.offset := by
    intro a ha
    have := ((hdiscard.sound.good s).fits a ha).1
    have := hfree a ha
    omega
  have htrim := trim_follows hsound
  constructor
  case sound => exact htrim.sound
  case bounded => exact trim_bounded hsound
  case counts => exact fun n hn => htrim.counts _ ((hdiscard.counts n hn).emplaced hdiscard.sound
    hsound hne)
  case has =>
    intro t a' ha'
    obtain ⟨a, ha, hoff, hsame, hlen⟩ := htrim.has t a' ha'
    rcases (emplaced_has hne).mp ha with ha | hnew
    · obtain ⟨d, hd, hoff', hsame', hlen'⟩ := hdiscard.has t a ha
      refine ⟨d, .inr ⟨fun ht => ?_, hd⟩, hoff.trans hoff', hsame.trans hsame', hlen.trans hlen'⟩
      subst ht
      have := hfree a ha
      unfold Beside
      omega
    · exact ⟨a, .inl hnew, hoff, hsame, hlen⟩
  case kept =>
    intro t a ha hw hbeside
    exact htrim.kept t a hw ((emplaced_has hne).mpr (.inl (hdiscard.kept t a hbeside ha)))
  case stays => exact fun hw => htrim.kept s b hw ((emplaced_has hne).mpr (.inr ⟨rfl, rfl⟩))

/-! ## The other calls -/

/-- A buffer moves to the front. -/
theorem touch_follows (h : Sound c) {p : σ × ℕ} (hp : p ∈ c.lru) : Follows kept 0 c (c.touch p) :=
  Follows.of_perm h rfl (List.perm_cons_erase hp).symm rfl

/-- One round of `finish_write` leaves the other writes. -/
theorem finishOne_follows (h : Sound c) (seq off : ℕ) :
    Follows (fun t b => b.writing = true ∧ (t = s → b.seq ≠ seq)) 0 c (finishOne s seq c off) := by
  unfold finishOne
  cases hfind : c.find (s, off) with
  | none => exact Follows.refl h
  | some b =>
    obtain ⟨hb, rfl⟩ := find_eq_some_iff.mp hfind
    have hgood := h.good s
    have hw : ∀ off, off ∈ (c.spaces s).writing.erase b.offset ↔
        off ∈ (c.spaces s).writing ∧ off ≠ b.offset := fun off => by
      rw [hgood.nodup.mem_erase_iff, and_comm]
    dsimp only
    split_ifs with hseq hcache
    · exact Follows.refl h
    · exact Follows.drop h hb hw (hgood.nodup.erase _) fun hk => hk.2 rfl (not_not.mp hseq)
    · -- The buffer becomes clean, and moves to the front.
      have hclean : Shrunk (cleanAt b.offset) s c (c.setSpace s
          { buffers := (c.spaces s).buffers.set { b with writing := false }
            writing := (c.spaces s).writing.erase b.offset }) := by
        refine Shrunk.of_gone h (shrinks_cleanAt _) [] (fun b' => ?_) (fun off => ?_)
          (hgood.nodup.erase _) (by simp [cleanAt])
        · rw [SortedList.mem_set]
          constructor
          · rintro (rfl | ⟨hb', hne⟩)
            · exact ⟨b, hb, by simp [cleanAt]⟩
            · exact ⟨b', hb', congrArg some (if_neg hne)⟩
          · rintro ⟨a, ha, hone⟩
            replace hone := Option.some.inj hone
            split_ifs at hone with hoff
            · obtain rfl := SortedList.eq_of_key_eq ha hb hoff
              exact .inl hone.symm
            · exact .inr ⟨hone ▸ ha, hone ▸ hoff⟩
        · rw [hw]
          refine and_congr_right fun hin => ?_
          obtain ⟨a, ha, rfl, hwriting⟩ := (hgood.mem_writing off).mp hin
          simp only [SortedList.mem_set]
          constructor
          · exact fun hne => ⟨a, .inr ⟨ha, hne⟩, rfl, hwriting⟩
          · rintro ⟨d, rfl | ⟨-, hne⟩, hoff, hd⟩
            · cases hd
            · exact hoff ▸ hne
      have hfollows : Follows (fun t b => b.writing = true ∧ (t = s → b.seq ≠ seq)) _ c _ :=
        Follows.of_shrunk h (shrinks_cleanAt _) hclean
        fun a ha hhas => congrArg some (if_neg fun hoff => ha.2 rfl
          (by rw [SortedList.eq_of_key_eq hhas hb hoff]; exact not_not.mp hseq))
      rw [lost_cleanAt] at hfollows
      have htouch := hfollows.trans (touch_follows hfollows.sound (h.mem_of_has hb))
      exact htouch.trans ((trim_follows htouch.sound).mono fun _ _ hk => hk.1)

/-- `finish_write`. -/
theorem finishWrite_follows (h : Sound c) (seq : ℕ) :
    Follows (fun t b => b.writing = true ∧ (t = s → b.seq ≠ seq)) 0 c (c.finishWrite s seq) := by
  have hall : ∀ (offs : List ℕ) (c : BufferCache σ), Sound c →
      Follows (fun t b => b.writing = true ∧ (t = s → b.seq ≠ seq)) 0 c
        (offs.foldl (finishOne s seq) c) := by
    intro offs
    induction offs with
    | nil => exact fun c h => Follows.refl h
    | cons off offs ih =>
      intro c h
      have hone := finishOne_follows (s := s) h seq off
      exact hone.trans (ih _ hone.sound)
  exact hall _ c h

/-- `flush`: the list is emptied from the back. -/
theorem flush_follows (h : Sound c) : Follows (fun _ _ => False) 0 c c.flush := by
  have hall : ∀ (ps : List (σ × ℕ)) (c : BufferCache σ), Sound c → c.lru = ps.reverse →
      Follows (fun _ _ => False) 0 c (ps.foldl flushOne c) := by
    intro ps
    induction ps with
    | nil => exact fun c h _ => Follows.refl h
    | cons p ps ih =>
      intro c h hlru
      obtain ⟨s, off⟩ := p
      rw [List.reverse_cons] at hlru
      have hlast : c.lru.getLast? = some (s, off) := by rw [hlru, List.getLast?_concat]
      obtain ⟨b, hfind⟩ := h.exists_find (List.mem_of_getLast? hlast)
      obtain ⟨hb, rfl⟩ := find_eq_some_iff.mp hfind
      have hone : flushOne c (s, b.offset) = (c.setSpace s
          { buffers := (c.spaces s).buffers.remove b.offset
            writing := if b.writing then (c.spaces s).writing.filter (· ≠ b.offset)
              else (c.spaces s).writing }).rm s b := by
        rw [flushOne, hfind, rm, ← erase_getLast h.nodup hlast]
        rfl
      have hdrop : Follows (fun _ _ => False) 0 c _ := Follows.drop h hb
        (w := if b.writing then (c.spaces s).writing.filter (· ≠ b.offset)
          else (c.spaces s).writing) (fun off => by
            split_ifs with hw
            · simp
            · have := h.not_writing hb (by simpa using hw)
              exact ⟨fun hin => ⟨hin, fun heq => this (heq ▸ hin)⟩, And.left⟩)
        (by
          split_ifs
          · exact (h.good s).nodup.filter _
          · exact (h.good s).nodup) id
      rw [← hone] at hdrop
      refine hdrop.trans (ih _ hdrop.sound ?_)
      rw [hone]
      change c.lru.erase (s, b.offset) = _
      rw [erase_getLast h.nodup hlast, hlru, List.dropLast_concat]
  exact hall _ c h (List.reverse_reverse _).symm

/-- `read` changes the order of the list at most. -/
theorem read_follows (h : Sound c) (offset length : ℕ) :
    Follows (fun _ _ => True) 0 c (c.read s offset length).2 := by
  have hmiss : Follows (fun _ _ => True) 0 c
      { c with missBytes := c.missBytes + UInt64.ofNat length } :=
    Follows.of_perm h rfl (List.Perm.refl _) rfl
  unfold read
  cases hcand : (c.spaces s).candidate offset with
  | none => exact hmiss
  | some b =>
    dsimp only
    split_ifs
    · exact hmiss
    · exact hmiss
    · exact Follows.refl h
    · exact Follows.of_perm h rfl
        (List.perm_cons_erase (h.mem_of_has (BufferSpace.mem_of_candidate hcand))).symm rfl

/-- What a hit returns is a part of a buffer. -/
theorem read_eq_some (h : Sound c) {offset length : ℕ} (hfits : offset + length < 2 ^ 32)
    {bytes : List UInt8} (hr : (c.read s offset length).1 = some bytes) :
    ∃ b, c.Has s b ∧ b.offset ≤ offset ∧ offset + length ≤ b.offset + b.length ∧
      bytes = (b.data.drop (offset - b.offset)).take length := by
  unfold read at hr
  cases hcand : (c.spaces s).candidate offset with
  | none =>
    rw [hcand] at hr
    cases hr
  | some b =>
    have hb : c.Has s b := BufferSpace.mem_of_candidate hcand
    rw [hcand] at hr
    dsimp only at hr
    rw [rangeEnd_of_lt hfits, rangeEnd_of_lt ((h.good s).fits b hb).2.1] at hr
    split_ifs at hr with hlo hhi
    · exact ⟨b, hb, not_lt.mp hlo, not_lt.mp hhi, (Option.some.inj hr).symm⟩
    · exact ⟨b, hb, not_lt.mp hlo, not_lt.mp hhi, (Option.some.inj hr).symm⟩

/-- A part of a buffer is found. -/
theorem read_of_has (h : Sound c) (hb : c.Has s b) {offset length : ℕ} (hle : b.offset ≤ offset)
    (hpos : 0 < length) (hend : offset + length ≤ b.offset + b.length) :
    (c.read s offset length).1 = some ((b.data.drop (offset - b.offset)).take length) := by
  have hfits := ((h.good s).fits b hb).2.1
  have hcand := (h.good s).candidate_of_mem hb hle (by omega : offset < b.offset + b.length)
  unfold read
  rw [hcand]
  dsimp only
  rw [rangeEnd_of_lt hfits, rangeEnd_of_lt (by omega : offset + length < 2 ^ 32),
    if_neg (not_lt.mpr hle), if_neg (not_lt.mpr hend)]

/-! ## What the calls do to the content -/

/-- The content of the spaces with a range of one of them changed. -/
def overlay (m : σ → ℕ → Option UInt8) (s : σ) (offset length : ℕ) (v : ℕ → Option UInt8) :
    σ → ℕ → Option UInt8 := fun t i =>
  if t = s ∧ offset ≤ i ∧ i < offset + length then v (i - offset) else m t i

/-- What a call does to the bytes that are current: those that were written or read last, and not
discarded since. -/
def Call.apply (m : σ → ℕ → Option UInt8) : Call σ → σ → ℕ → Option UInt8
  | .write s _ offset bl _ => overlay m s offset bl.length fun i => bl[i]?
  | .didRead s offset bl => overlay m s offset bl.length fun i => bl[i]?
  | .discard s offset length => overlay m s offset length fun _ => none
  | .clear s => fun t i => if t = s then none else m t i
  | _ => m

/-- The buffers hold current bytes. -/
def Current (c : BufferCache σ) (m : σ → ℕ → Option UInt8) : Prop :=
  ∀ s b, c.Has s b → ∀ i < b.length, m s (b.offset + i) = b.data[i]?

variable {m : σ → ℕ → Option UInt8}

omit [DecidableEq σ] in
/-- Buffers that are left have the bytes that they had. -/
theorem Current.follows (hm : c.Current m) (h : Follows kept k c c') : c'.Current m := by
  intro s b' hb' i hi
  obtain ⟨b, hb, hoff, hdata, hlen⟩ := h.has s b' hb'
  rw [hoff, hdata]
  exact hm s b hb i (by omega)

/-- Buffers beside a range do not see that it changes. -/
theorem overlay_beside {offset length : ℕ} {v : ℕ → Option UInt8} {t : σ} (hbeside : t = s →
      b.offset + b.length ≤ offset ∨ offset + length ≤ b.offset) {i : ℕ} (hi : i < b.length) :
    overlay m s offset length v t (b.offset + i) = m t (b.offset + i) := by
  refine if_neg ?_
  rintro ⟨ht, h1, h2⟩
  have := hbeside ht
  omega

/-- The buffer that is put in has the bytes that were written last. -/
theorem Current.placed (hm : c.Current m) (h : Placed s b c c') :
    c'.Current (overlay m s b.offset b.length fun i => b.data[i]?) := by
  intro t a' ha' i hi
  obtain ⟨a, hnew | ⟨hbeside, ha⟩, hoff, hdata, hlen⟩ := h.has t a' ha'
  · obtain ⟨rfl, rfl⟩ := hnew
    rw [hoff, hdata, overlay, if_pos ⟨rfl, by omega, by omega⟩, Nat.add_sub_cancel_left]
  · rw [overlay_beside hbeside hi, hoff, hdata]
    exact hm t a ha i (by omega)

/-- The calls that leave a write alone. -/
def Call.Spares (s : σ) (b : Buffer) : Call σ → Prop
  | .write t _ offset bl _ =>
    t = s → b.offset + b.length ≤ offset ∨ offset + bl.length ≤ b.offset
  | .didRead t offset bl => t = s → b.offset + b.length ≤ offset ∨ offset + bl.length ≤ b.offset
  | .discard t offset length => t = s → b.offset + b.length ≤ offset ∨ offset + length ≤ b.offset
  | .finishWrite t seq => t = s → b.seq ≠ seq
  | .clear t => t ≠ s
  | .flush => False
  | _ => True

/-- The bytes that a call cuts off the buffers that it leaves. -/
def cutBytes (c : BufferCache σ) : Call σ → ℕ
  | .write s _ offset bl _ =>
    lost (discardOne offset (offset + bl.length)) (c.spaces s).buffers.toList
  | .didRead s offset bl =>
    lost (discardOne offset (offset + bl.length)) (c.spaces s).buffers.toList
  | .discard s offset length =>
    lost (discardOne offset (offset + length)) (c.spaces s).buffers.toList
  | _ => 0

/-- What a call does. -/
structure Does (c : BufferCache σ) (a : Call σ) (c' : BufferCache σ) : Prop where
  /-- The lists are right. -/
  sound : Sound c'
  /-- The counter. -/
  counts : ∀ n, c.Counts n → c'.Counts (n + c.cutBytes a)
  /-- The content. -/
  current : ∀ m, c.Current m → c'.Current (a.apply m)
  /-- The writes that stay. -/
  spares : ∀ s b, c.Has s b → b.writing = true → a.Spares s b → c'.Has s b

/-- A call that only takes buffers out. -/
theorem Does.of_follows {a : Call σ} (h : Follows kept k c c') (hk : k = c.cutBytes a)
    (happly : ∀ m, c'.Current m → c'.Current (a.apply m))
    (hkept : ∀ s b, b.writing = true → a.Spares s b → kept s b) : Does c a c' :=
  ⟨h.sound, fun n hn => hk ▸ h.counts n hn, fun m hm => happly m (hm.follows h),
    fun s b hb hw hs => h.kept s b (hkept s b hw hs) hb⟩

/-- One call. -/
theorem call_does (h : Sound c) {a : Call σ} (ha : a.Fits) : Does c a (c.call a) := by
  cases a with
  | write s seq offset bl nocache =>
    have hplaced := placed (s := s) (b := ⟨true, nocache, seq, offset, bl.length, bl⟩) h ha.1 ha.2
      le_rfl
    exact ⟨hplaced.sound, hplaced.counts, fun m hm => hm.placed hplaced, fun t b hb hw hs =>
      hplaced.kept t b hb hw fun ht => hs ht.symm⟩
  | didRead s offset bl =>
    have hplaced := placed (s := s) (b := ⟨false, false, 0, offset, bl.length, bl⟩) h ha.1 ha.2
      le_rfl
    exact ⟨hplaced.sound, hplaced.counts, fun m hm => hm.placed hplaced, fun t b hb hw hs =>
      hplaced.kept t b hb hw fun ht => hs ht.symm⟩
  | discard s offset length =>
    obtain ⟨hdiscard, hleft⟩ := discardRange_follows (s := s) h ha
    refine Does.of_follows hdiscard rfl (fun m hm t b hb i hi => ?_) fun t b _ hs ht => hs ht.symm
    have hbeside : t = s → b.offset + b.length ≤ offset ∨ offset + length ≤ b.offset := by
      rintro rfl
      exact hleft b hb
    rw [← hm t b hb i hi]
    show overlay m s offset length (fun _ => none) t (b.offset + i) = _
    exact overlay_beside hbeside hi
  | clear s =>
    have hclear : Follows (fun t _ => s ≠ t) _ c (c.clear s) :=
      Follows.of_shrunk h shrinks_none (clear_shrunk h) fun b hs _ => absurd rfl hs
    refine Does.of_follows hclear (lost_eq_zero (fun _ _ hnone => by cases hnone) _)
      (fun m hm t b hb i hi => ?_) fun t b _ hs => hs
    have ht : t ≠ s := by
      rintro rfl
      obtain ⟨a, -, hnone⟩ := ((clear_shrunk h).has b).mp hb
      cases hnone
    exact (if_neg ht).trans (hm t b hb i hi)
  | finishWrite s seq =>
    exact Does.of_follows (finishWrite_follows h seq) rfl (fun _ hm => hm)
      fun t b hw hs => ⟨hw, fun ht => hs ht.symm⟩
  | read s offset length =>
    exact Does.of_follows (read_follows h offset length) rfl (fun _ hm => hm)
      fun _ _ _ _ => trivial
  | setMaxBytes max =>
    have hmax : Follows (fun _ b => b.writing = true) 0 c { c with maxBytes := max } :=
      Follows.of_perm h rfl (List.Perm.refl _) rfl
    exact Does.of_follows (hmax.trans (trim_follows hmax.sound)) rfl (fun _ hm => hm)
      fun _ _ hw _ => hw
  | flush =>
    exact Does.of_follows (flush_follows h) rfl (fun _ hm => hm) fun _ _ _ hs => hs

/-! ## Runs -/

/-- The state after calls on a cache that is empty. -/
def run (maxBytes : UInt64) (as : List (Call σ)) : BufferCache σ := as.foldl call (empty maxBytes)

/-- The bytes that the calls of a run cut off. -/
def cutBytesOf (c : BufferCache σ) : List (Call σ) → ℕ
  | [] => 0
  | a :: as => c.cutBytes a + cutBytesOf (c.call a) as

/-- The bytes that are current after a run. -/
def contentAfter (as : List (Call σ)) : σ → ℕ → Option UInt8 :=
  as.foldl Call.apply fun _ _ => none

omit [DecidableEq σ] in
/-- The empty cache is sound. -/
theorem sound_empty (maxBytes : UInt64) : Sound (empty maxBytes : BufferCache σ) := by
  have hnone : ∀ b, b ∉ (SortedList.empty : SortedList Buffer.offset).toList :=
    fun b => List.not_mem_nil
  refine ⟨fun s => ⟨fun b hb => absurd hb (hnone b), fun b hb => absurd hb (hnone b),
    List.nodup_nil, fun off => ?_⟩, List.nodup_nil, fun s off => ?_⟩
  · simp [empty, hnone]
  · simp [empty, Has, hnone]

/-- A run from a state. -/
theorem foldl_call (h : Sound c) {as : List (Call σ)} (hfits : ∀ a ∈ as, a.Fits) :
    Sound (as.foldl call c) ∧
      (∀ n, c.Counts n → (as.foldl call c).Counts (n + c.cutBytesOf as)) ∧
      (∀ m, c.Current m → (as.foldl call c).Current (as.foldl Call.apply m)) ∧
      ∀ s b, c.Has s b → b.writing = true → (∀ a ∈ as, a.Spares s b) →
        (as.foldl call c).Has s b := by
  induction as generalizing c with
  | nil => exact ⟨h, fun _ h => h, fun _ h => h, fun _ _ h _ _ => h⟩
  | cons a as ih =>
    obtain ⟨ha, hfits⟩ := List.forall_mem_cons.mp hfits
    have hdoes := call_does h ha
    obtain ⟨hsound, hcounts, hcurrent, hspares⟩ := ih hdoes.sound hfits
    refine ⟨hsound, fun n hn => ?_, fun m hm => hcurrent _ (hdoes.current m hm),
      fun s b hb hw hs => ?_⟩
    · have := hcounts _ (hdoes.counts n hn)
      rwa [Nat.add_assoc] at this
    · obtain ⟨hone, hs⟩ := List.forall_mem_cons.mp hs
      exact hspares s b (hdoes.spares s b hb hw hone) hw hs

/-- The calls that always end with `trim`; `finish_write` trims only behind a buffer that it makes
clean. -/
def Call.Trims : Call σ → Prop
  | .write _ _ _ _ _ | .didRead _ _ _ | .setMaxBytes _ => True
  | _ => False

/-- After a call that always trims the limit is kept, or nothing is clean. -/
theorem call_bounded (h : Sound c) {a : Call σ} (ha : a.Fits) (ht : a.Trims) :
    (c.call a).Bounded := by
  cases a with
  | write s seq offset bl nocache =>
    exact (placed (s := s) (b := ⟨true, nocache, seq, offset, bl.length, bl⟩) h ha.1 ha.2
      le_rfl).bounded
  | didRead s offset bl =>
    exact (placed (s := s) (b := ⟨false, false, 0, offset, bl.length, bl⟩) h ha.1 ha.2
      le_rfl).bounded
  | setMaxBytes max =>
    have hmax : Follows (fun _ _ => True) 0 c { c with maxBytes := max } :=
      Follows.of_perm h rfl (List.Perm.refl _) rfl
    exact trim_bounded hmax.sound
  | _ => cases ht

/-- After every run the buffers of a space do not overlap, the list has each buffer of all spaces
once and no other, `writing_` has the buffers that are written, and `cur_bytes_` is the bytes of the
buffers and those that `_discard` has cut off. When the last call trims, `cur_bytes_` is within the
limit or no buffer is clean. -/
theorem bytes_accounted (maxBytes : UInt64) (as : List (Call σ)) (hfits : ∀ a ∈ as, a.Fits) :
    Sound (run maxBytes as) ∧
      (run maxBytes as).curBytes =
        UInt64.ofNat ((run maxBytes as).bytes + cutBytesOf (empty maxBytes) as) ∧
      ∀ a, a.Fits → a.Trims → (run maxBytes (as ++ [a])).Bounded := by
  obtain ⟨hsound, hcounts, -, -⟩ := foldl_call (sound_empty maxBytes) hfits
  have hempty : (empty maxBytes : BufferCache σ).Counts 0 := rfl
  have hcur := hcounts 0 hempty
  rw [Nat.zero_add] at hcur
  refine ⟨hsound, hcur, fun a ha ht => ?_⟩
  rw [run, List.foldl_append]
  exact call_bounded hsound ha ht

/-- A hit returns at every offset the byte that was written or read last and was not discarded
since. -/
theorem read_current (maxBytes : UInt64) (as : List (Call σ)) (hfits : ∀ a ∈ as, a.Fits) (s : σ)
    (offset length : ℕ) (hend : offset + length < 2 ^ 32) (bytes : List UInt8)
    (hr : ((run maxBytes as).read s offset length).1 = some bytes) :
    bytes.length = length ∧ ∀ i < length, contentAfter as s (offset + i) = bytes[i]? := by
  obtain ⟨hsound, -, hcurrent, -⟩ := foldl_call (sound_empty maxBytes) hfits
  have hempty : (empty maxBytes : BufferCache σ).Current fun _ _ => none :=
    fun s b hb => absurd hb List.not_mem_nil
  have hm : (run maxBytes as).Current (contentAfter as) := hcurrent _ hempty
  obtain ⟨b, hb, hle, hhi, rfl⟩ := read_eq_some hsound hend hr
  have hdata := ((hsound.good s).fits b hb).2.2
  refine ⟨by simp only [List.length_take, List.length_drop]; omega, fun i hi => ?_⟩
  have hin := hm s b hb (offset - b.offset + i) (by omega)
  calc
    contentAfter as s (offset + i) = contentAfter as s (b.offset + (offset - b.offset + i)) := by
      congr 1
      omega
    _ = b.data[offset - b.offset + i]? := hin
    _ = _ := by rw [List.getElem?_take_of_lt hi, List.getElem?_drop]

/-- A write can be read until it is finished, flushed, cleared or overlapped, whatever is trimmed:
any part of it is a hit, with its bytes. -/
theorem unfinished_stays (maxBytes : UInt64) (as as' : List (Call σ)) (s : σ) (seq offset : ℕ)
    (bl : List UInt8) (nocache : Bool)
    (hfits : ∀ a ∈ as ++ .write s seq offset bl nocache :: as', a.Fits)
    (hspares : ∀ a ∈ as', a.Spares s ⟨true, nocache, seq, offset, bl.length, bl⟩) (lo length : ℕ)
    (hpos : 0 < length) (hend : lo + length ≤ bl.length) :
    ((run maxBytes (as ++ .write s seq offset bl nocache :: as')).read s (offset + lo) length).1 =
      some ((bl.drop lo).take length) := by
  obtain ⟨hfits, hrest⟩ := List.forall_mem_append.mp hfits
  obtain ⟨hwrite, hfits'⟩ := List.forall_mem_cons.mp hrest
  have hsound := (foldl_call (sound_empty maxBytes) hfits).1
  have hplaced := placed (s := s) (b := ⟨true, nocache, seq, offset, bl.length, bl⟩) hsound
    hwrite.1 hwrite.2 le_rfl
  have hrun := foldl_call (call_does hsound hwrite).sound hfits'
  rw [run, List.foldl_append, List.foldl_cons]
  have hread := read_of_has hrun.1 (hrun.2.2.2 s _ (hplaced.stays rfl) rfl hspares)
    (Nat.le_add_right offset lo) hpos (by dsimp only; omega)
  dsimp only at hread
  rwa [Nat.add_sub_cancel_left] at hread

/-! ## A small run -/

instance (a : Call σ) : Decidable a.Fits := by
  unfold Call.Fits
  split <;> infer_instance

instance (s : σ) (b : Buffer) (a : Call σ) : Decidable (a.Spares s b) := by
  unfold Call.Spares
  split <;> infer_instance

/-- Two blobs in a cache for four bytes: a write, a read of the other blob, which is trimmed at
once, and a second write that cuts the first one. -/
def overlapping : List (Call ℕ) :=
  [.write 0 1 0 [1, 2, 3] false, .didRead 1 0 [4, 5], .write 0 2 2 [9, 9] true, .read 0 0 2]

/-- The counter has one byte too many after the second write. -/
theorem bytes_accounted_overlapping :
    (run 4 overlapping).curBytes = 5 ∧ (run 4 overlapping).bytes = 4 ∧
      (run 4 (overlapping ++ [.setMaxBytes 3])).Bounded := by
  have h := bytes_accounted 4 overlapping (by decide)
  exact ⟨h.2.1.trans (by decide), by decide, h.2.2 (.setMaxBytes 3) trivial trivial⟩

/-- A hit on what is left of the first write. -/
theorem read_current_overlapping : contentAfter overlapping 0 1 = some 2 := by
  have h := read_current 4 overlapping (by decide) 0 0 2 (by decide) [1, 2] (by decide)
  exact h.2 1 (by decide)

/-- The second write stays when its transaction is not the one that is finished. -/
theorem unfinished_stays_overlapping :
    ((run 4 (overlapping.take 2 ++ .write 0 2 2 [9, 9] true ::
      [.finishWrite 0 1, .setMaxBytes 0])).read 0 3 1).1 = some [9] :=
  unfinished_stays 4 (overlapping.take 2) [.finishWrite 0 1, .setMaxBytes 0] 0 2 2 [9, 9] true
    (by decide) (by decide) 1 1 (by decide) (by decide)

end BufferCache

end CxxLab.Bluestore
