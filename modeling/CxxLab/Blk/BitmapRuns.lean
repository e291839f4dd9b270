import CxxLab.Blk.BitmapScan
import CxxLab.Lib.Runs

/-!
# Runs of the bitmap allocator

The two rounds of `_allocate_l2` are one walk, over a list that is found from the state before the
call (`plan`), as long as nothing is lost. So what `BitmapAllocator::allocate` returns, takes and
leaves behind is known from the free units in the order of this list (`allocate_took`,
`allocate_good`). The results are about every state that calls of the allocator lead to.
-/

namespace CxxLab.Blk.Bitmap

open SetBits

/-! ## The entries of a round -/

/-- The entries of the visits that are not beyond a word. -/
def inside (vs : List Visit) : List ℕ := (vs.filter fun v => !v.beyond).map Visit.entry

/-- The visits of two walks. -/
theorem inside_append (vs ws : List Visit) : inside (vs ++ ws) = inside vs ++ inside ws := by
  rw [inside, List.filter_append, List.map_append]
  rfl

/-- The first visits are some of all. -/
theorem firsts_sublist (vs : List Visit) : (firsts vs).Sublist (inside vs) := by
  refine List.Sublist.map _ ?_
  have hall : (vs.takeWhile fun v => !v.beyond).filter (fun v => !v.beyond) =
      vs.takeWhile fun v => !v.beyond :=
    List.filter_eq_self.mpr fun v hv =>
      List.mem_takeWhile_imp (p := fun v : Visit => !v.beyond) hv
  rw [← hall]
  exact (List.takeWhile_sublist _).filter _

/-- The first visits of two walks, of which the second is not made if the first ends beyond its
word. -/
theorem firsts_append (vs ws : List Visit) :
    firsts (vs ++ ws) = firsts vs ++ if beyondOf vs = none then firsts ws else [] := by
  induction vs with
  | nil => rfl
  | cons v vs ih =>
    obtain ⟨b, beyond⟩ := v
    cases beyond with
    | true => rfl
    | false =>
      show b :: firsts (vs ++ ws) = b :: (firsts vs ++ if beyondOf vs = none then firsts ws else [])
      rw [ih]

namespace State

variable {l2 : ℕ → Bool} {slot start scanEnd roundEnd b : ℕ}

/-- The L2 entries that are visited in a word: all of them if it is set, and else those whose bits
are set. -/
theorem inside_slotVisits : inside (slotVisits l2 slot start scanEnd) =
    if slotSet l2 slot then ((List.range' 0 scanEnd).filter (· < bitsPerSlot)).map
      (bitsPerSlot * slot + ·)
    else ((setBits (fun i => l2 (bitsPerSlot * slot + i)) start bitsPerSlot).filter
      (· < scanEnd)).map (bitsPerSlot * slot + ·) := by
  unfold inside slotVisits
  split_ifs
  · rw [List.filter_map, List.map_map]
    congr 1
    refine List.filter_congr fun i _ => ?_
    simp only [Function.comp_apply, ← decide_not, not_le]
  · rw [List.filter_map, List.map_map]
    congr 1
    exact List.filter_eq_self.mpr fun i _ => rfl

/-- An L2 entry that is visited is one of the word, and has free units. -/
theorem mem_inside_slotVisits (h : b ∈ inside (slotVisits l2 slot start scanEnd)) :
    bitsPerSlot * slot ≤ b ∧ b < bitsPerSlot * slot + bitsPerSlot ∧ l2 b = true := by
  rw [inside_slotVisits] at h
  split_ifs at h with hset
  · obtain ⟨i, hi, rfl⟩ := List.mem_map.mp h
    have hlt := of_decide_eq_true (List.mem_filter.mp hi).2
    exact ⟨Nat.le_add_right _ _, Nat.add_lt_add_left hlt _, slotSet_iff.mp hset i hlt⟩
  · obtain ⟨i, hi, rfl⟩ := List.mem_map.mp h
    obtain ⟨⟨-, hlt⟩, hbit⟩ := mem_setBits.mp (List.mem_of_mem_filter hi)
    exact ⟨Nat.le_add_right _ _, Nat.add_lt_add_left hlt _, hbit⟩

/-- The entries of a word are visited in their order. -/
theorem pairwise_inside_slotVisits :
    (inside (slotVisits l2 slot start scanEnd)).Pairwise (· < ·) := by
  rw [inside_slotVisits]
  split_ifs
  · exact ((List.pairwise_lt_range' 1).filter _).map _ fun i j hij => Nat.add_lt_add_left hij _
  · refine List.Pairwise.map _ (fun i j hij => Nat.add_lt_add_left hij _) ?_
    exact ((List.pairwise_lt_range' 1).filter _).filter _

/-- The entries of a round are in ascending order, and their bits are set. -/
theorem inside_roundVisits (l2 : ℕ → Bool) (roundEnd : ℕ) : ∀ fuel idx,
    (inside (roundVisits l2 roundEnd fuel idx)).Pairwise (· < ·) ∧
      ∀ b ∈ inside (roundVisits l2 roundEnd fuel idx),
        bitsPerSlot * (idx / bitsPerSlot) ≤ b ∧ l2 b = true
  | 0, idx => ⟨List.Pairwise.nil, fun b hb => by cases hb⟩
  | fuel + 1, idx => by
    unfold roundVisits
    split_ifs with hidx hclear
    · obtain ⟨hpair, hmem⟩ := inside_roundVisits l2 roundEnd fuel (idx + bitsPerSlot)
      refine ⟨hpair, fun b hb => ⟨?_, (hmem b hb).2⟩⟩
      have hle := (hmem b hb).1
      simp only [bitsPerSlot] at hle ⊢
      omega
    · simp only
      obtain ⟨hpair, hmem⟩ := inside_roundVisits l2 roundEnd fuel
        (min (idx / bitsPerSlot * bitsPerSlot + bitsPerSlot) roundEnd)
      rw [inside_append]
      refine ⟨List.pairwise_append.mpr ⟨pairwise_inside_slotVisits, hpair, fun a ha b hb => ?_⟩,
        fun b hb => ?_⟩
      · -- The round goes on behind the word, or it ends.
        rcases Nat.lt_or_ge (idx / bitsPerSlot * bitsPerSlot + bitsPerSlot) roundEnd with hlt | hge
        · have hle := (hmem b hb).1
          rw [min_eq_left hlt.le] at hle
          have hlt' := (mem_inside_slotVisits ha).2.1
          simp only [bitsPerSlot] at hle hlt'
          omega
        · rw [min_eq_right hge] at hb
          have hnil : roundVisits l2 roundEnd fuel roundEnd = [] := by
            cases fuel <;> simp [roundVisits]
          rw [hnil] at hb
          cases hb
      · rcases List.mem_append.mp hb with hb | hb
        · exact ⟨(mem_inside_slotVisits hb).1, (mem_inside_slotVisits hb).2.2⟩
        · refine ⟨?_, (hmem b hb).2⟩
          have hle := (hmem b hb).1
          have hmin : idx / bitsPerSlot ≤
              min (idx / bitsPerSlot * bitsPerSlot + bitsPerSlot) roundEnd / bitsPerSlot := by
            simp only [bitsPerSlot] at hidx ⊢
            omega
          exact (Nat.mul_le_mul_left _ hmin).trans hle
    · exact ⟨List.Pairwise.nil, fun b hb => by cases hb⟩

/-- A walk of a round does not begin beyond a word. -/
theorem firsts_roundVisits (l2 : ℕ → Bool) (roundEnd : ℕ) : ∀ fuel idx,
    firsts (roundVisits l2 roundEnd fuel idx) ≠ [] ∨ roundVisits l2 roundEnd fuel idx = []
  | 0, idx => .inr rfl
  | fuel + 1, idx => by
    unfold roundVisits
    split_ifs with hidx hclear
    · exact firsts_roundVisits l2 roundEnd fuel _
    · simp only
      have hslot : firsts (slotVisits l2 (idx / bitsPerSlot) (idx % bitsPerSlot)
          (min (idx / bitsPerSlot * bitsPerSlot + bitsPerSlot) roundEnd)) ≠ [] ∨
          slotVisits l2 (idx / bitsPerSlot) (idx % bitsPerSlot)
            (min (idx / bitsPerSlot * bitsPerSlot + bitsPerSlot) roundEnd) = [] := by
        generalize min (idx / bitsPerSlot * bitsPerSlot + bitsPerSlot) roundEnd = scanEnd
        unfold slotVisits
        split_ifs
        · cases scanEnd with
          | zero => exact .inr rfl
          | succ n =>
            rw [List.range'_succ]
            exact .inl (by simp [firsts])
        · rcases (setBits (fun i => l2 (bitsPerSlot * (idx / bitsPerSlot) + i))
            (idx % bitsPerSlot) bitsPerSlot).filter (· < scanEnd) with _ | ⟨i, is⟩
          · exact .inr rfl
          · exact .inl (List.cons_ne_nil _ _)
      rcases hslot with hne | hnil
      · refine .inl fun hnil => hne ?_
        rw [firsts_append] at hnil
        exact (List.append_eq_nil_iff.mp hnil).1
      · rw [hnil, List.nil_append]
        exact firsts_roundVisits l2 roundEnd fuel _
    · exact .inr rfl

/-! ## The plan of a call -/

/-- The bits of `l2` when the entries of a walk are used up. -/
def used (l2 : ℕ → Bool) (vs : List Visit) : ℕ → Bool := fun b => l2 b && decide (b ∉ firsts vs)

/-- The visits of both rounds from the bit `pos` on, if it takes all of them. -/
def plan (s : State) (pos : ℕ) : List Visit :=
  let vs := roundVisits s.l2 (s.l2Slots * bitsPerSlot) (s.l2Slots + 1) pos
  vs ++ roundVisits (used s.l2 vs) pos (s.l2Slots + 1) 0

/-- The two rounds of `_allocate_l2`. -/
def rounds (want minLength maxLength pos : ℕ) (s : State) (o : Out) : Option (Bool × State × Out) :=
  match allocateRound want minLength maxLength (s.l2Slots * bitsPerSlot) (s.l2Slots + 1) pos s o with
  | none => none
  | some (true, r) => some (true, r)
  | some (false, s', o) => allocateRound want minLength maxLength pos (s.l2Slots + 1) 0 s' o

variable {s : State} {want minLength maxLength pos : ℕ} {o : Out}

/-- The plan comes to every L2 entry once, and to those with free units only. -/
theorem plan_firsts (s : State) (pos : ℕ) :
    (firsts (plan s pos)).Nodup ∧ (∀ b ∈ firsts (plan s pos), s.l2 b = true) ∧
      (firsts (plan s pos) ≠ [] ∨ plan s pos = []) := by
  unfold plan
  simp only
  obtain ⟨vs, hvs⟩ : ∃ vs, vs = roundVisits s.l2 (s.l2Slots * bitsPerSlot) (s.l2Slots + 1) pos :=
    ⟨_, rfl⟩
  have h₁ := inside_roundVisits s.l2 (s.l2Slots * bitsPerSlot) (s.l2Slots + 1) pos
  have h₂ := inside_roundVisits (used s.l2 vs) pos (s.l2Slots + 1) 0
  have hne₁ := firsts_roundVisits s.l2 (s.l2Slots * bitsPerSlot) (s.l2Slots + 1) pos
  have hne₂ := firsts_roundVisits (used s.l2 vs) pos (s.l2Slots + 1) 0
  rw [← hvs] at h₁ hne₁ ⊢
  have hmem₁ : ∀ b ∈ firsts vs, s.l2 b = true := fun b hb =>
    (h₁.2 b ((firsts_sublist vs).subset hb)).2
  have hnodup : ∀ ws : List Visit, (inside ws).Pairwise (· < ·) → (firsts ws).Nodup := fun ws h =>
    (h.imp fun {a b} hab => hab.ne).sublist (firsts_sublist ws)
  have hmem₂ : ∀ b ∈ firsts (roundVisits (used s.l2 vs) pos (s.l2Slots + 1) 0),
      s.l2 b = true ∧ b ∉ firsts vs := fun b hb => by
    have hbit := (h₂.2 b ((firsts_sublist _).subset hb)).2
    simpa [used] using hbit
  rw [firsts_append]
  refine ⟨?_, fun b hb => ?_, ?_⟩
  · refine List.nodup_append.mpr ⟨hnodup vs h₁.1, ?_, fun a ha b hb hab => ?_⟩
    · split_ifs
      · exact hnodup _ h₂.1
      · exact List.nodup_nil
    · split_ifs at hb
      · exact (hmem₂ b hb).2 (hab ▸ ha)
      · cases hb
  · rcases List.mem_append.mp hb with hb | hb
    · exact hmem₁ b hb
    · split_ifs at hb
      · exact (hmem₂ b hb).1
      · cases hb
  · rcases hne₁ with hne | hnil
    · exact .inl fun h => hne (List.append_eq_nil_iff.mp h).1
    · rw [hnil] at hne₂ ⊢
      exact hne₂

/-- The walk of a round that is not enough leaves the entries behind that it did not come to. -/
theorem l2_after_walk (hc : Consistent s) (L : Lengths s.granularity minLength maxLength)
    (hwf : Wf s.granularity maxLength s.l0 o) (hwant : s.granularity ∣ want) {vs : List Visit}
    (hne : firsts vs ≠ [] ∨ vs = []) (hd : (firsts vs).Nodup) (hl2 : ∀ b ∈ firsts vs, s.l2 b = true)
    {s₁ : State} {o₁ : Out} (h : walk want minLength maxLength vs s o = some (false, s₁, o₁)) :
    s₁.l2 = used s.l2 vs ∨ Leaked s.granularity s.l0 s₁.l0 o₁ := by
  obtain ⟨hc₁, -, -, hdone⟩ := walk_consistent vs hc L hwf h
  obtain ⟨htook, hserved⟩ := (walk_spec vs s o hc L hwf hwant (.inr hne) hd hl2).took
    (s₁.l0, o₁) (by rw [h]; rfl)
  refine htook.outcome.imp_left fun hgrown => ?_
  rcases vs with _ | ⟨v, vs⟩
  · simp only [walk, Option.some.injEq, Prod.mk.injEq] at h
    obtain ⟨-, rfl, -⟩ := h
    funext b
    simp [used, firsts]
  have hmore := mt (hdone (.inl (List.cons_ne_nil v vs))).mpr (by simp)
  rw [hgrown.enough_iff L.unit hwf htook.wf hwant, List.length_take] at hmore
  -- All of the free units are taken, and none of them beyond a word.
  have hall : (reach s.l0 (v :: vs)).length < (want - o.allocated) / s.granularity := by omega
  rw [List.take_of_length_le hall.le] at hgrown
  have hbeyond : beyondOf (v :: vs) = none := by
    rcases hserved (by rwa [List.take_of_length_le hall.le]) with hle | hnone | ⟨b, -, -, -, hlt⟩
    · rw [reach, List.length_append] at hall
      omega
    · exact hnone
    · omega
  have hreach : reach s.l0 (v :: vs) = (firsts (v :: vs)).flatMap (freeUnder s.l0) := by
    rw [reach, hbeyond, List.append_nil]
  funext b
  refine Bool.eq_iff_iff.mpr ?_
  rw [hc₁.l2, used, Bool.and_eq_true, decide_eq_true_eq, hc.l2]
  have hbits : ∀ u, Under b u → (s₁.l0 u = true ↔ s.l0 u = true ∧ b ∉ firsts (v :: vs)) := by
    intro u hu
    have hbit : s₁.l0 u = (s.l0 u && decide (u ∉ reach s.l0 (v :: vs))) := hgrown.bits u
    rw [hbit, hreach, Bool.and_eq_true, decide_eq_true_eq, List.mem_flatMap]
    refine and_congr_right fun hbit => not_congr ⟨?_, fun hb => ⟨b, hb, mem_freeUnder.mpr ⟨hu, hbit⟩⟩⟩
    rintro ⟨q, hq, huq⟩
    rwa [← under_iff.mp hu, under_iff.mp (mem_freeUnder.mp huq).1]
  constructor
  · rintro ⟨u, hu, hbit⟩
    exact ⟨⟨u, hu, ((hbits u hu).mp hbit).1⟩, ((hbits u hu).mp hbit).2⟩
  · rintro ⟨⟨u, hu, hbit⟩, hb⟩
    exact ⟨u, hu, (hbits u hu).mpr ⟨hbit, hb⟩⟩

/-- Both rounds take the first of the free units that the plan comes to. -/
theorem rounds_spec (hc : Consistent s) (L : Lengths s.granularity minLength maxLength)
    (hwf : Wf s.granularity maxLength s.l0 o) (hwant : s.granularity ∣ want) (pos : ℕ) :
    Walks s.granularity minLength maxLength
      ((reach s.l0 (plan s pos)).take ((want - o.allocated) / s.granularity))
      (Served s.entries s.l0 (plan s pos) ((want - o.allocated) / s.granularity)) s.l0 o
      ((rounds want minLength maxLength pos s o).map fun r => (r.2.1.l0, r.2.2)) := by
  obtain ⟨hd, hl2, hne⟩ := plan_firsts s pos
  have hplan := walk_spec (plan s pos) s o hc L hwf hwant (.inr hne) hd hl2
  obtain ⟨vs, hvs⟩ : ∃ vs, vs = roundVisits s.l2 (s.l2Slots * bitsPerSlot) (s.l2Slots + 1) pos :=
    ⟨_, rfl⟩
  have hround : allocateRound want minLength maxLength (s.l2Slots * bitsPerSlot) (s.l2Slots + 1) pos
      s o = walk want minLength maxLength vs s o := by
    rw [hvs]
    exact allocateRound_eq s.l2 _ _ _ s o fun _ _ => rfl
  -- The two rounds are one walk over the plan, if the second sees what the first left.
  have hwalk : walk want minLength maxLength (plan s pos) s o =
      match walk want minLength maxLength vs s o with
      | none => none
      | some (true, r) => some (true, r)
      | some (false, s', o) => walk want minLength maxLength
          (roundVisits (used s.l2 vs) pos (s.l2Slots + 1) 0) s' o := by
    rw [hvs]
    exact walk_append _ _ s o
  unfold rounds
  rw [hround]
  rcases hfirst : walk want minLength maxLength vs s o with _ | ⟨d, s₁, o₁⟩
  · rw [hwalk, hfirst] at hplan
    exact hplan
  cases d with
  | true =>
    rw [hwalk, hfirst] at hplan
    exact hplan
  | false =>
    rw [hwalk, hfirst] at hplan
    simp only at hplan ⊢
    have h₁ := inside_roundVisits s.l2 (s.l2Slots * bitsPerSlot) (s.l2Slots + 1) pos
    rw [← hvs] at h₁
    have hafter := l2_after_walk hc L hwf hwant (by
        have hne₁ := firsts_roundVisits s.l2 (s.l2Slots * bitsPerSlot) (s.l2Slots + 1) pos
        rwa [← hvs] at hne₁)
      ((h₁.1.imp fun {a b} hab => hab.ne).sublist (firsts_sublist vs))
      (fun b hb => (h₁.2 b ((firsts_sublist vs).subset hb)).2) hfirst
    rw [allocateRound_eq s₁.l2 pos (s.l2Slots + 1) 0 s₁ o₁ fun _ _ => rfl]
    -- The L2 bits after the first round are those the plan reckons with, or units were lost.
    rcases hafter with heq | hleaked
    · rw [heq]
      exact hplan
    · -- Something is lost in the first round.
      obtain ⟨hc₁, hdev, ⟨t₁, htook₁⟩, -⟩ := walk_consistent vs hc L hwf hfirst
      have hlost : ∀ (ws : List Visit) (q : (ℕ → Bool) × Out),
          (walk want minLength maxLength ws s₁ o₁).map (fun r => (r.2.1.l0, r.2.2)) = some q →
          Took s.granularity minLength maxLength (fun _ => True)
            ((reach s.l0 (plan s pos)).take ((want - o.allocated) / s.granularity)) s.l0 q.1 o q.2 ∧
          Leaked s.granularity s.l0 q.1 q.2 := by
        intro ws q hq
        obtain ⟨⟨d', s', o'⟩, hw, rfl⟩ := Option.map_eq_some_iff.mp hq
        obtain ⟨-, -, ⟨t₂, htook₂⟩, -⟩ := walk_consistent ws hc₁ (hdev.granularity ▸ L)
          (hdev.granularity ▸ htook₁.wf) hw
        rw [hdev.granularity] at htook₂
        have hall := htook₁.trans htook₂ fun _ => rfl
        have hleaked' := hleaked.trans htook₂
        exact ⟨⟨hall.sub, hall.frame, hall.covered, hall.wf, hall.short,
          fun heq => absurd hleaked' (hall.single heq).not_leaked, .inr hleaked'⟩, hleaked'⟩
      refine ⟨fun q hq => ?_, fun hgood hS => ?_⟩
      · obtain ⟨htook, hleaked'⟩ := hlost _ q hq
        exact ⟨htook, fun hgrown => absurd hleaked' hgrown.not_leaked⟩
      · obtain ⟨q, hq, hgrown, -⟩ := hplan.good hgood hS
        exact absurd (hlost _ q hq).2 hgrown.not_leaked

/-! ## A call of `allocate` -/

/-- The free units that a call comes to, as many as it is to take. -/
def target (s : State) (want : ℕ) (hint : ℤ) : List ℕ :=
  (reach s.l0 (plan s (s.startPos hint))).take (want / s.granularity)

/-- A call does not go wrong beyond a word of `l2`. -/
def EndsWell (s : State) (want : ℕ) (hint : ℤ) : Prop :=
  Served s.entries s.l0 (plan s (s.startPos hint)) (want / s.granularity)

/-- What is returned for so many bytes. -/
def resultOf (allocated : ℕ) : ℤ := if 0 < allocated then (allocated : ℤ) else -28

variable {unit maxAllocSize : ℕ} {hint : ℤ}

/-- The lengths of a call, for units of the allocator's and the caller's size. -/
theorem lengths_of {k : ℕ} (hg : s.granularity = 2 ^ k) (hu : isp2 unit = true)
    (hle : s.granularity ≤ unit) (maxAllocSize : ℕ) :
    Lengths s.granularity unit (maxLengthOf unit maxAllocSize) := by
  obtain ⟨j, rfl⟩ := exists_two_pow_of_isp2 hu
  have hpos : 0 < 2 ^ j := Nat.two_pow_pos j
  obtain ⟨m, hm, hm31⟩ : ∃ m, m = (if maxAllocSize = 0 ∨ 0x80000000 ≤ maxAllocSize then 0x80000000
      else maxAllocSize) ∧ m ≤ 0x80000000 := ⟨_, rfl, by split_ifs <;> omega⟩
  have hmax : maxLengthOf (2 ^ j) maxAllocSize =
      if alignDown m (2 ^ j) < 2 ^ j then 2 ^ j else alignDown m (2 ^ j) := by rw [hm]; rfl
  have hdown : alignDown m (2 ^ j) ≤ m := Nat.div_mul_le_self m (2 ^ j)
  refine ⟨hg ▸ Nat.two_pow_pos k, ?_, hpos, ?_, ?_, ?_⟩
  · rw [hg] at hle ⊢
    exact Nat.pow_dvd_pow 2 ((Nat.pow_le_pow_iff_right (by norm_num)).mp hle)
  · rw [hmax]
    split_ifs
    · exact dvd_refl _
    · exact Nat.dvd_mul_left _ _
  · rw [hmax]
    split_ifs with h
    · exact le_refl _
    · exact not_lt.mp h
  · rw [hmax]
    split_ifs with h
    · exact .inr rfl
    · exact .inl (hdown.trans hm31)

/-- Before the call nothing was taken. -/
theorem wf_nil (g maxLength : ℕ) (bits : ℕ → Bool) : Wf g maxLength bits ⟨0, []⟩ :=
  ⟨⟨fun e he => (by cases he), .inr rfl⟩, rfl, fun u hu => by cases hu⟩

/-- A call is its two rounds. -/
theorem allocate_eq (hu : isp2 unit = true) (hle : s.granularity ≤ unit) (hwant : unit ∣ want) :
    s.allocate want unit maxAllocSize hint [] =
      match rounds want unit (maxLengthOf unit maxAllocSize) (s.startPos hint) s ⟨0, []⟩ with
      | none => none
      | some (true, s', o) => some (resultOf o.allocated, s', o.res)
      | some (false, s', o) => some (resultOf o.allocated,
          if 0 < o.allocated then { s' with available := wordSub s'.available o.allocated } else s',
          o.res) := by
  unfold allocate
  rw [if_pos ⟨hu, Nat.mod_eq_zero_of_dvd hwant, hle⟩]
  unfold allocateL2 rounds
  simp only
  rcases allocateRound want unit (maxLengthOf unit maxAllocSize) (s.l2Slots * bitsPerSlot)
    (s.l2Slots + 1) (s.startPos hint) s ⟨0, []⟩ with _ | ⟨d, s₁, o₁⟩
  · rfl
  cases d with
  | true => simp only [resultOf, true_and]
  | false =>
    simp only
    rcases allocateRound want unit (maxLengthOf unit maxAllocSize) (s.startPos hint)
      (s.l2Slots + 1) 0 s₁ o₁ with _ | ⟨d, s₂, o₂⟩
    · rfl
    cases d with
    | true => simp only [resultOf, true_and]
    | false =>
      simp only
      by_cases h0 : 0 < o₂.allocated
      · simp only [h0, if_true, resultOf, true_and]
      · simp only [h0, if_false, resultOf, and_false]

/-- What the two rounds keep. -/
theorem rounds_consistent (hc : Consistent s) (L : Lengths s.granularity minLength maxLength)
    (hwf : Wf s.granularity maxLength s.l0 o) {d : Bool} {s' : State} {o' : Out}
    (h : rounds want minLength maxLength pos s o = some (d, s', o')) :
    Consistent s' ∧ SameDevice s s' := by
  unfold rounds at h
  rw [allocateRound_eq s.l2 _ _ _ s o fun _ _ => rfl] at h
  split at h
  · cases h
  · rename_i r hfirst
    obtain ⟨hc', hdev, -⟩ := walk_consistent _ hc L hwf hfirst
    simp only [Option.some.injEq, Prod.mk.injEq] at h
    obtain ⟨-, rfl⟩ := h
    exact ⟨hc', hdev⟩
  · rename_i s₁ o₁ hfirst
    obtain ⟨hc₁, hdev, ⟨t, htook⟩, -⟩ := walk_consistent _ hc L hwf hfirst
    rw [allocateRound_eq s₁.l2 _ _ _ s₁ o₁ fun _ _ => rfl] at h
    obtain ⟨hc', hdev', -⟩ := walk_consistent _ hc₁ (hdev.granularity ▸ L)
      (hdev.granularity ▸ htook.wf) h
    exact ⟨hc', hdev.trans hdev'⟩

/-- The arguments of a call: a power of two that is no less than the granularity, which is one too,
and a multiple of it. -/
structure Admissible (s : State) (want unit : ℕ) : Prop where
  granularity : ∃ k, s.granularity = 2 ^ k
  isp2 : isp2 unit = true
  le : s.granularity ≤ unit
  dvd : unit ∣ want

/-- The lengths of an admissible call. -/
theorem Admissible.lengths (h : Admissible s want unit) (maxAllocSize : ℕ) :
    Lengths s.granularity unit (maxLengthOf unit maxAllocSize) :=
  let ⟨_, hg⟩ := h.granularity
  lengths_of hg h.isp2 h.le maxAllocSize

/-- What was allocated is taken from `available`, once. -/
theorem rounds_available {d : Bool} {s' : State} {o' : Out}
    (h : rounds want minLength maxLength pos s o = some (d, s', o')) :
    s'.available = if d then wordSub s.available o'.allocated else s.available := by
  unfold rounds at h
  rw [allocateRound_eq s.l2 _ _ _ s o fun _ _ => rfl] at h
  split at h
  · cases h
  · rename_i r hfirst
    simp only [Option.some.injEq, Prod.mk.injEq] at h
    obtain ⟨rfl, rfl⟩ := h
    exact walk_available _ s o hfirst
  · rename_i s₁ o₁ hfirst
    rw [allocateRound_eq s₁.l2 _ _ _ s₁ o₁ fun _ _ => rfl] at h
    have hkept : s₁.available = s.available := walk_available _ s o hfirst
    rw [walk_available _ s₁ o₁ h, hkept]

/-- What a call did that has returned. -/
theorem allocate_took (hc : Consistent s) (ha : Admissible s want unit) {r : ℤ} {s' : State}
    {res : List PExtent} (h : s.allocate want unit maxAllocSize hint [] = some (r, s', res)) :
    Consistent s' ∧ SameDevice s s' ∧ ∃ o', o'.res = res ∧ r = resultOf o'.allocated ∧
      Took s.granularity unit (maxLengthOf unit maxAllocSize) (fun _ => True) (s.target want hint)
        s.l0 s'.l0 ⟨0, []⟩ o' ∧
      (Grown s.granularity (s.target want hint) s.l0 s'.l0 ⟨0, []⟩ o' → s.EndsWell want hint) := by
  have L := ha.lengths maxAllocSize
  have hwf := wf_nil s.granularity (maxLengthOf unit maxAllocSize) s.l0
  have hspec := rounds_spec hc L hwf (L.dvd.trans ha.dvd) (s.startPos hint)
  rw [allocate_eq ha.isp2 ha.le ha.dvd] at h
  rcases hr : rounds want unit (maxLengthOf unit maxAllocSize) (s.startPos hint) s ⟨0, []⟩ with
    _ | ⟨d, s₁, o₁⟩
  · rw [hr] at h
    cases h
  rw [hr] at h
  obtain ⟨hc', hdev⟩ := rounds_consistent hc L hwf hr
  obtain ⟨htook, hserved⟩ := hspec.took (s₁.l0, o₁) (by rw [hr]; rfl)
  -- The rest of the call writes `available` only.
  have hstate : r = resultOf o₁.allocated ∧ res = o₁.res ∧
      ∃ n, s' = { s₁ with available := n } := by
    cases d with
    | true =>
      simp only [Option.some.injEq, Prod.mk.injEq] at h
      obtain ⟨rfl, rfl, rfl⟩ := h
      exact ⟨rfl, rfl, _, rfl⟩
    | false =>
      simp only [Option.some.injEq, Prod.mk.injEq] at h
      obtain ⟨rfl, rfl, rfl⟩ := h
      refine ⟨rfl, rfl, ?_⟩
      split_ifs
      · exact ⟨_, rfl⟩
      · exact ⟨s₁.available, rfl⟩
  obtain ⟨rfl, rfl, n, rfl⟩ := hstate
  exact ⟨hc'.withAvailable n, ⟨hdev.1, hdev.2, hdev.3, hdev.4⟩, o₁, rfl, rfl, htook, hserved⟩

/-- What a call returned is taken from `available`. -/
theorem allocate_available (ha : Admissible s want unit) (hword : s.available < wordEnd) {r : ℤ}
    {s' : State} {res : List PExtent}
    (h : s.allocate want unit maxAllocSize hint [] = some (r, s', res)) :
    ∃ a, r = resultOf a ∧ s'.available = wordSub s.available a := by
  have hnone : wordSub s.available 0 = s.available := by
    rw [wordSub, Nat.zero_mod, Nat.sub_zero, Nat.add_mod_right, Nat.mod_eq_of_lt hword]
  rw [allocate_eq ha.isp2 ha.le ha.dvd] at h
  rcases hr : rounds want unit (maxLengthOf unit maxAllocSize) (s.startPos hint) s ⟨0, []⟩ with
    _ | ⟨d, s₁, o₁⟩
  · rw [hr] at h
    cases h
  rw [hr] at h
  have havail := rounds_available hr
  cases d with
  | true =>
    simp only [Option.some.injEq, Prod.mk.injEq] at h
    obtain ⟨rfl, rfl, -⟩ := h
    exact ⟨_, rfl, havail⟩
  | false =>
    simp only [Option.some.injEq, Prod.mk.injEq] at h
    obtain ⟨rfl, rfl, -⟩ := h
    refine ⟨_, rfl, ?_⟩
    have hkept : s₁.available = s.available := havail
    split_ifs with hpos
    · rw [← hkept]
    · rw [Nat.eq_zero_of_not_pos hpos, hnone, hkept]

/-- A call for whole blocks returns, with all of them. -/
theorem allocate_good (hc : Consistent s) (ha : Admissible s want unit)
    (hgood : Good s.granularity unit (maxLengthOf unit maxAllocSize) (s.target want hint) ⟨0, []⟩)
    (hends : s.EndsWell want hint) :
    ∃ r s' res, s.allocate want unit maxAllocSize hint [] = some (r, s', res) ∧
      cover s.granularity res = s.target want hint ∧
      (∀ u, s'.l0 u = (s.l0 u && decide (u ∉ s.target want hint))) ∧ Aligned unit ⟨0, res⟩ := by
  have L := ha.lengths maxAllocSize
  have hwf := wf_nil s.granularity (maxLengthOf unit maxAllocSize) s.l0
  have hspec := rounds_spec hc L hwf (L.dvd.trans ha.dvd) (s.startPos hint)
  obtain ⟨q, hq, hgrown, hal⟩ := hspec.good hgood hends
  obtain ⟨⟨d, s₁, o₁⟩, hr, rfl⟩ := Option.map_eq_some_iff.mp hq
  rw [allocate_eq ha.isp2 ha.le ha.dvd, hr]
  have hcover : cover s.granularity o₁.res = s.target want hint := by
    rw [hgrown.cover]
    rfl
  cases d with
  | true => exact ⟨_, _, _, rfl, hcover, hgrown.bits, hal⟩
  | false =>
    refine ⟨_, _, _, rfl, hcover, fun u => ?_, hal⟩
    split_ifs <;> exact hgrown.bits u

/-! ## The calls of the allocator -/

/-- The calls. `allocate` is called with an empty vector. -/
inductive Call where
  | initAddFree (offset length : ℕ)
  | initRmFree (offset length : ℕ)
  | allocate (want unit maxAllocSize : ℕ) (hint : ℤ)
  | release (releaseSet : List Interval)
  | claimFreeToLeft (offset : ℕ)
  | claimFreeToRight (offset : ℕ)

/-- The allocator after a call. -/
def step (s : State) : Call → Option State
  | .initAddFree offset length => s.initAddFree offset length
  | .initRmFree offset length => s.initRmFree offset length
  | .allocate want unit maxAllocSize hint =>
    (s.allocate want unit maxAllocSize hint []).map fun r => r.2.1
  | .release releaseSet => s.release releaseSet
  | .claimFreeToLeft offset => (s.claimFreeToLeft offset).map Prod.snd
  | .claimFreeToRight offset => (s.claimFreeToRight offset).map Prod.snd

/-- The size of a unit stays. -/
theorem granularity_initAddFree {s s' : State} {offset length : ℕ}
    (h : s.initAddFree offset length = some s') : s'.granularity = s.granularity := by
  unfold State.initAddFree at h
  simp only at h
  split_ifs at h <;> obtain rfl := Option.some.inj h
  · rfl
  · rfl
  · exact (sameL0_markFreeL1L0 s _ _).granularity

/-- The size of a unit stays. -/
theorem granularity_markL2OnL1 {s s' : State} {a b : ℕ} (h : s.markL2OnL1 a b = some s') :
    s'.granularity = s.granularity := by
  rw [(markL2OnL1_eq_some h).2.1]

/-- The size of a unit stays. -/
theorem granularity_markAllocated {s s' : State} {offset len : ℕ}
    (h : s.markAllocated offset len = some s') : s'.granularity = s.granularity := by
  obtain ⟨t, ht, h⟩ := Option.bind_eq_some_iff.mp h
  split_ifs at h
  obtain rfl := Option.some.inj h
  exact (granularity_markL2OnL1 ht).trans (sameL0_markAllocL1L0 s _ _).granularity

/-- The size of a unit stays. -/
theorem granularity_initRmFree {s s' : State} {offset length : ℕ}
    (h : s.initRmFree offset length = some s') : s'.granularity = s.granularity := by
  unfold State.initRmFree at h
  simp only at h
  split_ifs at h
  · exact Option.some.inj h ▸ rfl
  · exact Option.some.inj h ▸ rfl
  · exact granularity_markAllocated h

/-- The size of a unit stays. -/
theorem granularity_release {s s' : State} {rr : List Interval} (h : s.release rr = some s') :
    s'.granularity = s.granularity := by
  unfold State.release at h
  split_ifs at h with hall
  obtain rfl := Option.some.inj h
  show (rr.foldl _ s).granularity = s.granularity
  clear h hall
  induction rr generalizing s with
  | nil => rfl
  | cons r rr ih =>
    rw [List.foldl_cons, ih]
    exact (sameL0_markFreeL1L0 s _ _).granularity

/-- The summaries are true, and a unit is a power of two. -/
structure Valid (s : State) : Prop where
  consistent : Consistent s
  granularity : ∃ k, s.granularity = 2 ^ k

/-- The assertions of `allocate`. -/
theorem admissible_of_allocate (h : Valid s) {extents : List PExtent} {r : ℤ × State × List PExtent}
    (hr : s.allocate want unit maxAllocSize hint extents = some r) : Admissible s want unit := by
  have hargs : isp2 unit ∧ want % unit = 0 ∧ s.granularity ≤ unit := by
    by_contra hnot
    rw [State.allocate, if_neg hnot] at hr
    cases hr
  exact ⟨h.granularity, hargs.1, hargs.2.2, Nat.dvd_of_mod_eq_zero hargs.2.1⟩

/-- Every call leaves the allocator valid. -/
theorem valid_step {s s' : State} (h : Valid s) (c : Call) (hs : step s c = some s') : Valid s' := by
  obtain ⟨hc, k, hk⟩ := h
  cases c with
  | initAddFree offset length =>
    exact ⟨hc.initAddFree hs, k, (granularity_initAddFree hs).trans hk⟩
  | initRmFree offset length =>
    exact ⟨hc.initRmFree hs, k, (granularity_initRmFree hs).trans hk⟩
  | allocate want unit maxAllocSize hint =>
    obtain ⟨⟨r, t, res⟩, ht, rfl⟩ := Option.map_eq_some_iff.mp hs
    obtain ⟨hc', hdev, -⟩ := allocate_took hc (admissible_of_allocate ⟨hc, k, hk⟩ ht) ht
    exact ⟨hc', k, hdev.granularity.trans hk⟩
  | release releaseSet =>
    exact ⟨hc.release hs, k, (granularity_release hs).trans hk⟩
  | claimFreeToLeft offset =>
    obtain ⟨⟨a, t⟩, ht, rfl⟩ := Option.map_eq_some_iff.mp hs
    obtain ⟨hc', hsame, -⟩ := hc.claimFreeToLeft ht
    exact ⟨hc', k, hsame.granularity.trans hk⟩
  | claimFreeToRight offset =>
    obtain ⟨⟨a, t⟩, ht, rfl⟩ := Option.map_eq_some_iff.mp hs
    obtain ⟨hc', hsame, -⟩ := hc.claimFreeToRight ht
    exact ⟨hc', k, hsame.granularity.trans hk⟩

/-- A new allocator is valid. -/
theorem valid_create {capacity allocUnit : ℕ} (h : isp2 allocUnit = true) :
    Valid (create capacity allocUnit) := by
  obtain ⟨k, rfl⟩ := exists_two_pow_of_isp2 h
  exact ⟨consistent_create (Nat.two_pow_pos k), k, rfl⟩

/-- Every state that calls lead to is valid. -/
theorem valid_exec {capacity allocUnit : ℕ} (h : isp2 allocUnit = true) {calls : List Call}
    {s : State} (hrun : Runs.exec step (create capacity allocUnit) calls = some s) : Valid s :=
  Runs.exec_invariant (fun _ c _ hs _ hstep => valid_step hs c hstep) calls _ _ (valid_create h)
    (Runs.meets_of_forall (fun _ _ => trivial) _ _) hrun

/-! ## Completeness -/

/-- The free units of the device. -/
def freeUnits (s : State) : List ℕ := setBits s.l0 0 (131072 * s.entries)

/-- The bytes that are free. -/
def freeBytes (s : State) : ℕ := s.granularity * s.freeUnits.length

/-- A call with the granularity as its unit, and no longest extent, returns what is asked for or all
that is free, and `-ENOSPC` when something is asked for and nothing is free. -/
def Completes (s : State) (want : ℕ) (hint : ℤ) : Prop :=
  ∃ s' res, s.allocate want s.granularity 0 hint [] =
    some (if 0 < want ∧ s.freeBytes = 0 then -28 else ((min want s.freeBytes : ℕ) : ℤ), s', res)

/-- A call asks for something, it does not go wrong beyond a word of `l2`, a unit fits in an extent,
and the scan comes to enough free units, or to all of them. -/
def ComesToEnough (s : State) (want : ℕ) (hint : ℤ) : Prop :=
  0 < want ∧ s.EndsWell want hint ∧ (s.freeUnits = [] ∨ s.granularity < 0x100000000) ∧
    (want / s.granularity ≤ (reach s.l0 (plan s (s.startPos hint))).length ∨
      (reach s.l0 (plan s (s.startPos hint))).length = s.freeUnits.length)

/-- A call comes to free units only. -/
theorem reach_le_freeUnits (hc : Consistent s) (pos : ℕ) :
    (reach s.l0 (plan s pos)).length ≤ s.freeUnits.length := by
  refine (List.Nodup.subperm (nodup_reach (plan_firsts s pos).1) fun u hu => ?_).length_le
  exact mem_setBits.mpr ⟨⟨Nat.zero_le u, hc.l0 u (mem_reach hu)⟩, mem_reach hu⟩

/-- A call in the allocator's own units is admissible. -/
theorem Admissible.granularity_unit (hv : Valid s) (hwant : s.granularity ∣ want) :
    Admissible s want s.granularity := by
  obtain ⟨k, hk⟩ := hv.granularity
  refine ⟨⟨k, hk⟩, ?_, le_refl _, hwant⟩
  rw [hk]
  simp only [Blk.isp2, decide_eq_true_eq]
  exact ⟨Nat.two_pow_pos k, Nat.and_two_pow_sub_one_eq_mod .. ▸ by simp⟩

/-- A call takes what it is asked for, or all that it comes to. -/
theorem target_length (s : State) (want : ℕ) (hint : ℤ) : (s.target want hint).length =
    min (want / s.granularity) (reach s.l0 (plan s (s.startPos hint))).length := by
  rw [target, List.length_take]

/-- What a call returns whose extents are the units that it comes to. -/
theorem result_of_cover {o' : Out} {maxLength : ℕ} {bits : ℕ → Bool} {t : List ℕ}
    (hwf : Wf s.granularity maxLength bits o') (h : cover s.granularity o'.res = t) :
    resultOf o'.allocated = resultOf (s.granularity * t.length) := by
  rw [hwf.count, h]

/-- A call is complete exactly when the scan comes to enough. -/
theorem completes_iff (hv : Valid s) (hwant : s.granularity ∣ want) :
    s.Completes want hint ↔ s.ComesToEnough want hint := by
  have hc := hv.consistent
  have hg := hc.granularity
  have ha := Admissible.granularity_unit hv hwant
  have L := ha.lengths 0
  have hle := reach_le_freeUnits hc (s.startPos hint)
  have hlen := target_length s want hint
  obtain ⟨n, hn⟩ := hwant
  have hdiv : want / s.granularity = n := by rw [hn, Nat.mul_div_cancel_left _ hg]
  have hmin : min want s.freeBytes = s.granularity * min n s.freeUnits.length := by
    rw [hn, freeBytes, Nat.mul_min_mul_left]
  unfold ComesToEnough
  rw [hdiv] at hlen ⊢
  -- `R` counts what the scan comes to and `F` what is free.
  generalize hR : (reach s.l0 (plan s (s.startPos hint))).length = R at hle hlen ⊢
  generalize hF : s.freeUnits.length = F at hle hmin ⊢
  have hwantpos : 0 < want ↔ 0 < n := by
    rw [hn]
    exact Nat.mul_pos_iff_of_pos_left hg
  have hfree : s.freeBytes = 0 ↔ F = 0 := by
    rw [freeBytes, hF]
    exact Nat.mul_eq_zero.trans (or_iff_right hg.ne')
  have hif : ∀ x : ℤ, (if 0 < want ∧ s.freeBytes = 0 then -28 else x) =
      if 0 < want ∧ F = 0 then -28 else x := fun x => if_congr (and_congr_right fun _ => hfree) rfl rfl
  have hnil : s.freeUnits = [] ↔ F = 0 := by rw [← hF, List.length_eq_zero_iff]
  have hresult : ∀ t : ℕ, resultOf (s.granularity * t) =
      if t = 0 then -28 else ((s.granularity * t : ℕ) : ℤ) := fun t => by
    unfold resultOf
    rcases Nat.eq_zero_or_pos t with rfl | ht
    · simp
    · rw [if_pos (Nat.mul_pos hg ht), if_neg ht.ne']
  -- A call that returns what was wanted has come to it.
  constructor
  · rintro ⟨s', res, hcall⟩
    obtain ⟨-, -, o', rfl, hr, htook, hends⟩ := allocate_took hc ha hcall
    have hgrown := htook.single rfl
    have hcover : cover s.granularity o'.res = s.target want hint := hgrown.cover
    rw [result_of_cover htook.wf hcover, hlen, hresult, hmin, hif] at hr
    have hpos : 0 < want := by
      by_contra h0
      have hn0 : n = 0 := by omega
      rw [if_neg (by omega), hn0, Nat.zero_min, Nat.zero_min, Nat.mul_zero, if_pos rfl] at hr
      cases hr
    -- A block of 4 GiB or more has no length to return.
    have hfits : 0 < F → s.granularity < 0x100000000 := fun hF0 => by
      by_contra hbig
      have hres : o'.res = [] := htook.wf.ok.long.resolve_left fun h => by
        have := L.le
        omega
      have hzero : (s.target want hint).length = 0 := by rw [← hcover, hres]; rfl
      rw [hlen] at hzero
      rw [if_neg (by omega), if_pos hzero] at hr
      have hcast : (0 : ℤ) ≤ ((s.granularity * min n F : ℕ) : ℤ) := Int.natCast_nonneg _
      omega
    refine ⟨hpos, hends hgrown, ?_, ?_⟩
    · rw [hnil]
      exact (Nat.eq_zero_or_pos F).imp_right hfits
    · rcases Nat.eq_zero_or_pos F with h0 | h0
      · omega
      · rw [if_neg (by omega)] at hr
        have hpos' : 0 < s.granularity * min n F := Nat.mul_pos hg (by omega)
        rcases Nat.eq_zero_or_pos (min n R) with hz | hz
        · rw [if_pos hz] at hr
          omega
        · rw [if_neg hz.ne'] at hr
          have heq := Nat.eq_of_mul_eq_mul_left hg (Int.ofNat.inj hr)
          omega
  -- Conversely a scan that comes to enough loses nothing on the way.
  · rintro ⟨hpos, hends, hfits, henough⟩
    have hgood : Good s.granularity s.granularity (maxLengthOf s.granularity 0)
        (s.target want hint) ⟨0, []⟩ := by
      refine ⟨?_, fun e he => (by cases he), ?_⟩
      · rw [Nat.div_self hg]
        exact blockClosed_one _
      · rw [Nat.div_self hg]
        rcases hfits with h0 | hlt
        · refine .inl (List.length_eq_zero_iff.mp ?_)
          rw [hnil] at h0
          omega
        · refine .inr ⟨?_, one_dvd _⟩
          rcases L.long with h | h <;> omega
    obtain ⟨r, s', res, hcall, hcover, -, -⟩ := allocate_good hc ha hgood hends
    refine ⟨s', res, ?_⟩
    obtain ⟨-, -, o', hres, hr, htook, -⟩ := allocate_took hc ha hcall
    subst hres
    rw [hcall, hr, result_of_cover htook.wf hcover, hlen, hresult, hmin, hif]
    congr 2
    rcases Nat.eq_zero_or_pos F with h0 | h0
    · rw [if_pos (by omega), if_pos ⟨hpos, h0⟩]
    · rw [if_neg (by omega), if_neg (by omega)]
      congr 2
      omega

/-- A call for nothing takes nothing. -/
theorem allocate_nothing (hv : Valid s) (hint : ℤ) :
    ∃ s', s.allocate 0 s.granularity 0 hint [] = some (-28, s', []) ∧ s'.l0 = s.l0 := by
  have hc := hv.consistent
  have ha := Admissible.granularity_unit hv (dvd_zero s.granularity)
  have htarget : s.target 0 hint = [] := by rw [target, Nat.zero_div, List.take_zero]
  have hgood : Good s.granularity s.granularity (maxLengthOf s.granularity 0)
      (s.target 0 hint) ⟨0, []⟩ := by
    rw [htarget]
    exact ⟨fun u hu => (by cases hu), fun e he => (by cases he), .inl rfl⟩
  have hends : s.EndsWell 0 hint := by
    rw [EndsWell, Nat.zero_div]
    exact .inl (Nat.zero_le _)
  obtain ⟨r, s', res, hcall, hcover, hbits, -⟩ := allocate_good hc ha hgood hends
  obtain ⟨-, -, o', rfl, hr, htook, -⟩ := allocate_took hc ha hcall
  rw [htarget] at hcover hbits
  have hres : o'.res = [] := by
    refine List.eq_nil_iff_forall_not_mem.mpr fun e he => ?_
    obtain ⟨-, ⟨l, hl⟩, hpos, -⟩ := htook.wf.ok.extents e he
    have hlen := List.flatMap_eq_nil_iff.mp hcover e he
    rw [hl, Nat.mul_div_cancel_left _ hc.granularity, List.range'_eq_nil_iff] at hlen
    rw [hl, hlen, Nat.mul_zero] at hpos
    exact lt_irrefl 0 hpos
  refine ⟨s', ?_, funext fun u => by rw [hbits]; simp⟩
  rw [hcall, hr, hres, htook.wf.count, hcover]
  rfl

/-- A call for nothing returns `-ENOSPC`; a call for something returns all that is asked for, or all
that is free, when the scan comes to enough. -/
theorem allocate_completes {capacity allocUnit : ℕ} (hunit : isp2 allocUnit = true)
    {calls : List Call} {s : State}
    (hrun : Runs.exec step (create capacity allocUnit) calls = some s) {want : ℕ}
    (hwant : s.granularity ∣ want) (hint : ℤ) :
    (want = 0 → ∃ s', s.allocate want s.granularity 0 hint [] = some (-28, s', []) ∧
      s'.l0 = s.l0) ∧
    (s.ComesToEnough want hint → s.Completes want hint) := by
  have hv := valid_exec hunit hrun
  refine ⟨?_, (completes_iff hv hwant).mpr⟩
  rintro rfl
  exact allocate_nothing hv hint

/-- A device after `_mark_free`. -/
theorem markFree_eq (s : State) (offset len : ℕ) :
    SameDevice s (s.markFree offset len) ∧ (s.markFree offset len).lastPos = s.lastPos ∧
      ∀ b, (s.markFree offset len).l2 b =
        if s.l2First offset ≤ b ∧ b < s.l2Last (offset + len) then true else s.l2 b := by
  have hsame := sameL0_markFreeL1L0 s (offset / s.granularity)
    (roundUp (offset + len) s.granularity / s.granularity)
  have hgran : (s.freeL1 offset len).granularity = s.granularity := hsame.granularity
  refine ⟨⟨hsame.1, hsame.2, hsame.3, hsame.4⟩, hsame.8, fun b => ?_⟩
  show ((s.freeL1 offset len).markL2Free ((s.freeL1 offset len).l2First offset)
    ((s.freeL1 offset len).l2Last (offset + len))).l2 b = _
  rw [markL2Free_l2, l2First_congr hgran, l2Last_congr hgran]
  exact if_congr Iff.rfl rfl (congrFun hsame.l2 b)

/-- A device of eight units that are free. -/
def eight : State := (create 8 1).markFree 0 8

/-- The eight units are valid. -/
theorem valid_eight : Valid eight :=
  have hs : step (create 8 1) (.initAddFree 0 8) = some eight := rfl
  valid_step (valid_create (by decide)) _ hs

/-- The call for half of them is right if it comes to enough. -/
theorem allocate_completes_eight :
    (4 = 0 → ∃ s', eight.allocate 4 eight.granularity 0 0 [] = some (-28, s', []) ∧
      s'.l0 = eight.l0) ∧
    (eight.ComesToEnough 4 0 → eight.Completes 4 0) :=
  have hunit : isp2 1 = true := by decide
  have hrun : Runs.exec step (create 8 1) [.initAddFree 0 8] = some eight := rfl
  allocate_completes hunit hrun ⟨4, rfl⟩ 0

/-- A device of 128 L2 entries, two words of them, all of it free. -/
def twoWords : State := (create 0x1000000 1).markFree 0 0x1000000

/-- The L2 entries of two words. -/
theorem twoWords_l2 : twoWords.l2 = fun b => decide (b < 128) := by
  funext b
  have hl2 : twoWords.l2 b = if 0 ≤ b ∧ b < 128 then true else false :=
    (markFree_eq (create 0x1000000 1) 0 0x1000000).2.2 b
  rw [hl2]
  by_cases hb : b < 128 <;> simp [hb]

set_option maxRecDepth 8192 in
/-- The plan comes to the entries of both words, and then beyond them. -/
theorem twoWords_plan : (firsts (plan twoWords 0)).length = 128 ∧
    beyondOf (plan twoWords 0) = some 128 := by
  have hslots : twoWords.l2Slots = 2 := (markFree_eq (create 0x1000000 1) 0 0x1000000).1.l2Slots
  unfold plan
  rw [twoWords_l2, hslots]
  exact ⟨by decide, by decide⟩

/-- The free units under entries are no more than these have. -/
theorem length_flatMap_freeUnder (bits : ℕ → Bool) : ∀ bs : List ℕ,
    (bs.flatMap (freeUnder bits)).length ≤ 131072 * bs.length
  | [] => le_refl _
  | b :: bs => by
    have hle : (freeUnder bits b).length ≤ 131072 := by
      refine (List.length_filter_le _ _).trans ?_
      rw [List.length_range', Nat.add_sub_cancel_left]
    have hrest := length_flatMap_freeUnder bits bs
    rw [List.flatMap_cons, List.length_append, List.length_cons]
    omega

/-- For nothing the call does not return 0. For more than is free it does not return what is free,
on a device of two words: it reads behind the last entry. -/
theorem not_completes : ¬ eight.Completes 0 0 ∧ ¬ twoWords.Completes 0x1000001 0 := by
  constructor
  · rintro ⟨s', res, hcall⟩
    obtain ⟨t, ht, -⟩ := allocate_nothing valid_eight 0
    rw [ht] at hcall
    simp at hcall
  · have hs : step (create 0x1000000 1) (.initAddFree 0 0x1000000) = some twoWords := rfl
    have hv : Valid twoWords := valid_step (valid_create (by decide)) _ hs
    obtain ⟨hdev, hlast, -⟩ := markFree_eq (create 0x1000000 1) 0 0x1000000
    have hentries : twoWords.entries = 128 := hdev.entries
    have hgran : twoWords.granularity = 1 := hdev.granularity
    have hpos : twoWords.startPos 0 = 0 := by
      have hzero : twoWords.lastPos = 0 := hlast
      unfold startPos
      rw [if_neg (lt_irrefl 0), hzero]
      exact ite_self 0
    rw [completes_iff hv (hgran ▸ one_dvd _)]
    rintro ⟨-, hends, -⟩
    obtain ⟨hfirsts, hbeyond⟩ := twoWords_plan
    have hle := length_flatMap_freeUnder twoWords.l0 (firsts (plan twoWords 0))
    rw [EndsWell, hpos, hentries, hgran, Nat.div_one] at hends
    rcases hends with h | h | ⟨b, hb, hlt, -⟩
    · omega
    · rw [hbeyond] at h
      cases h
    · rw [hbeyond, Option.some.injEq] at hb
      omega

/-! ## Soundness -/

/-- Two extents have no byte in common. -/
def PExtent.Apart (a b : PExtent) : Prop :=
  a.offset + a.length ≤ b.offset ∨ b.offset + b.length ≤ a.offset

/-- What a call for `want` bytes in units of `unit` returned, and what it did to the units. -/
structure SoundCall (s : State) (want unit maxAllocSize : ℕ) (r : ℤ) (s' : State)
    (res : List PExtent) : Prop where
  /-- The extents are aligned. -/
  aligned : ∀ e ∈ res, unit ∣ e.offset ∧ unit ∣ e.length ∧ 0 < e.length
  /-- None is longer than what the caller allows. -/
  short : unit ≤ maxAllocSize → ∀ e ∈ res, e.length ≤ maxAllocSize
  /-- They were free. -/
  free : ∀ u ∈ cover s.granularity res, s.l0 u = true
  /-- They are disjoint. -/
  disjoint : res.Pairwise PExtent.Apart
  /-- Their length is what is returned, and no more than what was asked for. -/
  total : (res = [] ∧ r = -28) ∨ (res ≠ [] ∧ r = ((res.map PExtent.length).sum : ℕ))
  le : (res.map PExtent.length).sum ≤ want
  /-- Exactly their units are no longer free. -/
  marked : ∀ u, s'.l0 u = (s.l0 u && decide (u ∉ cover s.granularity res))

/-- A call returns, and is sound. -/
def Sound (s : State) (want unit maxAllocSize : ℕ) (hint : ℤ) : Prop :=
  ∃ r s' res, s.allocate want unit maxAllocSize hint [] = some (r, s', res) ∧
    SoundCall s want unit maxAllocSize r s' res

/-- A call does not go wrong beyond a word of `l2`, and the units that it comes to are whole blocks
of the caller's unit, which fits in an extent and is no larger than an L1 entry. -/
def ComesToBlocks (s : State) (want unit : ℕ) (hint : ℤ) : Prop :=
  s.EndsWell want hint ∧ (s.target want hint = [] ∨
    (unit < 0x100000000 ∧ unit ≤ bitsPerSlotset * s.granularity ∧
      BlockClosed (unit / s.granularity) (s.target want hint)))

/-- The bytes of extents of whole units. -/
theorem sum_length {g : ℕ} (hg : 0 < g) : ∀ res : List PExtent, (∀ e ∈ res, g ∣ e.length) →
    (res.map PExtent.length).sum = g * (cover g res).length
  | [], _ => rfl
  | e :: res, h => by
    have hrest := sum_length hg res fun a ha => h a (List.mem_cons_of_mem e ha)
    have hcons : cover g (e :: res) = List.range' (e.offset / g) (e.length / g) ++ cover g res := rfl
    rw [List.map_cons, List.sum_cons, hrest, hcons, List.length_append, List.length_range',
      Nat.mul_add, Nat.mul_div_cancel' (h e List.mem_cons_self)]

/-- Extents of whole units that have no unit in common are apart. -/
theorem pairwise_apart {g : ℕ} (hg : 0 < g) {res : List PExtent}
    (hdvd : ∀ e ∈ res, g ∣ e.offset ∧ g ∣ e.length ∧ 0 < e.length) (hd : (cover g res).Nodup) :
    res.Pairwise PExtent.Apart := by
  refine (List.nodup_flatMap.mp hd).2.imp_of_mem fun {a b} ha hb hab => ?_
  obtain ⟨⟨oa, hoa⟩, ⟨la, hla⟩, hpa⟩ := hdvd a ha
  obtain ⟨⟨ob, hob⟩, ⟨lb, hlb⟩, hpb⟩ := hdvd b hb
  unfold PExtent.Apart
  rw [hoa, hla, hob, hlb, ← Nat.mul_add, ← Nat.mul_add, Nat.mul_le_mul_left_iff hg,
    Nat.mul_le_mul_left_iff hg]
  rw [hla] at hpa
  rw [hlb] at hpb
  have hpa' := Nat.pos_of_mul_pos_left hpa
  have hpb' := Nat.pos_of_mul_pos_left hpb
  by_contra hnot
  push Not at hnot
  refine hab (a := max oa ob) ?_ ?_
  · show max oa ob ∈ List.range' (a.offset / g) (a.length / g)
    rw [hoa, hla, Nat.mul_div_cancel_left _ hg, Nat.mul_div_cancel_left _ hg, List.mem_range'_1]
    omega
  · show max oa ob ∈ List.range' (b.offset / g) (b.length / g)
    rw [hob, hlb, Nat.mul_div_cancel_left _ hg, Nat.mul_div_cancel_left _ hg, List.mem_range'_1]
    omega

/-- The units of aligned extents are whole blocks. -/
theorem blockClosed_cover {g unit : ℕ} (hg : 0 < g) (hdvd : g ∣ unit) {res : List PExtent}
    (h : ∀ e ∈ res, unit ∣ e.offset ∧ unit ∣ e.length) :
    BlockClosed (unit / g) (cover g res) := by
  obtain ⟨m, rfl⟩ := hdvd
  rw [Nat.mul_div_cancel_left _ hg]
  intro u hu v hv
  obtain ⟨e, he, hue⟩ := List.mem_flatMap.mp hu
  obtain ⟨⟨o, ho⟩, ⟨l, hl⟩⟩ := h e he
  refine List.mem_flatMap.mpr ⟨e, he, ?_⟩
  rw [ho, hl, Nat.mul_assoc, Nat.mul_assoc, Nat.mul_div_cancel_left _ hg,
    Nat.mul_div_cancel_left _ hg] at hue ⊢
  exact blockClosed_run (dvd_mul_right m o) (dvd_mul_right m l) u hue v hv

/-- No extent is longer than the caller allows. -/
theorem maxLengthOf_le (h : unit ≤ maxAllocSize) (hu : 0 < unit) :
    maxLengthOf unit maxAllocSize ≤ maxAllocSize := by
  have hdown : ∀ m : ℕ, alignDown m unit ≤ m := fun m => Nat.div_mul_le_self m unit
  unfold maxLengthOf
  simp only
  split_ifs with h1 h2 h2
  · exact h
  · have hle := hdown 0x80000000
    omega
  · exact h
  · exact hdown _

/-- Whole blocks can be made into extents. -/
theorem ComesToBlocks.good (ha : Admissible s want unit) (maxAllocSize : ℕ)
    (h : s.ComesToBlocks want unit hint) :
    Good s.granularity unit (maxLengthOf unit maxAllocSize) (s.target want hint) ⟨0, []⟩ := by
  have L := ha.lengths maxAllocSize
  rcases h.2 with hnil | ⟨hfits, hle, hclosed⟩
  · rw [hnil]
    exact ⟨fun u hu => (by cases hu), fun e he => (by cases he), .inl rfl⟩
  · refine ⟨hclosed, fun e he => (by cases he), .inr ⟨?_, ?_⟩⟩
    · rcases L.long with h | h <;> omega
    · -- Both are powers of two.
      obtain ⟨k, hk⟩ := ha.granularity
      obtain ⟨j, hj⟩ := exists_two_pow_of_isp2 ha.isp2
      rw [hk, hj] at hle ⊢
      have hkj : k ≤ j := (Nat.pow_le_pow_iff_right (by norm_num)).mp (hk ▸ hj ▸ ha.le)
      rw [Nat.pow_div hkj (by norm_num)]
      have h9 : j ≤ 9 + k := by
        rw [show bitsPerSlotset = 2 ^ 9 from rfl, ← Nat.pow_add] at hle
        exact (Nat.pow_le_pow_iff_right (by norm_num)).mp hle
      exact Nat.pow_dvd_pow 2 (show j - k ≤ 9 by omega)

/-- A call is sound exactly when the units that the scan comes to are whole blocks. -/
theorem sound_iff (hv : Valid s) (ha : Admissible s want unit) :
    s.Sound want unit maxAllocSize hint ↔ s.ComesToBlocks want unit hint := by
  have hc := hv.consistent
  have hg := hc.granularity
  have L := ha.lengths maxAllocSize
  constructor
  -- A call that comes back with what it says has covered the units exactly.
  · rintro ⟨r, s', res, hcall, hsound⟩
    obtain ⟨-, -, o', rfl, -, htook, hends⟩ := allocate_took hc ha hcall
    have hgrown := htook.outcome.resolve_right fun ⟨u, hb, hb', hu⟩ => by
      rw [hsound.marked, hb, Bool.true_and, decide_eq_true hu] at hb'
      cases hb'
    have hcover : cover s.granularity o'.res = s.target want hint := hgrown.cover
    refine ⟨hends hgrown, ?_⟩
    rcases List.eq_nil_or_concat o'.res with hnil | ⟨init, last, hne⟩
    · rw [← hcover, hnil]
      exact .inl rfl
    · have hne' : o'.res ≠ [] := by rw [hne]; simp
      refine .inr ⟨?_, ?_, ?_⟩
      · have hlong := htook.wf.ok.long.resolve_right hne'
        have hle := L.le
        omega
      · by_contra hbig
        refine hne' (htook.short ?_ rfl)
        rw [Nat.mul_comm]
        exact not_le.mp hbig
      · rw [← hcover]
        exact blockClosed_cover hg L.dvd fun e he =>
          ⟨(hsound.aligned e he).1, (hsound.aligned e he).2.1⟩
  -- Whole blocks leave nothing uncovered.
  · rintro ⟨hends, hblocks⟩
    have hgood := ComesToBlocks.good ha maxAllocSize ⟨hends, hblocks⟩
    obtain ⟨r, s', res, hcall, hcover, hbits, hal⟩ := allocate_good hc ha hgood hends
    obtain ⟨-, -, o', rfl, hr, htook, -⟩ := allocate_took hc ha hcall
    have hext := htook.wf.ok.extents
    have hsum := sum_length hg o'.res fun e he => (hext e he).2.1
    have hd : (cover s.granularity o'.res).Nodup := by
      rw [hcover]
      exact (nodup_reach (plan_firsts s _).1).sublist (List.take_sublist _ _)
    refine ⟨r, s', o'.res, hcall, ?_, fun hle e he => ?_, fun u hu => ?_, ?_, ?_, ?_, fun u => ?_⟩
    · exact fun e he => ⟨(hal e he).1, (hal e he).2, (hext e he).2.2.1⟩
    · exact (hext e he).2.2.2.trans (maxLengthOf_le hle L.pos)
    · rw [hcover] at hu
      exact mem_reach (List.mem_of_mem_take hu)
    · exact pairwise_apart hg (fun e he => ⟨(hext e he).1, (hext e he).2.1, (hext e he).2.2.1⟩) hd
    · rw [hr, resultOf, htook.wf.count, ← hsum]
      rcases List.eq_nil_or_concat o'.res with hnil | ⟨init, last, hres⟩
      · exact .inl ⟨hnil, by rw [hnil]; rfl⟩
      · have hpos : 0 < (o'.res.map PExtent.length).sum := by
          rw [hres, List.concat_eq_append, List.map_append, List.sum_append]
          have hlast := (hext last (by rw [hres]; simp)).2.2.1
          simp only [List.map_cons, List.map_nil, List.sum_cons, List.sum_nil]
          omega
        exact .inr ⟨by rw [hres]; simp, if_pos hpos⟩
    · rw [hsum, hcover, target_length]
      calc s.granularity * min (want / s.granularity) _
          ≤ s.granularity * (want / s.granularity) := Nat.mul_le_mul_left _ (min_le_left _ _)
        _ ≤ want := Nat.mul_div_le _ _
    · rw [hcover]
      exact hbits u

/-- A call is sound exactly when it does not go wrong beyond a word of `l2`, and what it comes to is
whole blocks of its unit. -/
theorem allocate_sound_iff {capacity allocUnit : ℕ} (hunit : isp2 allocUnit = true)
    {calls : List Call} {s : State}
    (hrun : Runs.exec step (create capacity allocUnit) calls = some s) {want unit : ℕ}
    (hisp2 : isp2 unit = true) (hle : s.granularity ≤ unit) (hdvd : unit ∣ want)
    (maxAllocSize : ℕ) (hint : ℤ) :
    s.Sound want unit maxAllocSize hint ↔ s.ComesToBlocks want unit hint := by
  have hv := valid_exec hunit hrun
  exact sound_iff hv ⟨hv.granularity, hisp2, hle, hdvd⟩

/-- The call for half of the eight units is sound if it comes to blocks. -/
theorem allocate_sound_iff_eight : eight.Sound 4 2 0 0 ↔ eight.ComesToBlocks 4 2 0 :=
  have hunit : isp2 1 = true := by decide
  have hrun : Runs.exec step (create 8 1) [.initAddFree 0 8] = some eight := rfl
  allocate_sound_iff hunit hrun (by decide) (show 1 ≤ 2 by decide) (by decide) 0 0

/-- A device of eight units, of which the second is free. -/
def oneOfEight : State := (create 8 1).markFree 1 1

/-- One unit is free. -/
theorem oneOfEight_l0 (u : ℕ) : oneOfEight.l0 u = decide (u = 1) := by
  have hl0 : oneOfEight.l0 u = if 1 / 1 ≤ u ∧ 1 * u < 1 + 1 then true else false :=
    freeL1_l0 (s := create 8 1) (by decide) 1 1 u
  rw [hl0]
  by_cases hu : u = 1
  · subst hu
    rfl
  · rw [if_neg (by omega), decide_eq_false hu]

/-- A unit of two does not fit in the one free unit, which is lost. -/
theorem not_sound : ¬ oneOfEight.Sound 2 2 0 0 := by
  have hs : step (create 8 1) (.initAddFree 1 1) = some oneOfEight := rfl
  have hv : Valid oneOfEight := valid_step (valid_create (by decide)) _ hs
  rw [sound_iff hv ⟨hv.granularity, by decide, show 1 ≤ 2 by decide, by decide⟩]
  rintro ⟨-, hblocks⟩
  -- The scan comes to the free unit.
  have hfirst : 0 ∈ firsts (plan oneOfEight 0) := by
    have hl2 : oneOfEight.l2 = fun b => decide (b = 0) := by
      funext b
      have hl2 : oneOfEight.l2 b = if 0 ≤ b ∧ b < 1 then true else false :=
        (markFree_eq (create 8 1) 1 1).2.2 b
      rw [hl2]
      by_cases hb : b = 0
      · subst hb
        rfl
      · rw [if_neg (by omega), decide_eq_false hb]
    have hslots : oneOfEight.l2Slots = 1 := rfl
    unfold plan
    rw [hl2, hslots]
    decide
  have hreach : 1 ∈ reach oneOfEight.l0 (plan oneOfEight 0) :=
    List.mem_append_left _ (List.mem_flatMap.mpr ⟨0, hfirst, mem_freeUnder.mpr
      ⟨⟨by norm_num, by norm_num⟩, oneOfEight_l0 1⟩⟩)
  have honly : ∀ u ∈ reach oneOfEight.l0 (plan oneOfEight 0), u = 1 := fun u hu => by
    have hbit := mem_reach hu
    rw [oneOfEight_l0] at hbit
    exact of_decide_eq_true hbit
  have hsub : (reach oneOfEight.l0 (plan oneOfEight 0)).Subperm [1] :=
    List.Nodup.subperm (nodup_reach (plan_firsts oneOfEight 0).1) fun u hu =>
      List.mem_singleton.mpr (honly u hu)
  have hlen : (reach oneOfEight.l0 (plan oneOfEight 0)).length ≤ 1 := hsub.length_le
  have hpos : oneOfEight.startPos 0 = 0 := rfl
  have hwant : 2 / oneOfEight.granularity = 2 := rfl
  have htarget : oneOfEight.target 2 0 = reach oneOfEight.l0 (plan oneOfEight 0) := by
    rw [target, hpos, hwant]
    exact List.take_of_length_le (by omega)
  rw [htarget] at hblocks
  rcases hblocks with hnil | ⟨-, -, hclosed⟩
  · rw [hnil] at hreach
    cases hreach
  · have hzero := honly 0 (hclosed 1 hreach 0 rfl)
    omega

end State

end CxxLab.Blk.Bitmap
