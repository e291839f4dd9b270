import CxxLab.Lib.Codec

/-!
# Readers

A reader takes a value from the front of a buffer. `Local` says that it does not look at what
follows, so that damage behind the bytes of a value does not change what is read (`Local.bind` and
the rules for the readers of `Codec.lean`); the equations say when a number can be read.
-/

namespace CxxLab.Codec

variable {α β : Type*}

/-- The value is taken from the front, whatever follows. -/
def Local (get : List UInt8 → Option (α × List UInt8)) : Prop :=
  ∀ p v rest, get p = some (v, rest) →
    ∃ c, p = c ++ rest ∧ ∀ rest', get (c ++ rest') = some (v, rest')

/-- A reader that takes nothing looks at nothing. -/
theorem local_pure (v : α) : Local fun p => some (v, p) := by
  intro p w rest h
  obtain ⟨rfl, rfl⟩ := Prod.mk.inj (Option.some.inj h)
  exact ⟨[], rfl, fun _ => rfl⟩

/-- One reader after another. -/
theorem Local.bind {get : List UInt8 → Option (α × List UInt8)}
    {f : α → List UInt8 → Option (β × List UInt8)} (h : Local get) (hf : ∀ v, Local (f v)) :
    Local fun p => (get p).bind fun x => f x.1 x.2 := by
  intro p w rest hread
  obtain ⟨⟨v, q⟩, hget, hrest⟩ := Option.bind_eq_some_iff.mp hread
  obtain ⟨c, rfl, hc⟩ := h p v q hget
  obtain ⟨d, rfl, hd⟩ := hf v q w rest hrest
  refine ⟨c ++ d, (List.append_assoc _ _ _).symm, fun rest' => ?_⟩
  simp only [List.append_assoc, hc, Option.bind_some, hd]

/-- What is made of the value does not matter. -/
theorem Local.map {get : List UInt8 → Option (α × List UInt8)} (h : Local get) (f : α → β) :
    Local fun p => (get p).map fun x => (f x.1, x.2) := by
  intro p w rest hread
  obtain ⟨⟨v, q⟩, hget, heq⟩ := Option.map_eq_some_iff.mp hread
  obtain ⟨rfl, rfl⟩ := Prod.mk.inj heq
  obtain ⟨c, rfl, hc⟩ := h p v q hget
  refine ⟨c, rfl, fun rest' => ?_⟩
  simp only [hc, Option.map_some]

/-- Reading `n` bytes looks at no others. -/
theorem local_getBytes (n : ℕ) : Local (getBytes n) := by
  intro p v rest h
  unfold getBytes at h
  split_ifs at h with hn
  obtain ⟨rfl, rfl⟩ := Prod.mk.inj (Option.some.inj h)
  refine ⟨p.take n, (List.take_append_drop n p).symm, fun rest' => ?_⟩
  exact getBytes_append rest' (by rw [List.length_take, Nat.min_eq_left hn])

/-- Reading a number looks at its bytes only. -/
theorem local_getNat (w : ℕ) : Local (getNat w) := (local_getBytes w).map leNat

/-- Reading a byte looks at that byte only. -/
theorem local_getU8 : Local getU8 := by
  intro p v rest h
  cases p with
  | nil => cases h
  | cons b p =>
    obtain ⟨rfl, rfl⟩ := Prod.mk.inj (Option.some.inj h)
    exact ⟨[b], rfl, fun _ => rfl⟩

/-- Reading 32 bits looks at their bytes only. -/
theorem local_getU32 : Local getU32 := (local_getNat 4).map UInt32.ofNat

/-- Reading 64 bits looks at their bytes only. -/
theorem local_getU64 : Local getU64 := (local_getNat 8).map UInt64.ofNat

/-! ## When there are enough bytes -/

/-- The value has `n` bytes. -/
def TakesBytes (n : ℕ) (get : List UInt8 → Option (α × List UInt8)) : Prop :=
  ∀ p, (n ≤ p.length → ∃ v, get p = some (v, p.drop n)) ∧ (p.length < n → get p = none)

/-- It can be read exactly where there are so many. -/
theorem TakesBytes.exists_iff {n : ℕ} {get : List UInt8 → Option (α × List UInt8)}
    (h : TakesBytes n get) (p : List UInt8) : (∃ x, get p = some x) ↔ n ≤ p.length := by
  constructor
  · rintro ⟨x, hx⟩
    by_contra hlt
    rw [(h p).2 (not_le.mp hlt)] at hx
    cases hx
  · intro hn
    obtain ⟨v, hv⟩ := (h p).1 hn
    exact ⟨_, hv⟩

/-- A reader of nothing takes no bytes. -/
theorem takesBytes_pure (v : α) : TakesBytes 0 fun p => some (v, p) :=
  fun _ => ⟨fun _ => ⟨v, rfl⟩, fun h => absurd h (Nat.not_lt_zero _)⟩

/-- One reader after another. -/
theorem TakesBytes.bind {a b : ℕ} {get : List UInt8 → Option (α × List UInt8)}
    {f : α → List UInt8 → Option (β × List UInt8)} (h : TakesBytes a get)
    (hf : ∀ v, TakesBytes b (f v)) : TakesBytes (a + b) fun p => (get p).bind fun x => f x.1 x.2 := by
  intro p
  have hdrop : (p.drop a).length = p.length - a := List.length_drop
  dsimp only
  constructor
  · intro hle
    obtain ⟨v, hv⟩ := (h p).1 (by omega)
    obtain ⟨w, hw⟩ := (hf v (p.drop a)).1 (by omega)
    refine ⟨w, ?_⟩
    rw [hv, Option.bind_some, hw, List.drop_drop]
  · intro hlt
    rcases lt_or_ge p.length a with hshort | hlong
    · rw [(h p).2 hshort, Option.bind_none]
    · obtain ⟨v, hv⟩ := (h p).1 hlong
      rw [hv, Option.bind_some]
      exact (hf v (p.drop a)).2 (by omega)

/-- What is made of the value does not matter. -/
theorem TakesBytes.map {n : ℕ} {get : List UInt8 → Option (α × List UInt8)} (h : TakesBytes n get)
    (f : α → β) : TakesBytes n fun p => (get p).map fun x => (f x.1, x.2) := by
  intro p
  dsimp only
  constructor
  · intro hle
    obtain ⟨v, hv⟩ := (h p).1 hle
    exact ⟨f v, by rw [hv]; rfl⟩
  · intro hlt
    rw [(h p).2 hlt]
    rfl

/-- Reading `n` bytes takes `n`. -/
theorem takesBytes_getBytes (n : ℕ) : TakesBytes n (getBytes n) :=
  fun p => ⟨fun h => ⟨p.take n, if_pos h⟩, fun h => if_neg (not_le.mpr h)⟩

/-- A byte takes one. -/
theorem takesBytes_getU8 : TakesBytes 1 getU8 := by
  intro p
  cases p with
  | nil => exact ⟨fun h => absurd h (by simp), fun _ => rfl⟩
  | cons b p => exact ⟨fun _ => ⟨b, rfl⟩, fun h => absurd h (by simp)⟩

/-- 32 bits take four bytes. -/
theorem takesBytes_getU32 : TakesBytes 4 getU32 :=
  ((takesBytes_getBytes 4).map leNat).map UInt32.ofNat

/-- 64 bits take eight bytes. -/
theorem takesBytes_getU64 : TakesBytes 8 getU64 :=
  ((takesBytes_getBytes 8).map leNat).map UInt64.ofNat

end CxxLab.Codec
