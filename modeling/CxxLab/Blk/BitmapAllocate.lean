import CxxLab.Blk.BitmapLevels
import CxxLab.Lib.SetBits

/-!
# Allocation in the bitmap

What `_allocate_l0` and `_allocate_l1` take. They take the free units of a range in ascending order,
run by run, and clear the bits of a run whether `_fragment_and_emplace` made extents of all of it or
dropped the end of it. So one of two things is true of any part of an allocation (`Took`): the units
that it came to are in the extents, in order (`Grown`), or some unit is neither free nor in an
extent (`Leaked`), and stays so. The second does not happen when what is taken is whole blocks of
the shortest length, none of which is in two L1 entries (`Good`).
-/

namespace CxxLab.Blk.Bitmap

open SetBits

/-! ## Extents -/

/-- The units of the extents, in order. -/
def cover (g : ℕ) (res : List PExtent) : List ℕ :=
  res.flatMap fun e => List.range' (e.offset / g) (e.length / g)

/-- The units of two lists of extents. -/
theorem cover_append (g : ℕ) (l1 l2 : List PExtent) :
    cover g (l1 ++ l2) = cover g l1 ++ cover g l2 := List.flatMap_append

/-- The lengths that an allocation works with: units of `g`, and extents from `minLength` on. -/
structure Lengths (g minLength maxLength : ℕ) : Prop where
  unit : 0 < g
  dvd : g ∣ minLength
  pos : 0 < minLength
  max : minLength ∣ maxLength
  le : minLength ≤ maxLength
  long : maxLength ≤ 0x80000000 ∨ maxLength = minLength

/-- The extents that an allocation has made; there are none when they do not fit in a `pextent_t`. -/
structure OutOk (g maxLength : ℕ) (o : Out) : Prop where
  extents : ∀ e ∈ o.res, g ∣ e.offset ∧ g ∣ e.length ∧ 0 < e.length ∧ e.length ≤ maxLength
  long : maxLength ≤ 0xFFFFFFFF ∨ o.res = []

/-- The extents are whole blocks. -/
def Aligned (minLength : ℕ) (o : Out) : Prop :=
  ∀ e ∈ o.res, minLength ∣ e.offset ∧ minLength ∣ e.length

/-- The first `k` units from `a` on are added to the extents. -/
structure Added (g maxLength a k : ℕ) (o o' : Out) : Prop where
  allocated : o'.allocated = o.allocated + g * k
  cover : cover g o'.res = cover g o.res ++ List.range' a k
  ok : OutOk g maxLength o'

variable {g minLength maxLength a n k : ℕ} {o o' : Out}

/-- Nothing is added. -/
theorem Added.refl (h : OutOk g maxLength o) (a : ℕ) : Added g maxLength a 0 o o :=
  ⟨by simp, by simp, h⟩

/-- What is added in two parts. -/
theorem Added.trans {o'' : Out} {m : ℕ} (h : Added g maxLength a k o o')
    (h' : Added g maxLength (a + k) m o' o'') : Added g maxLength a (k + m) o o'' where
  allocated := by rw [h'.allocated, h.allocated, Nat.mul_add, Nat.add_assoc]
  cover := by
    rw [h'.cover, h.cover, List.append_assoc, ← List.range'_append_1]
  ok := h'.ok

/-- An extent is added. -/
theorem added_extent (hg : 0 < g) (h : OutOk g maxLength o) (hn : 0 < n) (hmax : g * n ≤ maxLength)
    (hfit : maxLength ≤ 0xFFFFFFFF) :
    Added g maxLength a n o ⟨o.allocated + g * n, o.res ++ [⟨g * a, g * n⟩]⟩ where
  allocated := rfl
  cover := by
    rw [cover_append]
    simp [Bitmap.cover, Nat.mul_div_cancel_left _ hg]
  ok := by
    refine ⟨fun e he => ?_, .inl hfit⟩
    rcases List.mem_append.mp he with he | he
    · exact h.extents e he
    · rw [List.mem_singleton.mp he]
      exact ⟨dvd_mul_right _ _, dvd_mul_right _ _, Nat.mul_pos hg hn, hmax⟩

/-- The last extent grows by what follows it. -/
theorem added_growLast (hg : 0 < g) (h : OutOk g maxLength o) {init : List PExtent} {last : PExtent}
    (hres : o.res = init ++ [last]) (hend : last.offset + last.length = g * a)
    (hmax : last.length + g * n ≤ maxLength) :
    Added g maxLength a n o (State.growLast o last (g * n)) := by
  have hmem : last ∈ o.res := hres ▸ List.mem_append_right _ (List.mem_singleton_self _)
  obtain ⟨⟨la, hla⟩, ⟨ll, hll⟩, hpos, -⟩ := h.extents last hmem
  have hfit : maxLength ≤ 0xFFFFFFFF := h.long.resolve_right (List.ne_nil_of_mem hmem)
  have hmod : (last.length + g * n) % 0x100000000 = g * (ll + n) := by
    rw [Nat.mod_eq_of_lt (by omega), hll, Nat.mul_add]
  have hla' : la + ll = a := by
    rw [hla, hll, ← Nat.mul_add] at hend
    exact Nat.eq_of_mul_eq_mul_left hg hend
  have hgrow : (State.growLast o last (g * n)).res = init ++ [⟨g * la, g * (ll + n)⟩] := by
    show o.res.dropLast ++ [⟨last.offset, (last.length + g * n) % 0x100000000⟩] = _
    rw [hmod, hla, hres, List.dropLast_concat]
  constructor
  case allocated => rfl
  case cover =>
    rw [hgrow, hres, cover_append, cover_append, List.append_assoc]
    congr 1
    simp only [Bitmap.cover, List.flatMap_cons, List.flatMap_nil, List.append_nil, hla, hll,
      Nat.mul_div_cancel_left _ hg]
    rw [← hla', List.range'_append_1]
  case ok =>
    refine ⟨fun e he => ?_, .inl hfit⟩
    rw [hgrow] at he
    rcases List.mem_append.mp he with he | he
    · exact h.extents e (hres ▸ List.mem_append_left _ he)
    · rw [List.mem_singleton.mp he]
      refine ⟨dvd_mul_right _ _, dvd_mul_right _ _, ?_, ?_⟩
      · show 0 < g * (ll + n)
        rw [Nat.mul_add, ← hll]
        omega
      · show g * (ll + n) ≤ maxLength
        rw [Nat.mul_add, ← hll]
        exact hmax

/-- The last extent grows by whole blocks. -/
theorem Aligned.growLast {init : List PExtent} {last : PExtent} {take : ℕ}
    (h : Aligned minLength o) (hres : o.res = init ++ [last])
    (hfit : last.length + take < 0x100000000) (hdvd : minLength ∣ take) :
    Aligned minLength (State.growLast o last take) := by
  have hlast := h last (hres ▸ List.mem_append_right _ (List.mem_singleton_self _))
  have hgrow : (State.growLast o last take).res = init ++ [⟨last.offset, last.length + take⟩] := by
    show o.res.dropLast ++ [⟨last.offset, (last.length + take) % 0x100000000⟩] = _
    rw [hres, List.dropLast_concat, Nat.mod_eq_of_lt hfit]
  intro e he
  rw [hgrow] at he
  rcases List.mem_append.mp he with he | he
  · exact h e (hres ▸ List.mem_append_left _ he)
  · rw [List.mem_singleton.mp he]
    exact ⟨hlast.1, Nat.dvd_add hlast.2 hdvd⟩

/-- What `_fragment_and_emplace` makes of `n` units from `a` on: extents of the first `k`. When the
range is whole blocks, and so are the extents, this is all of them. -/
structure Emplaced (g minLength maxLength a n : ℕ) (o o' : Out) : Prop where
  added : ∃ k ≤ n, Added g maxLength a k o o'
  whole : minLength ∣ g * a → minLength ∣ g * n → Aligned minLength o →
    Added g maxLength a n o o' ∧ Aligned minLength o'

/-- The loop that cuts a range into extents adds its units, and goes through where an extent has
room for them. -/
theorem emplaceChunks_spec (L : Lengths g minLength maxLength) :
    ∀ (fuel a n : ℕ) (o : Out), OutOk g maxLength o → g * n ≤ fuel →
      (∀ o', State.emplaceChunks maxLength minLength fuel (g * a) (g * n) o = some o' →
        Emplaced g minLength maxLength a n o o') ∧
      (maxLength ≤ 0xFFFFFFFF →
        State.emplaceChunks maxLength minLength fuel (g * a) (g * n) o ≠ none)
  | 0, a, n, o, hok, hfuel => by
    have hn : n = 0 := by
      have := L.unit
      by_contra hne
      have := Nat.mul_pos L.unit (Nat.pos_of_ne_zero hne)
      omega
    subst hn
    unfold State.emplaceChunks
    refine ⟨fun o' h => ?_, fun _ => by simp⟩
    obtain rfl := Option.some.inj h
    exact ⟨⟨0, le_refl 0, Added.refl hok a⟩, fun _ _ hal => ⟨Added.refl hok a, hal⟩⟩
  | fuel + 1, a, n, o, hok, hfuel => by
    have hg := L.unit
    have hdone : Emplaced g minLength maxLength a 0 o o :=
      ⟨⟨0, le_refl 0, Added.refl hok a⟩, fun _ _ hal => ⟨Added.refl hok a, hal⟩⟩
    unfold State.emplaceChunks
    -- Nothing is left to cut.
    by_cases hn : 0 < g * n
    swap
    · obtain rfl : n = 0 := by
        by_contra hne
        exact hn (Nat.mul_pos hg (Nat.pos_of_ne_zero hne))
      rw [if_neg hn]
      exact ⟨fun o' h => Option.some.inj h ▸ hdone, fun _ => by simp⟩
    rw [if_pos hn]
    -- The next chunk is `c` units.
    obtain ⟨m, hm⟩ : g ∣ maxLength := L.dvd.trans L.max
    have hmpos : 0 < m := by
      have hpos := L.pos.trans_le L.le
      rw [hm] at hpos
      exact Nat.pos_of_mul_pos_left hpos
    -- The next extent: as long as allowed, or all that is left.
    obtain ⟨c, hc, hcn, hcpos, hcmax, hcases⟩ : ∃ c,
        (if 0 < maxLength ∧ maxLength < g * n then maxLength else g * n) = g * c ∧ c ≤ n ∧ 0 < c ∧
          g * c ≤ maxLength ∧ (g * c = maxLength ∨ c = n) := by
      by_cases hlong : 0 < maxLength ∧ maxLength < g * n
      · refine ⟨m, by rw [if_pos hlong, hm], ?_, hmpos, hm.ge, .inl hm.symm⟩
        rw [hm] at hlong
        exact (Nat.lt_of_mul_lt_mul_left hlong.2).le
      · refine ⟨n, by rw [if_neg hlong], le_refl n, Nat.pos_of_mul_pos_left hn, ?_, .inr rfl⟩
        have := L.pos.trans_le L.le
        omega
    simp only [hc]
    -- An extent shorter than the minimum would be left out.
    by_cases hshort : 0 < minLength ∧ g * c < minLength
    · rw [if_pos hshort]
      refine ⟨fun o' h => ?_, fun _ => by simp⟩
      obtain rfl := Option.some.inj h
      refine ⟨⟨0, Nat.zero_le n, Added.refl hok a⟩, fun _ hdvd _ => ?_⟩
      -- A whole block is not too short.
      rcases hcases with heq | rfl
      · exact absurd (heq ▸ L.le) (not_le.mpr hshort.2)
      · exact absurd (Nat.le_of_dvd hn hdvd) (not_le.mpr hshort.2)
    rw [if_neg hshort]
    -- An extent of 4 GiB or more has no length.
    by_cases hfit : g * c ≤ 0xFFFFFFFF
    swap
    · rw [if_neg hfit]
      exact ⟨fun o' h => (by cases h), fun hmax => absurd (hcmax.trans hmax) hfit⟩
    rw [if_pos hfit]
    have hmax : maxLength ≤ 0xFFFFFFFF := by
      rcases L.long with hle | heq
      · omega
      · have := L.pos
        omega
    have hadd := added_extent (a := a) hg hok hcpos hcmax hmax
    have hrest := emplaceChunks_spec L fuel (a + c) (n - c) _ hadd.ok (by
      have hle : g * (n - c + 1) ≤ g * n := Nat.mul_le_mul_left g (by omega)
      rw [Nat.mul_add] at hle
      omega)
    rw [Nat.mul_add, Nat.mul_sub] at hrest
    refine ⟨fun o' h => ?_, fun _ => hrest.2 hmax⟩
    obtain ⟨⟨k, hk, hadd'⟩, hwhole⟩ := hrest.1 o' h
    refine ⟨⟨c + k, by omega, hadd.trans hadd'⟩, fun ha hdvd hal => ?_⟩
    -- The chunk is whole blocks, and so is the rest.
    have hdvdc : minLength ∣ g * c := by
      rcases hcases with heq | rfl
      · exact heq ▸ L.max
      · exact hdvd
    obtain ⟨hall, hal'⟩ := hwhole (by rw [Nat.mul_add]; exact Nat.dvd_add ha hdvdc)
      (by rw [Nat.mul_sub]; exact Nat.dvd_sub hdvd hdvdc) fun e he => by
        rcases List.mem_append.mp he with he | he
        · exact hal e he
        · rw [List.mem_singleton.mp he]
          exact ⟨ha, hdvdc⟩
    refine ⟨?_, hal'⟩
    have hsum := hadd.trans hall
    rwa [Nat.add_sub_cancel' hcn] at hsum

/-- A range that goes on where the last extent ends makes this one longer before it makes new ones. -/
theorem fragmentAndEmplace_spec (L : Lengths g minLength maxLength) (hok : OutOk g maxLength o) :
    (∀ o', State.fragmentAndEmplace maxLength minLength (g * a) (g * n) o = some o' →
      Emplaced g minLength maxLength a n o o') ∧
    (maxLength ≤ 0xFFFFFFFF →
      State.fragmentAndEmplace maxLength minLength (g * a) (g * n) o ≠ none) := by
  have hg := L.unit
  have hchunks := emplaceChunks_spec L (g * n) a n o hok (le_refl _)
  rcases List.eq_nil_or_concat o.res with hnil | ⟨init, last, hres⟩
  · unfold State.fragmentAndEmplace
    rw [hnil, List.getLast?_nil]
    exact hchunks
  rw [List.concat_eq_append] at hres
  have hmem : last ∈ o.res := hres ▸ List.mem_append_right _ (List.mem_singleton_self _)
  unfold State.fragmentAndEmplace
  rw [hres, List.getLast?_concat]
  simp only
  by_cases hend : last.offset + last.length = g * a
  swap
  · rw [if_neg hend]
    exact hchunks
  rw [if_pos hend]
  have hfit : maxLength < 0x100000000 :=
    Nat.lt_succ_of_le (hok.long.resolve_right (List.ne_nil_of_mem hmem))
  have hmaxpos : maxLength ≠ 0 := (L.pos.trans_le L.le).ne'
  by_cases hfits : last.length + g * n ≤ maxLength
  · rw [if_pos (.inr hfits)]
    have hadd := added_growLast hg hok hres hend hfits
    refine ⟨fun o' h => ?_, fun _ => by simp⟩
    obtain rfl := Option.some.inj h
    exact ⟨⟨n, le_refl n, hadd⟩, fun _ hdvd hal =>
      ⟨hadd, hal.growLast hres (hfits.trans_lt hfit) hdvd⟩⟩
  rw [if_neg (by simp only [hmaxpos, false_or]; exact hfits)]
  by_cases hroom : last.length < maxLength
  swap
  · rw [if_neg hroom]
    exact hchunks
  rw [if_pos hroom]
  -- The last extent takes what it can, and the rest is cut up.
  obtain ⟨m, hm⟩ : g ∣ maxLength - last.length :=
    Nat.dvd_sub (L.dvd.trans L.max) (hok.extents last hmem).2.1
  have hmn : m ≤ n := by
    have hle : g * m ≤ g * n := by omega
    exact Nat.le_of_mul_le_mul_left hle hg
  rw [hm, ← Nat.mul_sub, ← Nat.mul_add]
  have hadd := added_growLast (n := m) hg hok hres hend (by omega)
  have hrest := emplaceChunks_spec L (g * (n - m)) (a + m) (n - m) _ hadd.ok (le_refl _)
  refine ⟨fun o' h => ?_, hrest.2⟩
  obtain ⟨⟨k, hk, hadd'⟩, hwhole⟩ := hrest.1 o' h
  refine ⟨⟨m + k, by omega, hadd.trans hadd'⟩, fun ha hdvd hal => ?_⟩
  have hdvdm : minLength ∣ g * m := by
    rw [← hm]
    exact Nat.dvd_sub L.max (hal last hmem).2
  obtain ⟨hall, hal'⟩ := hwhole (by rw [Nat.mul_add]; exact Nat.dvd_add ha hdvdm)
    (by rw [Nat.mul_sub]; exact Nat.dvd_sub hdvd hdvdm)
    (hal.growLast hres (by omega) hdvdm)
  refine ⟨?_, hal'⟩
  have hsum := hadd.trans hall
  rwa [Nat.add_sub_cancel' hmn] at hsum

/-- A first range that is shorter than the shortest extent is dropped. -/
theorem fragmentAndEmplace_short (hres : o.res = []) (hlt : n < minLength) :
    State.fragmentAndEmplace maxLength minLength a n o = some o := by
  unfold State.fragmentAndEmplace
  rw [hres, List.getLast?_nil]
  show State.emplaceChunks maxLength minLength n a n o = some o
  cases n with
  | zero => rfl
  | succ n =>
    unfold State.emplaceChunks
    rw [if_pos n.succ_pos]
    have hchunk : (if 0 < maxLength ∧ maxLength < n + 1 then maxLength else n + 1) < minLength := by
      split_ifs with h
      · exact h.2.trans hlt
      · exact hlt
    exact if_pos ⟨by omega, hchunk⟩

/-! ## What a part of an allocation does -/

/-- What an allocation has made so far is true of the bits. -/
structure Wf (g maxLength : ℕ) (bits : ℕ → Bool) (o : Out) : Prop where
  ok : OutOk g maxLength o
  count : o.allocated = g * (cover g o.res).length
  taken : ∀ u ∈ cover g o.res, bits u = false

/-- The units of `t` are no longer free, and they are the ones that the extents have grown by. -/
structure Grown (g : ℕ) (t : List ℕ) (bits bits' : ℕ → Bool) (o o' : Out) : Prop where
  bits : ∀ u, bits' u = (bits u && decide (u ∉ t))
  cover : cover g o'.res = cover g o.res ++ t

/-- A unit is lost: it is no longer free, and no extent has it. -/
def Leaked (g : ℕ) (bits bits' : ℕ → Bool) (o' : Out) : Prop :=
  ∃ u, bits u = true ∧ bits' u = false ∧ u ∉ cover g o'.res

/-- A part of an allocation that comes to the units of `t`, all of them in the region `R`. -/
structure Took (g minLength maxLength : ℕ) (R : ℕ → Prop) (t : List ℕ) (bits bits' : ℕ → Bool)
    (o o' : Out) : Prop where
  sub : ∀ u, bits' u = true → bits u = true
  frame : ∀ u, ¬ R u → bits' u = bits u
  covered : ∀ u ∈ cover g o'.res, u ∈ cover g o.res ∨ (bits u = true ∧ bits' u = false)
  wf : Wf g maxLength bits' o'
  /-- The L1 entries are shorter than the shortest extent. -/
  short : g * 512 < minLength → o.res = [] → o'.res = []
  /-- Nothing is shorter than the shortest extent when this is a unit. -/
  single : minLength = g → Grown g t bits bits' o o'
  outcome : Grown g t bits bits' o o' ∨ Leaked g bits bits' o'

/-- Taking the units of `t` makes extents of all of them. -/
structure Good (g minLength maxLength : ℕ) (t : List ℕ) (o : Out) : Prop where
  closed : BlockClosed (minLength / g) t
  aligned : Aligned minLength o
  fits : t = [] ∨ (maxLength ≤ 0xFFFFFFFF ∧ minLength / g ∣ 512)

variable {bits bits' bits'' : ℕ → Bool} {t t' : List ℕ} {R R' : ℕ → Prop} {o'' : Out}

/-- Units that are taken in two parts. -/
theorem Grown.trans (h : Grown g t bits bits' o o') (h' : Grown g t' bits' bits'' o' o'') :
    Grown g (t ++ t') bits bits'' o o'' where
  bits u := by
    rw [h'.bits, h.bits, Bool.and_assoc]
    simp
  cover := by rw [h'.cover, h.cover, List.append_assoc]

/-- Nothing is taken. -/
theorem Took.refl (h : Wf g maxLength bits o) (R : ℕ → Prop) :
    Took g minLength maxLength R [] bits bits o o where
  sub _ hu := hu
  frame _ _ := rfl
  covered _ hu := .inl hu
  wf := h
  short _ hres := hres
  single _ := ⟨fun u => by simp, by simp⟩
  outcome := .inl ⟨fun u => by simp, by simp⟩

/-- What is lost stays lost. -/
theorem Leaked.trans (h : Leaked g bits bits' o')
    (h' : Took g minLength maxLength R t bits' bits'' o' o'') : Leaked g bits bits'' o'' := by
  obtain ⟨u, hb, hb', hu⟩ := h
  refine ⟨u, hb, Bool.eq_false_iff.mpr fun h1 => ?_, fun hin => ?_⟩
  · rw [h'.sub u h1] at hb'
    cases hb'
  · rcases h'.covered u hin with hin | ⟨h1, -⟩
    · exact hu hin
    · rw [h1] at hb'
      cases hb'

/-- One part and then another. What the second comes to needs to be known only when the first one
has lost nothing. -/
theorem Took.trans (h : Took g minLength maxLength R t bits bits' o o') {t₂ : List ℕ}
    (h' : Took g minLength maxLength R t₂ bits' bits'' o' o'')
    (ht : Grown g t bits bits' o o' → t₂ = t') :
    Took g minLength maxLength R (t ++ t') bits bits'' o o'' where
  sub u hu := h.sub u (h'.sub u hu)
  frame u hu := (h'.frame u hu).trans (h.frame u hu)
  covered u hu := by
    rcases h'.covered u hu with hu | ⟨hb, hb'⟩
    · rcases h.covered u hu with hu | ⟨hb, hb'⟩
      · exact .inl hu
      · refine .inr ⟨hb, Bool.eq_false_iff.mpr fun hb'' => ?_⟩
        rw [h'.sub u hb''] at hb'
        cases hb'
    · exact .inr ⟨h.sub u hb, hb'⟩
  wf := h'.wf
  short hlt hres := h'.short hlt (h.short hlt hres)
  single heq := by
    obtain rfl := ht (h.single heq)
    exact (h.single heq).trans (h'.single heq)
  outcome := by
    rcases h.outcome with hgrown | ⟨u, hb, hb', hu⟩
    · obtain rfl := ht hgrown
      rcases h'.outcome with hgrown' | ⟨u, hb, hb', hu⟩
      · exact .inl (hgrown.trans hgrown')
      · exact .inr ⟨u, h.sub u hb, hb', hu⟩
    · exact .inr (Leaked.trans ⟨u, hb, hb', hu⟩ h')

/-- What is taken among some units is taken among more of them. -/
theorem Took.mono (h : Took g minLength maxLength R t bits bits' o o') (hR : ∀ u, R u → R' u) :
    Took g minLength maxLength R' t bits bits' o o' :=
  ⟨h.sub, fun u hu => h.frame u fun hr => hu (hR u hr), h.covered, h.wf, h.short, h.single,
    h.outcome⟩

/-- What is taken is taken somewhere. -/
theorem Took.anywhere (h : Took g minLength maxLength R t bits bits' o o') :
    Took g minLength maxLength (fun _ => True) t bits bits' o o' := h.mono fun _ _ => trivial

/-- Where whole blocks are to be taken, those of the first part are. -/
theorem Good.left (h : Good g minLength maxLength (t ++ t') o)
    (hclosed : BlockClosed (minLength / g) t) : Good g minLength maxLength t o :=
  ⟨hclosed, h.aligned, h.fits.imp_left fun hnil => (List.append_eq_nil_iff.mp hnil).1⟩

/-- Where whole blocks are to be taken, those of the second part are. -/
theorem Good.right (h : Good g minLength maxLength (t ++ t') o) (hd : (t ++ t').Nodup)
    (hclosed : BlockClosed (minLength / g) t) (hal : Aligned minLength o') :
    Good g minLength maxLength t' o' :=
  ⟨h.closed.right hclosed hd, hal, h.fits.imp_left fun hnil => (List.append_eq_nil_iff.mp hnil).2⟩

/-- A run of free units is in the extents. -/
theorem grown_run (hbits : ∀ u, bits' u = if a ≤ u ∧ u < a + n then false else bits u)
    (hadd : Added g maxLength a n o o') : Grown g (List.range' a n) bits bits' o o' := by
  refine ⟨fun u => ?_, hadd.cover⟩
  rw [hbits]
  simp only [List.mem_range'_1]
  split_ifs with hin <;> simp [hin]

/-- A run of free units is taken. -/
theorem took_run (h : Wf g maxLength bits o)
    (hrun : ∀ u, a ≤ u → u < a + n → bits u = true)
    (hbits : ∀ u, bits' u = if a ≤ u ∧ u < a + n then false else bits u)
    (hR : ∀ u, a ≤ u → u < a + n → R u) (hn : n ≤ 512)
    (he : Emplaced g minLength maxLength a n o o')
    (hshort : g * n < minLength → o.res = [] → o' = o) :
    Took g minLength maxLength R (List.range' a n) bits bits' o o' := by
  obtain ⟨k, hk, hadd⟩ := he.added
  have hmem : ∀ {u}, u ∈ cover g o'.res ↔ u ∈ cover g o.res ∨ (a ≤ u ∧ u < a + k) := by
    intro u
    rw [hadd.cover, List.mem_append, List.mem_range'_1]
  have hcovered : ∀ u ∈ cover g o'.res, u ∈ cover g o.res ∨ (bits u = true ∧ bits' u = false) := by
    intro u hu
    refine (hmem.mp hu).imp_right fun hin => ⟨hrun u hin.1 (by omega), ?_⟩
    rw [hbits, if_pos (by omega)]
  refine ⟨fun u hu => ?_, fun u hu => ?_, hcovered, ⟨hadd.ok, ?_, fun u hu => ?_⟩, ?_,
    fun heq => ?_, ?_⟩
  · rw [hbits] at hu
    split_ifs at hu
    exact hu
  · rw [hbits, if_neg fun hin => hu (hR u hin.1 hin.2)]
  · rw [hadd.allocated, hadd.cover, h.count, List.length_append, List.length_range', Nat.mul_add]
  · rcases hcovered u hu with hu | hu
    · rw [hbits, h.taken u hu, ite_self]
    · exact hu.2
  · intro hlt hres
    rw [hshort ((Nat.mul_le_mul_left g hn).trans_lt hlt) hres, hres]
  · subst heq
    exact grown_run hbits (he.whole (dvd_mul_right _ _) (dvd_mul_right _ _) fun e he =>
      ⟨(h.ok.extents e he).1, (h.ok.extents e he).2.1⟩).1
  · rcases Nat.eq_or_lt_of_le hk with rfl | hlt
    · exact .inl (grown_run hbits hadd)
    · -- The first unit that is dropped is lost.
      refine .inr ⟨a + k, hrun _ (by omega) (by omega), ?_, fun hin => ?_⟩
      · rw [hbits, if_pos (by omega)]
      · rcases hmem.mp hin with hin | hin
        · have hfalse := h.taken _ hin
          rw [hrun _ (by omega) (by omega)] at hfalse
          cases hfalse
        · omega

/-! ## L0 -/

/-- A part of an allocation that may end at an assertion, from what it begins with: what it does
when it ends, and that it does when all is good. -/
structure Takes (g minLength maxLength : ℕ) (R : ℕ → Prop) (t : List ℕ) (bits : ℕ → Bool) (o : Out)
    (f : Option ((ℕ → Bool) × Out)) : Prop where
  took : ∀ r, f = some r → Took g minLength maxLength R t bits r.1 o r.2
  good : Good g minLength maxLength t o →
    ∃ r, f = some r ∧ Grown g t bits r.1 o r.2 ∧ Aligned minLength r.2

variable {f : Option ((ℕ → Bool) × Out)}

/-- A part that takes units among some takes them among more. -/
theorem Takes.mono (h : Takes g minLength maxLength R t bits o f) (hR : ∀ u, R u → R' u) :
    Takes g minLength maxLength R' t bits o f :=
  ⟨fun r hr => (h.took r hr).mono hR, h.good⟩

/-- There is nothing to take. -/
theorem takes_nil (h : Wf g maxLength bits o) (R : ℕ → Prop) :
    Takes g minLength maxLength R [] bits o (some (bits, o)) where
  took r hr := by
    obtain rfl := Option.some.inj hr
    exact Took.refl h R
  good hgood := ⟨_, rfl, ⟨fun u => by simp, by simp⟩, hgood.aligned⟩

/-- A run of free units is made extents of. -/
theorem takes_run (bits' : ℕ → Bool) (L : Lengths g minLength maxLength) (hwf : Wf g maxLength bits o)
    (hrun : ∀ u, a ≤ u → u < a + n → bits u = true)
    (hbits : ∀ u, bits' u = if a ≤ u ∧ u < a + n then false else bits u)
    (hR : ∀ u, a ≤ u → u < a + n → R u) (hnpos : 0 < n) (hn : n ≤ 512) :
    Takes g minLength maxLength R (List.range' a n) bits o
      ((State.fragmentAndEmplace maxLength minLength (g * a) (g * n) o).map fun o' =>
        (bits', o')) := by
  obtain ⟨hemplaced, htotal⟩ := fragmentAndEmplace_spec (a := a) (n := n) L hwf.ok
  constructor
  case took =>
    intro r hr
    obtain ⟨o', hfrag, rfl⟩ := Option.map_eq_some_iff.mp hr
    refine took_run hwf hrun hbits hR hn (hemplaced o' hfrag) fun hlt hres => ?_
    rw [fragmentAndEmplace_short hres hlt] at hfrag
    exact (Option.some.inj hfrag).symm
  case good =>
    intro hgood
    have hpos : 0 < minLength / g := Nat.div_pos (Nat.le_of_dvd L.pos L.dvd) L.unit
    have hfits : maxLength ≤ 0xFFFFFFFF := by
      refine (hgood.fits.resolve_left fun hnil => ?_).1
      have hlen := congrArg List.length hnil
      rw [List.length_range'] at hlen
      exact hnpos.ne' hlen
    obtain ⟨hda, hdn⟩ := BlockClosed.run (t := []) hpos (by simpa using hgood.closed) hnpos
      (fun u hu => by cases hu) List.not_mem_nil
    have hblock : ∀ {x}, minLength / g ∣ x → minLength ∣ g * x := fun hx => by
      have hdvd := Nat.mul_dvd_mul_left g hx
      rwa [Nat.mul_div_cancel' L.dvd] at hdvd
    obtain ⟨o', hfrag⟩ := Option.ne_none_iff_exists'.mp (htotal hfits)
    obtain ⟨hadd, hal⟩ := (hemplaced o' hfrag).whole (hblock hda) (hblock hdn) hgood.aligned
    exact ⟨(bits', o'), by rw [hfrag]; rfl, grown_run hbits hadd, hal⟩

/-- One part of an allocation, and `f` with the rest of it. -/
theorem Takes.seq {f₁ : Option ((ℕ → Bool) × Out)}
    (h : Takes g minLength maxLength R t bits o f₁) (hd : (t ++ t').Nodup)
    (hclosed : Good g minLength maxLength (t ++ t') o → BlockClosed (minLength / g) t)
    (hnone : f₁ = none → f = none)
    (hsome : ∀ r, f₁ = some r → Took g minLength maxLength R t bits r.1 o r.2 →
      ∃ t₂, Takes g minLength maxLength R t₂ r.1 r.2 f ∧ (Grown g t bits r.1 o r.2 → t₂ = t')) :
    Takes g minLength maxLength R (t ++ t') bits o f := by
  constructor
  case took =>
    intro r hr
    obtain ⟨r₁, hr₁⟩ : ∃ r₁, f₁ = some r₁ := Option.ne_none_iff_exists'.mp fun h₁ => by
      rw [hnone h₁] at hr
      cases hr
    obtain ⟨t₂, hrest, ht₂⟩ := hsome r₁ hr₁ (h.took r₁ hr₁)
    exact (h.took r₁ hr₁).trans (hrest.took r hr) ht₂
  case good =>
    intro hgood
    obtain ⟨r₁, hr₁, hgrown, hal⟩ := h.good (hgood.left (hclosed hgood))
    obtain ⟨t₂, hrest, ht₂⟩ := hsome r₁ hr₁ (h.took r₁ hr₁)
    obtain rfl := ht₂ hgrown
    obtain ⟨r, hr, hgrown', hal'⟩ := hrest.good (hgood.right hd (hclosed hgood) hal)
    exact ⟨r, hr, hgrown.trans hgrown', hal'⟩

/-- The length of a run counts set bits, up to the first clear one or `n` of them. -/
theorem runLength_spec (bits : ℕ → Bool) : ∀ n p,
    State.runLength bits n p ≤ n ∧
      (∀ u, p ≤ u → u < p + State.runLength bits n p → bits u = true) ∧
      (State.runLength bits n p < n → bits (p + State.runLength bits n p) = false)
  | 0, p => ⟨le_refl 0, fun u h1 h2 => absurd h2 (not_lt.mpr h1), fun h => absurd h (lt_irrefl _)⟩
  | n + 1, p => by
    unfold State.runLength
    split_ifs with hbit
    · obtain ⟨hle, hset, hstop⟩ := runLength_spec bits n (p + 1)
      refine ⟨by omega, fun u h1 h2 => ?_, fun hlt => ?_⟩
      · rcases Nat.eq_or_lt_of_le h1 with rfl | h1
        · exact hbit
        · exact hset u h1 (by omega)
      · rw [show p + (State.runLength bits n (p + 1) + 1) =
          p + 1 + State.runLength bits n (p + 1) by omega]
        exact hstop (by omega)
    · exact ⟨Nat.zero_le _, fun u h1 h2 => absurd h2 (not_lt.mpr h1),
        fun _ => Bool.eq_false_iff.mpr hbit⟩

/-- The scan of `_allocate_l0` comes to the free units in ascending order. -/
theorem allocateL0_spec (L : Lengths g minLength maxLength) (l0End : ℕ) (hend : 64 ∣ l0End) :
    ∀ (fuel need p : ℕ) (bits : ℕ → Bool) (o : Out), Wf g maxLength bits o → l0End ≤ p + fuel →
      l0End ≤ p + 512 →
      Takes g minLength maxLength (fun u => p ≤ u ∧ u < l0End) ((setBits bits p l0End).take need)
        bits o (State.allocateL0 g minLength maxLength l0End fuel need p bits o)
  | 0, need, p, bits, o, hwf, hfuel, _ => by
    rw [setBits_of_le (show l0End ≤ p by omega), List.take_nil]
    exact takes_nil hwf _
  | fuel + 1, need, p, bits, o, hwf, hfuel, hnear => by
    have hg := L.unit
    unfold State.allocateL0
    by_cases hmore : p < l0End ∧ 0 < need
    swap
    · rw [if_neg hmore]
      have hnil : (setBits bits p l0End).take need = [] := by
        rcases Nat.lt_or_ge p l0End with hlt | hge
        · rw [show need = 0 by omega, List.take_zero]
        · rw [setBits_of_le hge, List.take_nil]
      rw [hnil]
      exact takes_nil hwf _
    rw [if_pos hmore]
    obtain ⟨m, hm⟩ := hend
    -- The rest of the slot is clear.
    have hskip : (∀ j, p % 64 ≤ j → j < 64 → bits (64 * (p / 64) + j) = false) →
        Takes g minLength maxLength (fun u => p ≤ u ∧ u < l0End)
          ((setBits bits p l0End).take need) bits o
          (State.allocateL0 g minLength maxLength l0End fuel need
            (p + (bitsPerSlot - p % bitsPerSlot)) bits o) := by
      intro hclear
      simp only [bitsPerSlot]
      have hrest := allocateL0_spec L l0End ⟨m, hm⟩ fuel need (p + (64 - p % 64)) bits o hwf
        (by omega) (by omega)
      rw [setBits_skip (q := p + (64 - p % 64)) (by omega) fun u h1 h2 => by
        have hbit := hclear (u - 64 * (p / 64)) (by omega) (by omega)
        rwa [show 64 * (p / 64) + (u - 64 * (p / 64)) = u by omega] at hbit]
      exact hrest.mono fun u hu => by omega
    by_cases hslot : State.slotClear bits (p / bitsPerSlot) = true
    · rw [if_pos hslot]
      exact hskip fun j _ hj => State.slotClear_iff.mp hslot j hj
    rw [if_neg hslot]
    -- The next free unit of the slot, if it has one.
    cases hnext : State.findNextSetBit bits (p / bitsPerSlot) (p % bitsPerSlot) with
    | none => exact hskip fun j h1 h2 => State.findNextSetBit_eq_none hnext j h1 h2
    | some bit =>
      obtain ⟨hbit1, hbit2, hset, hclear⟩ := State.findNextSetBit_eq_some hnext
      simp only [bitsPerSlot] at hbit1 hset hclear
      -- The run begins at `a` and has `n` units.
      obtain ⟨a, ha⟩ : ∃ a, a = p / 64 * 64 + bit := ⟨_, rfl⟩
      have hpa : p ≤ a ∧ a < l0End := by omega
      obtain ⟨hle, hrun, hstop⟩ := runLength_spec bits (min need (l0End - a)) a
      obtain ⟨n, hn⟩ : ∃ n, n = State.runLength bits (min need (l0End - a)) a := ⟨_, rfl⟩
      rw [← hn] at hle hrun hstop
      have hunits : min (State.runLength bits (min need (l0End - a)) a) need = n := by omega
      have hnpos : 0 < n := by
        by_contra h0
        have hfalse := hstop (by omega)
        rw [show a + n = 64 * (p / 64) + bit by omega, hset] at hfalse
        cases hfalse
      simp only [bitsPerSlot, ← ha, hunits]
      rw [Nat.mul_comm a g, Nat.mul_comm n g]
      -- What the scan comes to is the run and what is behind it.
      have hsplit : (setBits bits p l0End).take need =
          List.range' a n ++ (setBits bits (a + n) l0End).take (need - n) := by
        rw [setBits_skip hpa.1 fun u h1 h2 => by
          have hbit := hclear (u - 64 * (p / 64)) (by omega) (by omega)
          rwa [show 64 * (p / 64) + (u - 64 * (p / 64)) = u by omega] at hbit]
        rw [setBits_run (by omega) hrun, List.take_append, List.length_range',
          List.take_of_length_le (by rw [List.length_range']; omega)]
      have hcleared : ∀ u, State.markAllocL0 bits a (a + n) u =
          if a ≤ u ∧ u < a + n then false else bits u := State.markAllocL0_apply a (a + n)
      have hbehind : setBits (State.markAllocL0 bits a (a + n)) (a + n) l0End =
          setBits bits (a + n) l0End := setBits_congr fun u h1 _ => by
        rw [hcleared, if_neg (by omega)]
      rw [hsplit]
      -- In a good allocation the run is whole blocks.
      have hrunClosed : Good g minLength maxLength
          (List.range' a n ++ (setBits bits (a + n) l0End).take (need - n)) o →
          minLength / g ∣ a ∧ minLength / g ∣ n := fun hgood => by
        have hpos : 0 < minLength / g := Nat.div_pos (Nat.le_of_dvd L.pos L.dvd) hg
        refine hgood.closed.run hpos hnpos (fun u hu => ?_) fun hin => ?_
        · have hu := mem_setBits.mp (List.mem_of_mem_take hu)
          omega
        · have hbit := mem_setBits.mp (List.mem_of_mem_take hin)
          have hn' : n = min need (l0End - a) := by
            by_contra hne
            rw [hstop (by omega)] at hbit
            cases hbit.2
          have hzero : need - n = 0 := by omega
          rw [hzero, List.take_zero] at hin
          cases hin
      have hrunTakes := takes_run (R := fun u => p ≤ u ∧ u < l0End) _ L hwf hrun hcleared
        (fun u h1 h2 => by omega) hnpos (by omega)
      refine hrunTakes.seq ?_ (fun hgood => ?_) (fun hnone => ?_) fun r hr htook => ?_
      · rw [← hsplit]
        exact (setBits_nodup bits p l0End).sublist (List.take_sublist _ _)
      · obtain ⟨hda, hdn⟩ := hrunClosed hgood
        exact blockClosed_run hda hdn
      · rw [Option.map_eq_none_iff.mp hnone]
      · obtain ⟨o', hfrag, rfl⟩ := Option.map_eq_some_iff.mp hr
        have hrest := allocateL0_spec L l0End ⟨m, hm⟩ fuel (need - n) (a + n) _ o' htook.wf (by omega)
          (by omega)
        rw [hbehind] at hrest
        rw [hfrag]
        exact ⟨_, hrest.mono fun u hu => by omega, fun _ => rfl⟩

/-! ## L1 -/

/-- Bits are cleared, and the L1 entries follow. -/
structure Summed (s s' : State) : Prop where
  same : State.SameL0 { s with l0 := s'.l0 } s'
  l1 : ∀ e < 256 * s.entries, s'.l1 e = State.entryOf s'.l0 e

variable {s s' : State}

/-- A state is its own successor where its summaries are true. -/
theorem Summed.refl (h : ∀ e < 256 * s.entries, s.l1 e = State.entryOf s.l0 e) : Summed s s :=
  ⟨State.SameL0.refl s, h⟩

/-- One step after another. -/
theorem Summed.trans {s'' : State} (h : Summed s s') (h' : Summed s' s'') : Summed s s'' where
  same := ⟨h'.same.1.trans h.same.1, h'.same.2.trans h.same.2, h'.same.3.trans h.same.3,
    h'.same.4.trans h.same.4, rfl, h'.same.6.trans h.same.6, h'.same.7.trans h.same.7,
    h'.same.8.trans h.same.8⟩
  l1 e he := h'.l1 e (by rw [h.same.entries]; exact he)

/-- Bits of one L1 entry are cleared, and the entry is written. -/
theorem summed_markL1OnL0 {e : ℕ} (h : ∀ e < 256 * s.entries, s.l1 e = State.entryOf s.l0 e)
    (hout : ∀ u, ¬ (512 * e ≤ u ∧ u < 512 * e + 512) → bits u = s.l0 u) :
    Summed s (State.markL1OnL0 { s with l0 := bits } (512 * e) (512 * e + 512)) := by
  have hsame := State.sameL0_markL1OnL0 { s with l0 := bits } (512 * e) (512 * e + 512)
  refine ⟨⟨hsame.1, hsame.2, hsame.3, hsame.4, rfl, hsame.6, hsame.7, hsame.8⟩, fun q hq => ?_⟩
  rw [hsame.l0]
  exact State.markL1OnL0_of_changed h hout q hq

/-- The units of an L1 entry that are free. -/
def freeIn (bits : ℕ → Bool) (e : ℕ) : List ℕ := setBits bits (512 * e) (512 * e + 512)

/-- A unit of an L1 entry is known by its quotient. -/
theorem div_of_mem_freeIn {e u : ℕ} (h : u ∈ freeIn bits e) : u / 512 = e := by
  have hu := mem_setBits.mp h
  omega

/-- The bytes that are counted are those of the units. -/
theorem Grown.allocated (h : Grown g t bits bits' o o') (hwf : Wf g maxLength bits o)
    (hwf' : Wf g maxLength bits' o') : o'.allocated = o.allocated + g * t.length := by
  rw [hwf'.count, hwf.count, h.cover, List.length_append, Nat.mul_add]

/-- What is left to take, when the units of a list are taken. -/
theorem Grown.left (h : Grown g t bits bits' o o') (hwf : Wf g maxLength bits o)
    (hwf' : Wf g maxLength bits' o') (want : ℕ) :
    (want - o'.allocated) / g = (want - o.allocated) / g - t.length := by
  rw [h.allocated hwf hwf', ← Nat.sub_sub, Nat.sub_mul_div]

/-- No unit is in two L1 entries. -/
theorem nodup_flatMap_freeIn {es : List ℕ} (bits : ℕ → Bool) (h : es.Pairwise (· < ·)) :
    (es.flatMap (freeIn bits)).Nodup := by
  refine List.nodup_flatMap.mpr ⟨fun e _ => setBits_nodup _ _ _, h.imp fun {a b} hab => ?_⟩
  intro u ha hb
  have hlt := div_of_mem_freeIn ha
  rw [div_of_mem_freeIn hb] at hlt
  omega

/-- One L1 entry, by `f₁`, which writes the bits of this entry, and the entries behind it, by `f`. -/
theorem takes_entry {want p : ℕ} {ps : List ℕ} (hes : (p :: ps).Pairwise (· < ·))
    (hwf : Wf s.granularity maxLength s.l0 o)
    {f₁ : Option ((ℕ → Bool) × Out)} (S : (ℕ → Bool) → State)
    (f : State → Out → Option (State × Out))
    (h₁ : Takes s.granularity minLength maxLength (fun u => u / 512 = p)
      ((freeIn s.l0 p).take ((want - o.allocated) / s.granularity)) s.l0 o f₁)
    (hS : ∀ r, f₁ = some r → Summed s (S r.1) ∧ (S r.1).l0 = r.1)
    (hrest : ∀ s₁ o₁, Summed s s₁ → (∀ u, s₁.l0 u = true → s.l0 u = true) →
      Wf s.granularity maxLength s₁.l0 o₁ →
      Takes s.granularity minLength maxLength (fun u => u / 512 ∈ ps)
          ((ps.flatMap (freeIn s₁.l0)).take ((want - o₁.allocated) / s.granularity)) s₁.l0 o₁
          ((f s₁ o₁).map fun r => (r.1.l0, r.2)) ∧
        ∀ r, f s₁ o₁ = some r → Summed s₁ r.1) :
    Takes s.granularity minLength maxLength (fun u => u / 512 ∈ p :: ps)
        (((p :: ps).flatMap (freeIn s.l0)).take ((want - o.allocated) / s.granularity)) s.l0 o
        ((f₁.bind fun r => f (S r.1) r.2).map fun r => (r.1.l0, r.2)) ∧
      ∀ r, (f₁.bind fun r => f (S r.1) r.2) = some r → Summed s r.1 := by
  obtain ⟨n, hn⟩ : ∃ n, n = (want - o.allocated) / s.granularity := ⟨_, rfl⟩
  rw [← hn] at h₁ ⊢
  -- The entries behind are read as they were before.
  have hafter : ∀ r, f₁ = some r → Takes s.granularity minLength maxLength (fun u => u / 512 ∈ ps)
      ((ps.flatMap (freeIn r.1)).take ((want - r.2.allocated) / s.granularity)) r.1 r.2
        ((f (S r.1) r.2).map fun r => (r.1.l0, r.2)) ∧
      ∀ q, f (S r.1) r.2 = some q → Summed (S r.1) q.1 := fun r hr => by
    obtain ⟨hsummed, hbits⟩ := hS r hr
    have htook := h₁.took r hr
    have h2 := hrest (S r.1) r.2 hsummed (by rw [hbits]; exact htook.sub) (by
      rw [hbits]
      exact htook.wf)
    rwa [hbits] at h2
  have hsplit : ((p :: ps).flatMap (freeIn s.l0)).take n =
      (freeIn s.l0 p).take n ++ (ps.flatMap (freeIn s.l0)).take (n - (freeIn s.l0 p).length) := by
    rw [List.flatMap_cons, List.take_append]
  -- What this entry gives lies in it, and what the others give does not.
  have hin : ∀ u ∈ (freeIn s.l0 p).take n, u / 512 = p := fun u hu =>
    div_of_mem_freeIn (List.mem_of_mem_take hu)
  have hout : ∀ u ∈ (ps.flatMap (freeIn s.l0)).take (n - (freeIn s.l0 p).length), u / 512 ≠ p := by
    intro u hu
    obtain ⟨e, he, hue⟩ := List.mem_flatMap.mp (List.mem_of_mem_take hu)
    rw [div_of_mem_freeIn hue]
    exact ((List.pairwise_cons.mp hes).1 e he).ne'
  constructor
  · rw [hsplit]
    refine (h₁.mono fun u hu => hu ▸ List.mem_cons_self).seq ?_ (fun hgood => ?_) (fun hnone => ?_)
      fun r hr htook =>
        ⟨(ps.flatMap (freeIn r.1)).take ((want - r.2.allocated) / s.granularity), ?_,
          fun hgrown => ?_⟩
    · rw [← hsplit]
      exact (nodup_flatMap_freeIn s.l0 hes).sublist (List.take_sublist _ _)
    · -- No block is in two entries.
      rcases hgood.fits with hnil | ⟨-, hdvd⟩
      · rw [(List.append_eq_nil_iff.mp hnil).1]
        exact fun u hu => by cases hu
      · exact hgood.closed.left hdvd hin hout
    · rw [hnone]
      rfl
    · rw [hr]
      exact (hafter r hr).1.mono fun u hu => List.mem_cons_of_mem p hu
    · -- The entries behind have the bits that they had, and so much is left to take.
      have hsame : ps.flatMap (freeIn r.1) = ps.flatMap (freeIn s.l0) := by
        refine List.flatMap_congr fun e he => setBits_congr fun u h1 h2 => ?_
        have hlt := (List.pairwise_cons.mp hes).1 e he
        have hnot : u ∉ (freeIn s.l0 p).take n := fun hu => by
          have hup := hin u hu
          omega
        rw [hgrown.bits, decide_eq_true hnot, Bool.and_true]
      rw [hsame, hgrown.left hwf htook.wf, ← hn, List.length_take]
      congr 1
      omega
  · intro q hq
    obtain ⟨r, hr, hq⟩ := Option.bind_eq_some_iff.mp hq
    exact (hS r hr).1.trans ((hafter r hr).2 q hq)

/-- The scan of `_allocate_l1` comes to the free units of the L1 entries in their order. -/
theorem allocateL1_spec (want : ℕ) : ∀ (es : List ℕ) (s : State) (o : Out),
    Lengths s.granularity minLength maxLength → es.Pairwise (· < ·) →
      Wf s.granularity maxLength s.l0 o →
      (∀ e < 256 * s.entries, s.l1 e = State.entryOf s.l0 e) →
      (∀ u, s.l0 u = true → u < 131072 * s.entries) →
      Takes s.granularity minLength maxLength (fun u => u / 512 ∈ es)
          ((es.flatMap (freeIn s.l0)).take ((want - o.allocated) / s.granularity)) s.l0 o
          ((State.allocateL1 want minLength maxLength es s o).map fun r => (r.1.l0, r.2)) ∧
        ∀ r, State.allocateL1 want minLength maxLength es s o = some r → Summed s r.1
  | [], s, o, _, _, hwf, hl1, _ => by
    rw [List.flatMap_nil, List.take_nil]
    refine ⟨takes_nil hwf _, fun r h => ?_⟩
    obtain rfl := Option.some.inj h
    exact Summed.refl hl1
  | p :: ps, s, o, L, hes, hwf, hl1, hl0 => by
    have hstay : Takes s.granularity minLength maxLength (fun u => u / 512 ∈ p :: ps) [] s.l0 o
        ((some (s, o)).map fun r => (r.1.l0, r.2)) ∧
          ∀ r, some (s, o) = some r → Summed s r.1 :=
      ⟨takes_nil hwf _, fun r h => Option.some.inj h ▸ Summed.refl hl1⟩
    obtain ⟨hp, hps⟩ := List.pairwise_cons.mp hes
    unfold State.allocateL1
    by_cases hend : 256 * s.entries ≤ p
    · -- The entries that are left have no bits.
      rw [if_pos (show l1PerL2 * s.entries ≤ p from hend)]
      have hnil : (p :: ps).flatMap (freeIn s.l0) = [] := by
        refine List.flatMap_eq_nil_iff.mpr fun e he => setBits_eq_nil_iff.mpr fun u hu _ => ?_
        have hpe : p ≤ e := by
          rcases List.mem_cons.mp he with rfl | he
          · exact le_refl e
          · exact (hp e he).le
        refine Bool.eq_false_iff.mpr fun hbit => ?_
        have hlt := hl0 u hbit
        omega
      rw [hnil, List.take_nil]
      exact hstay
    rw [if_neg (show ¬ l1PerL2 * s.entries ≤ p from hend)]
    -- A full entry is passed over.
    by_cases hfull : s.l1 p = .full
    · rw [if_pos hfull]
      have hnil : freeIn s.l0 p = [] := by
        rw [hl1 p (by omega), State.entryOf_eq_full] at hfull
        refine setBits_eq_nil_iff.mpr fun u h1 h2 => ?_
        have hbit := hfull (u - 512 * p) (by omega)
        rwa [Nat.add_sub_cancel' h1] at hbit
      obtain ⟨htakes, hsummed⟩ := allocateL1_spec want ps s o L hps hwf hl1 hl0
      rw [List.flatMap_cons, hnil, List.nil_append]
      exact ⟨htakes.mono fun u hu => List.mem_cons_of_mem p hu, hsummed⟩
    rw [if_neg hfull]
    -- All that was wanted is there.
    by_cases hrem : want - o.allocated = 0
    · simp only [hrem, if_true]
      rw [Nat.zero_div, List.take_zero]
      exact hstay
    simp only [hrem, if_false]
    -- The entries behind go on from what this one leaves.
    have hrest : ∀ s₁ o₁, Summed s s₁ → (∀ u, s₁.l0 u = true → s.l0 u = true) →
        Wf s.granularity maxLength s₁.l0 o₁ →
        Takes s.granularity minLength maxLength (fun u => u / 512 ∈ ps)
            ((ps.flatMap (freeIn s₁.l0)).take ((want - o₁.allocated) / s.granularity)) s₁.l0 o₁
            ((State.allocateL1 want minLength maxLength ps s₁ o₁).map fun r => (r.1.l0, r.2)) ∧
          ∀ r, State.allocateL1 want minLength maxLength ps s₁ o₁ = some r → Summed s₁ r.1 := by
      intro s₁ o₁ hsummed hsub hwf₁
      have hg : s₁.granularity = s.granularity := hsummed.same.granularity
      have hn : s₁.entries = s.entries := hsummed.same.entries
      have h2 := allocateL1_spec want ps s₁ o₁ (hg ▸ L) hps (hg ▸ hwf₁)
        (fun e he => hsummed.l1 e (hn ▸ he)) fun u hu => hn ▸ hl0 u (hsub u hu)
      rwa [hg] at h2
    -- An entry that is free and wanted whole is taken at once, any other bit by bit.
    by_cases hfree : s.l1 p = .free ∧ bitsPerSlotset * s.granularity ≤ want - o.allocated
    · rw [if_pos hfree]
      -- The whole entry is taken at once.
      have hset : ∀ u, 512 * p ≤ u → u < 512 * p + 512 → s.l0 u = true := by
        have hall := hfree.1
        rw [hl1 p (by omega), State.entryOf_eq_free] at hall
        intro u h1 h2
        have hbit := hall (u - 512 * p) (by omega)
        rwa [Nat.add_sub_cancel' h1] at hbit
      have hcleared : ∀ u, State.markAllocL0 s.l0 (512 * p) (512 * p + 512) u =
          if 512 * p ≤ u ∧ u < 512 * p + 512 then false else s.l0 u :=
        State.markAllocL0_apply (512 * p) (512 * p + 512)
      have hn : 512 ≤ (want - o.allocated) / s.granularity :=
        (Nat.le_div_iff_mul_le L.unit).mpr hfree.2
      have hentry : (freeIn s.l0 p).take ((want - o.allocated) / s.granularity) =
          List.range' (512 * p) 512 := by
        rw [freeIn, setBits_run (le_refl _) hset, setBits_of_le (le_refl _), List.append_nil]
        exact List.take_of_length_le (by rw [List.length_range']; exact hn)
      have hrun := takes_run (R := fun u => u / 512 = p) (State.markAllocL0 s.l0 (512 * p)
        (512 * p + 512)) L hwf hset hcleared (fun u h1 h2 => by omega) (by norm_num) (le_refl 512)
      have hmark : Summed s (s.markAllocL1L0 (512 * p) (512 * p + 512)) ∧
          (s.markAllocL1L0 (512 * p) (512 * p + 512)).l0 =
            State.markAllocL0 s.l0 (512 * p) (512 * p + 512) := by
        refine ⟨?_, (State.sameL0_markAllocL1L0 s _ _).l0⟩
        have hsummed := summed_markL1OnL0 (e := p) hl1 fun u hu =>
          (hcleared u).trans (if_neg hu)
        rw [State.markAllocL1L0, show alignDown (512 * p) bitsPerSlotset = 512 * p by
          simp only [alignDown, bitsPerSlotset]; omega,
          show roundUp (512 * p + 512) bitsPerSlotset = 512 * p + 512 by
          simp only [roundUp, bitsPerSlotset]; omega]
        exact hsummed
      have hpiece := takes_entry hes hwf (fun _ => s.markAllocL1L0 (512 * p) (512 * p + 512))
        (State.allocateL1 want minLength maxLength ps) (hentry ▸ hrun) (fun r hr => by
          obtain ⟨o', -, rfl⟩ := Option.map_eq_some_iff.mp hr
          exact hmark) hrest
      rw [Option.bind_map] at hpiece
      simp only [bitsPerSlotset]
      rw [Nat.mul_comm (512 * p), Nat.mul_comm 512 s.granularity]
      cases hfrag : State.fragmentAndEmplace maxLength minLength (s.granularity * (512 * p))
        (s.granularity * 512) o <;> rw [hfrag] at hpiece <;> exact hpiece
    · rw [if_neg hfree]
      have hslot := allocateL0_spec L (512 * p + 512) ⟨8 * p + 8, by omega⟩ 512
        ((want - o.allocated) / s.granularity) (512 * p) s.l0 o hwf (le_refl _) (le_refl _)
      have hpiece := takes_entry hes hwf
        (fun bits => State.markL1OnL0 { s with l0 := bits } (512 * p) (512 * p + 512))
        (State.allocateL1 want minLength maxLength ps)
        (hslot.mono fun u hu => by omega) (fun r hr => by
          refine ⟨summed_markL1OnL0 hl1 (hslot.took r hr).frame, ?_⟩
          exact (State.sameL0_markL1OnL0 _ _ _).l0) hrest
      simp only [bitsPerSlotset]
      cases hL0 : State.allocateL0 s.granularity minLength maxLength (512 * p + 512) 512
        ((want - o.allocated) / s.granularity) (512 * p) s.l0 o <;> rw [hL0] at hpiece <;>
        exact hpiece

end CxxLab.Blk.Bitmap
