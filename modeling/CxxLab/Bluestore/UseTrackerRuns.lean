import CxxLab.Bluestore.BlobLayout
import CxxLab.Bluestore.UseTracker
import CxxLab.Lib.MaximalRuns
import CxxLab.Lib.Runs

/-!
# What a use tracker counts

A tracker that references are taken and given back at is compared with the references themselves:
how many there are to each byte of the blob. `tracker_counts` is for every sequence of calls of `get`
and `put` on a tracker whose number of units `init` computes without a wrap-around, and whose
counters do not overflow.
-/

namespace CxxLab.Bluestore.Object.UseTracker

/-! ## References to units -/

/-- How many bytes of a unit are in a range. -/
def overlap (au i start stop : ℕ) : ℕ := min ((i + 1) * au) stop - max (i * au) start

/-- The references to bytes of a unit. -/
def unitRefs (au : ℕ) (refs : ℕ → ℕ) (i : ℕ) : ℕ := ∑ x ∈ Finset.Ico (i * au) ((i + 1) * au), refs x

/-- One more reference to each byte of a range. -/
def addRefs (refs : ℕ → ℕ) (start stop : ℕ) : ℕ → ℕ :=
  fun x => refs x + if start ≤ x ∧ x < stop then 1 else 0

/-- One reference less to each byte of a range. -/
def subRefs (refs : ℕ → ℕ) (start stop : ℕ) : ℕ → ℕ :=
  fun x => refs x - if start ≤ x ∧ x < stop then 1 else 0

/-- There is a reference to each byte of a range. -/
def CoveredBy (refs : ℕ → ℕ) (start stop : ℕ) : Prop := ∀ x, start ≤ x → x < stop → 0 < refs x

/-- The bytes that two ranges have in common. -/
theorem sum_range_ind (a b start stop : ℕ) :
    ∑ x ∈ Finset.Ico a b, (if start ≤ x ∧ x < stop then 1 else 0) =
      min b stop - max a start := by
  rw [Finset.sum_boole, Nat.cast_id]
  have hfilter : (Finset.Ico a b).filter (fun x => start ≤ x ∧ x < stop) =
      Finset.Ico (max a start) (min b stop) := by
    ext x
    simp only [Finset.mem_filter, Finset.mem_Ico]
    omega
  rw [hfilter, Nat.card_Ico]

/-- A unit gets as many references as it has bytes in the range. -/
theorem unitRefs_addRefs (au : ℕ) (refs : ℕ → ℕ) (start stop i : ℕ) :
    unitRefs au (addRefs refs start stop) i = unitRefs au refs i + overlap au i start stop := by
  unfold unitRefs addRefs overlap
  rw [Finset.sum_add_distrib, sum_range_ind]

/-- What is given back was there. -/
theorem addRefs_subRefs {refs : ℕ → ℕ} {start stop : ℕ} (h : CoveredBy refs start stop) :
    addRefs (subRefs refs start stop) start stop = refs := by
  funext x
  unfold addRefs subRefs
  split_ifs with hx
  · exact Nat.sub_add_cancel (h x hx.1 hx.2)
  · rfl

/-- The unit that a round is in, and the units before and behind it. -/
theorem overlap_round {au start stop next i : ℕ} (hau : 0 < au) (hlt : start < stop)
    (hnext : min ((start / au + 1) * au) stop ≤ next) (hnext' : next ≤ (start / au + 1) * au) :
    overlap au i start stop =
      (if i = start / au then min ((start / au + 1) * au) stop - start else 0) +
        overlap au i next stop := by
  have hle : start / au * au ≤ start := Nat.div_mul_le_self _ _
  have hgt : start < (start / au + 1) * au := by
    rw [Nat.add_mul, Nat.one_mul, Nat.mul_comm]
    exact Nat.lt_mul_div_succ start hau
  generalize start / au = p at *
  unfold overlap
  rcases lt_trichotomy i p with hip | rfl | hip
  · have hmul : (i + 1) * au ≤ p * au := Nat.mul_le_mul_right _ hip
    rw [if_neg hip.ne]
    omega
  · rw [if_pos rfl]
    omega
  · have hmul : (p + 1) * au ≤ i * au := Nat.mul_le_mul_right _ hip
    rw [if_neg hip.ne']
    omega

/-! ## The loop of `get` -/

section
variable {au offset stop : UInt32} {bytes : List UInt32}

/-- The smaller of two numbers. -/
theorem toNat_min32 (a b : UInt32) : (min a b).toNat = min a.toNat b.toNat := by
  show (if a ≤ b then a else b).toNat = if a.toNat ≤ b.toNat then a.toNat else b.toNat
  exact apply_ite _ _ _ _

/-- The bytes of the range that a round takes. -/
theorem round_toNat (hau : 0 < au.toNat) (hlt : offset.toNat < stop.toNat) :
    (min (au - offset % au) (stop - offset)).toNat =
      min ((offset.toNat / au.toNat + 1) * au.toNat) stop.toNat - offset.toNat := by
  have hmod : (offset % au).toNat = offset.toNat % au.toNat := UInt32.toNat_mod _ _
  have hphase : offset.toNat % au.toNat < au.toNat := Nat.mod_lt _ hau
  have h1 : (au - offset % au).toNat = au.toNat - offset.toNat % au.toNat := by
    rw [UInt32.toNat_sub_of_le _ _ (UInt32.le_iff_toNat_le.mpr (hmod ▸ hphase.le)), hmod]
  have h2 : (stop - offset).toNat = stop.toNat - offset.toNat :=
    UInt32.toNat_sub_of_le _ _ (UInt32.le_iff_toNat_le.mpr hlt.le)
  have hdiv := Nat.mod_add_div offset.toNat au.toNat
  rw [toNat_min32, h1, h2, Nat.succ_mul, Nat.mul_comm (offset.toNat / au.toNat)]
  omega

/-- A counter is set, and the others stay. -/
theorem getD_set {n k : UInt32} {p : ℕ} (h : bytes[p]? = some n) (i : ℕ) :
    (bytes.set p k).getD i 0 = if i = p then k else bytes.getD i 0 := by
  have hlt : p < bytes.length := (List.getElem?_eq_some_iff.mp h).1
  rw [List.getD_eq_getElem?_getD, List.getD_eq_getElem?_getD, List.getElem?_set]
  rcases eq_or_ne i p with rfl | hne
  · rw [if_pos rfl, if_pos hlt, if_pos rfl, Option.getD_some]
  · rw [if_neg hne.symm, if_neg hne]

/-- The loop of `get` adds to each counter the bytes of its unit that are in the range. -/
theorem getLoop_spec (hau : 0 < au.toNat) {fuel : ℕ} (hfuel : stop.toNat - offset.toNat < fuel)
    (hin : stop.toNat ≤ bytes.length * au.toNat)
    (hfits : ∀ i, (bytes.getD i 0).toNat +
      overlap au.toNat i offset.toNat stop.toNat < 2 ^ 32) :
    ∃ bytes', getLoop au stop fuel offset bytes = some bytes' ∧ bytes'.length = bytes.length ∧
      ∀ i, (bytes'.getD i 0).toNat =
        (bytes.getD i 0).toNat + overlap au.toNat i offset.toNat stop.toNat := by
  induction fuel generalizing offset bytes with
  -- The fuel is more than the rounds that are left.
  | zero => exact absurd hfuel (Nat.not_lt_zero _)
  | succ fuel ih =>
    unfold getLoop
    by_cases hlt : offset < stop
    · have hlt' := UInt32.lt_iff_toNat_lt.mp hlt
      have hdiff := round_toNat hau hlt'
      have hpos : (offset / au).toNat = offset.toNat / au.toNat := UInt32.toNat_div _ _
      have hle : offset.toNat / au.toNat * au.toNat ≤ offset.toNat := Nat.div_mul_le_self _ _
      have hgt : offset.toNat < (offset.toNat / au.toNat + 1) * au.toNat := by
        rw [Nat.mul_comm]
        exact Nat.lt_mul_div_succ _ hau
      have hunit : offset.toNat / au.toNat < bytes.length :=
        Nat.div_lt_of_lt_mul (by rw [Nat.mul_comm]; omega)
      obtain ⟨n, hn⟩ : ∃ n, bytes[offset.toNat / au.toNat]? = some n :=
        ⟨_, List.getElem?_eq_getElem hunit⟩
      have hnD : bytes.getD (offset.toNat / au.toNat) 0 = n := by
        rw [List.getD_eq_getElem?_getD, hn, Option.getD_some]
      have hround := fun i => @overlap_round au.toNat offset.toNat stop.toNat
        (min ((offset.toNat / au.toNat + 1) * au.toNat) stop.toNat) i hau hlt' le_rfl
        (min_le_left _ _)
      generalize hd : min (au - offset % au) (stop - offset) = diff at hdiff ⊢
      have hnext : (offset + diff).toNat =
          min ((offset.toNat / au.toNat + 1) * au.toNat) stop.toNat := by
        have := stop.toNat_lt
        rw [UInt32.toNat_add, Nat.mod_eq_of_lt (by omega)]
        omega
      have hsum : (n + diff).toNat = n.toNat + diff.toNat := by
        have hfit := hfits (offset.toNat / au.toNat)
        rw [hround, if_pos rfl, hnD, ← hdiff] at hfit
        rw [UInt32.toNat_add, Nat.mod_eq_of_lt (by omega)]
      have hset := @getD_set bytes n (n + diff) _ hn
      have hvalue : ∀ i, ((bytes.set (offset.toNat / au.toNat) (n + diff)).getD i 0).toNat +
          overlap au.toNat i (offset + diff).toNat stop.toNat =
          (bytes.getD i 0).toNat + overlap au.toNat i offset.toNat stop.toNat := by
        intro i
        rw [hset, hround, hnext, hdiff.symm]
        split_ifs with hi
        · rw [hsum, hi, hnD, Nat.add_assoc]
        · rw [Nat.zero_add]
      obtain ⟨bytes', hrun, hlen, hres⟩ := @ih (offset + diff)
        (bytes.set (offset.toNat / au.toNat) (n + diff)) (by omega)
        (by rwa [List.length_set]) (fun i => by rw [hvalue]; exact hfits i)
      refine ⟨bytes', ?_, hlen.trans List.length_set, fun i => by rw [hres, hvalue]⟩
      rw [if_pos hlt]
      simp only [hpos, hn, Option.bind_eq_bind, Option.bind_some]
      exact hrun
    · have hge : stop.toNat ≤ offset.toNat := not_lt.mp fun h => hlt (UInt32.lt_iff_toNat_lt.mpr h)
      rw [if_neg hlt]
      refine ⟨bytes, rfl, rfl, fun i => ?_⟩
      have hzero : overlap au.toNat i offset.toNat stop.toNat = 0 := by
        unfold overlap
        omega
      rw [hzero, Nat.add_zero]

end

/-! ## The released ranges -/

/-- The ranges that `put` has released so far: the maximal runs of a set, up to an offset, with the
offset after the last one. -/
structure RunsTo (S : Set ℕ) (stop : ℕ) (s : PutState) : Prop where
  runs : MaximalRuns S (spans s.release)
  last : ∀ l, s.release.getLast? = some l → l.offset.toNat + l.length.toNat = s.nextOffs
  bound : ∀ r ∈ spans s.release, r.2 ≤ stop

/-- The released ranges lie before a later offset too. -/
theorem RunsTo.mono {S : Set ℕ} {stop stop' : ℕ} {s : PutState} (h : RunsTo S stop s)
    (hle : stop ≤ stop') : RunsTo S stop' s :=
  ⟨h.runs, h.last, fun r hr => (h.bound r hr).trans hle⟩

/-- The last range comes last. -/
theorem spans_concat (es : List PExtent) (e : PExtent) :
    spans (es ++ [e]) = spans es ++ [(e.offset.toNat, e.offset.toNat + e.length.toNat)] :=
  List.map_append

/-- Releasing a unit leaves the counters. -/
@[simp] theorem releaseUnit_bytes (s : PutState) (au : UInt32) (p : ℕ) :
    (s.releaseUnit au p).bytes = s.bytes := by
  unfold PutState.releaseUnit
  split
  · dsimp only
    split_ifs
    · rfl
    · rfl
  · rfl

/-- Releasing a unit leaves what was found of the others. -/
@[simp] theorem releaseUnit_maybeEmpty (s : PutState) (au : UInt32) (p : ℕ) :
    (s.releaseUnit au p).maybeEmpty = s.maybeEmpty := by
  unfold PutState.releaseUnit
  split
  · dsimp only
    split_ifs
    · rfl
    · rfl
  · rfl

/-- A unit behind the ranges is released: it makes the last one longer, or is a new one. -/
theorem RunsTo.releaseUnit {S : Set ℕ} {s : PutState} {au : UInt32} {p : ℕ} (hau : 0 < au.toNat)
    (hfit : (p + 1) * au.toNat < 2 ^ 32) (h : RunsTo S (p * au.toNat) s) :
    RunsTo {x | x ∈ S ∨ p * au.toNat ≤ x ∧ x < (p + 1) * au.toNat} ((p + 1) * au.toNat)
      (s.releaseUnit au p) := by
  have hmul : (p + 1) * au.toNat = p * au.toNat + au.toNat := Nat.succ_mul _ _
  have hstart : (UInt64.ofNat (p * au.toNat)).toNat = p * au.toNat := by
    rw [UInt64.toNat_ofNat']
    exact Nat.mod_eq_of_lt (by omega)
  -- A new range behind the others.
  have hnew : (∀ r ∈ spans s.release, r.2 < p * au.toNat) →
      RunsTo {x | x ∈ S ∨ p * au.toNat ≤ x ∧ x < (p + 1) * au.toNat} ((p + 1) * au.toNat)
        { s with
          release := s.release ++ [⟨UInt64.ofNat (p * au.toNat), au⟩]
          nextOffs := p * au.toNat + au.toNat } := by
    intro hapart
    have hruns := h.runs
    rw [← List.append_nil (spans s.release)] at hruns
    rw [← List.append_nil (spans s.release ++ [])] at hruns
    constructor
    case runs =>
      rw [spans_concat, hstart, ← List.append_nil (spans s.release ++ _)]
      refine hruns.replace ?_ (List.pairwise_singleton _ _) ?_ ?_ ?_
      · simpa using hau
      · simpa using hapart
      · simp
      · intro x
        simp [hmul]
        tauto
    case last =>
      intro l hl
      rw [List.getLast?_concat] at hl
      obtain rfl := Option.some.inj hl
      rw [hstart]
    case bound =>
      intro r hr
      rw [spans_concat] at hr
      rcases List.mem_append.mp hr with hr | hr
      · exact (hapart r hr).le.trans (by omega)
      · obtain rfl := List.mem_singleton.mp hr
        dsimp only
        omega
  -- There is no range yet, or there is a last one.
  rcases List.eq_nil_or_concat s.release with hnil | ⟨es, l, hes⟩
  · have hres : s.releaseUnit au p = { s with
        release := s.release ++ [⟨UInt64.ofNat (p * au.toNat), au⟩]
        nextOffs := p * au.toNat + au.toNat } := by
      unfold PutState.releaseUnit
      simp only [hnil, List.getLast?_nil, List.nil_append]
    rw [hres]
    exact hnew (by simp [hnil, spans])
  -- The unit touches the last range, or leaves a gap.
  · rw [List.concat_eq_append] at hes
    have hlast : s.release.getLast? = some l := by rw [hes, List.getLast?_concat]
    have hend := h.last l hlast
    have hapart := h.runs.apart
    rw [hes, spans_concat, List.pairwise_append] at hapart
    have hbefore : ∀ r ∈ spans es, r.2 < l.offset.toNat := fun r hr =>
      hapart.2.2 r hr _ (List.mem_singleton.mpr rfl)
    have hbound : l.offset.toNat + l.length.toNat ≤ p * au.toNat := by
      have hmem : (l.offset.toNat, l.offset.toNat + l.length.toNat) ∈ spans s.release := by
        rw [hes, spans_concat]
        exact List.mem_append_right _ (List.mem_singleton.mpr rfl)
      exact h.bound _ hmem
    by_cases htouch : s.nextOffs = p * au.toNat
    · -- The last range ends where the unit begins.
      have hlen : (l.length + au).toNat = l.length.toNat + au.toNat := by
        rw [UInt32.toNat_add, Nat.mod_eq_of_lt (by omega)]
      have hres : s.releaseUnit au p = { s with
          release := es ++ [{ l with length := l.length + au }]
          nextOffs := s.nextOffs + au.toNat } := by
        unfold PutState.releaseUnit
        simp only [hlast, htouch, if_true]
        rw [hes, List.dropLast_concat]
      have hruns := h.runs
      rw [hes, spans_concat, ← List.append_nil (spans es ++ _)] at hruns
      have hpos := hruns.nonempty (l.offset.toNat, l.offset.toNat + l.length.toNat) (by simp)
      rw [hres]
      constructor
      case runs =>
        rw [spans_concat, ← List.append_nil (spans es ++ _)]
        refine hruns.replace ?_ (List.pairwise_singleton _ _) ?_ ?_ ?_
        · simp only [List.mem_singleton, forall_eq, hlen]
          omega
        · simpa using hbefore
        · simp
        · intro x
          have hx : l.offset.toNat ≤ x ∧ x < l.offset.toNat + l.length.toNat → x ∈ S := fun hx =>
            (hruns.mem x).mpr ⟨(l.offset.toNat, l.offset.toNat + l.length.toNat), by simp, hx⟩
          simp only [Set.mem_ofPred_eq, List.mem_singleton, exists_eq_left, hlen]
          constructor
          · rintro (hS | hunit)
            · by_cases hin : l.offset.toNat ≤ x ∧ x < l.offset.toNat + l.length.toNat
              · exact .inl (by omega)
              · exact .inr ⟨hS, hin⟩
            · exact .inl (by omega)
          · rintro (hin | ⟨hS, -⟩)
            · by_cases hold : x < l.offset.toNat + l.length.toNat
              · exact .inl (hx ⟨hin.1, hold⟩)
              · exact .inr (by omega)
            · exact .inl hS
      case last =>
        intro l' hl'
        rw [List.getLast?_concat] at hl'
        obtain rfl := Option.some.inj hl'
        dsimp only
        rw [hlen]
        omega
      case bound =>
        intro r hr
        rw [spans_concat] at hr
        rcases List.mem_append.mp hr with hr | hr
        · have := hbefore r hr
          omega
        · obtain rfl := List.mem_singleton.mp hr
          dsimp only
          rw [hlen]
          omega
    -- The unit begins behind the last range, as one of its own.
    · have hres : s.releaseUnit au p = { s with
          release := s.release ++ [⟨UInt64.ofNat (p * au.toNat), au⟩]
          nextOffs := p * au.toNat + au.toNat } := by
        unfold PutState.releaseUnit
        simp only [hlast, htouch, if_false]
      rw [hres]
      refine hnew fun r hr => ?_
      rw [hes, spans_concat] at hr
      rcases List.mem_append.mp hr with hr | hr
      · have := hbefore r hr
        omega
      · obtain rfl := List.mem_singleton.mp hr
        dsimp only
        omega

/-! ## The loop of `put` -/

/-- What `put` has done to the units from `first` up to `p`: it has released those that no references
are left to, and knows whether there are others. -/
structure Processed (au first p : ℕ) (s : PutState) : Prop where
  released : RunsTo {x | first ≤ x / au ∧ x / au < p ∧ s.bytes.getD (x / au) 0 = 0} (p * au) s
  maybeEmpty : s.maybeEmpty = true ↔ ∀ i, first ≤ i → i < p → s.bytes.getD i 0 = 0

/-- Before the loop no unit was processed. -/
theorem processed_start (au first : ℕ) (bytes : List UInt32) :
    Processed au first first { bytes } where
  released :=
    { runs := MaximalRuns.nil (by
        ext x
        simp only [Set.mem_ofPred_eq, Set.mem_empty_iff_false, iff_false]
        omega)
      last := by simp
      bound := by simp [spans] }
  maybeEmpty := by
    simp only [true_iff]
    omega

/-- The next unit is processed. -/
theorem Processed.next {au : UInt32} {first p : ℕ} {s : PutState} (hau : 0 < au.toNat)
    (hfit : (p + 1) * au.toNat < 2 ^ 32) (hfirst : first ≤ p) (h : Processed au.toNat first p s)
    {n k : UInt32} (hn : s.bytes[p]? = some n) :
    Processed au.toNat first (p + 1)
      (if k = 0 then PutState.releaseUnit { s with bytes := s.bytes.set p k } au p
        else { s with bytes := s.bytes.set p k, maybeEmpty := false }) := by
  have hset := fun i => @getD_set s.bytes n k p hn i
  -- Which bytes are in the unit.
  have hunit : ∀ x, x / au.toNat = p ↔ p * au.toNat ≤ x ∧ x < (p + 1) * au.toNat := by
    intro x
    rw [Nat.div_eq_iff hau, Nat.succ_mul]
    omega
  -- The counters before it are as they were.
  have hbefore : ∀ i, i < p → (s.bytes.set p k).getD i 0 = s.bytes.getD i 0 := fun i hi => by
    rw [hset, if_neg hi.ne]
  have hat : (s.bytes.set p k).getD p 0 = k := by rw [hset, if_pos rfl]
  have hrest : RunsTo {x | first ≤ x / au.toNat ∧ x / au.toNat < p ∧
      (s.bytes.set p k).getD (x / au.toNat) 0 = 0} (p * au.toNat)
      { s with bytes := s.bytes.set p k } := by
    have hS : {x | first ≤ x / au.toNat ∧ x / au.toNat < p ∧
        (s.bytes.set p k).getD (x / au.toNat) 0 = 0} =
        {x | first ≤ x / au.toNat ∧ x / au.toNat < p ∧ s.bytes.getD (x / au.toNat) 0 = 0} := by
      ext x
      simp only [Set.mem_ofPred_eq]
      constructor
      · rintro ⟨h1, h2, h3⟩
        exact ⟨h1, h2, hbefore _ h2 ▸ h3⟩
      · rintro ⟨h1, h2, h3⟩
        exact ⟨h1, h2, (hbefore _ h2).trans h3⟩
    rw [hS]
    exact ⟨h.released.runs, h.released.last, h.released.bound⟩
  -- All units are zero exactly when this one is, and those before it.
  have hall : ∀ b : List UInt32, (∀ i, b.getD i 0 = (s.bytes.set p k).getD i 0) →
      ((∀ i, first ≤ i → i < p + 1 → b.getD i 0 = 0) ↔
        k = 0 ∧ ∀ i, first ≤ i → i < p → s.bytes.getD i 0 = 0) := by
    intro b hb
    constructor
    · intro hz
      refine ⟨by rw [← hat, ← hb]; exact hz p hfirst (Nat.lt_succ_self p), fun i h1 h2 => ?_⟩
      rw [← hbefore i h2, ← hb]
      exact hz i h1 (by omega)
    · rintro ⟨hk, hz⟩ i h1 h2
      rw [hb]
      rcases Nat.lt_succ_iff_lt_or_eq.mp h2 with hlt | rfl
      · rw [hbefore i hlt]
        exact hz i h1 hlt
      · rw [hat, hk]
  -- A counter that has come to zero releases its unit, any other one ends the run.
  split_ifs with hk
  · constructor
    case released =>
      have hgrown := RunsTo.releaseUnit hau hfit hrest
      have hS : {x | first ≤ x / au.toNat ∧ x / au.toNat < p + 1 ∧
          (s.bytes.set p k).getD (x / au.toNat) 0 = 0} =
          {x | x ∈ {x | first ≤ x / au.toNat ∧ x / au.toNat < p ∧
            (s.bytes.set p k).getD (x / au.toNat) 0 = 0} ∨
            p * au.toNat ≤ x ∧ x < (p + 1) * au.toNat} := by
        ext x
        simp only [Set.mem_ofPred_eq, ← hunit]
        constructor
        · rintro ⟨h1, h2, h3⟩
          rcases Nat.lt_succ_iff_lt_or_eq.mp h2 with hlt | heq
          · exact .inl ⟨h1, hlt, h3⟩
          · exact .inr heq
        · rintro (⟨h1, h2, h3⟩ | heq)
          · exact ⟨h1, by omega, h3⟩
          · rw [heq, hat, hk]
            exact ⟨hfirst, Nat.lt_succ_self p, rfl⟩
      rw [releaseUnit_bytes, hS]
      exact hgrown
    case maybeEmpty =>
      rw [releaseUnit_maybeEmpty, releaseUnit_bytes, hall _ fun _ => rfl, h.maybeEmpty]
      exact (and_iff_right hk).symm
  -- Its bytes stay in use.
  · constructor
    case released =>
      have hS : {x | first ≤ x / au.toNat ∧ x / au.toNat < p + 1 ∧
          (s.bytes.set p k).getD (x / au.toNat) 0 = 0} =
          {x | first ≤ x / au.toNat ∧ x / au.toNat < p ∧
            (s.bytes.set p k).getD (x / au.toNat) 0 = 0} := by
        ext x
        simp only [Set.mem_ofPred_eq]
        constructor
        · rintro ⟨h1, h2, h3⟩
          refine ⟨h1, lt_of_le_of_ne (Nat.lt_succ_iff.mp h2) fun heq => ?_, h3⟩
          rw [heq, hat] at h3
          exact hk h3
        · rintro ⟨h1, h2, h3⟩
          exact ⟨h1, by omega, h3⟩
      dsimp only
      rw [hS]
      have := hrest.mono (Nat.mul_le_mul_right au.toNat (Nat.le_succ p))
      exact ⟨this.runs, this.last, this.bound⟩
    case maybeEmpty =>
      rw [hall _ fun _ => rfl]
      exact iff_of_false Bool.false_ne_true fun hz => hk hz.1

/-- The loop of `put` takes from each counter the bytes of its unit that are in the range, and
processes the units that have some. -/
theorem putLoop_spec {au offset stop : UInt32} (hau : 0 < au.toNat) {num : ℕ}
    (hfit : num * au.toNat < 2 ^ 32)
    (hin : offset.toNat < stop.toNat → stop.toNat ≤ num * au.toNat) {fuel : ℕ}
    (hfuel : stop.toNat - offset.toNat < fuel) {s : PutState} (hlen : s.bytes.length = num)
    (hcov : ∀ i, overlap au.toNat i offset.toNat stop.toNat ≤ (s.bytes.getD i 0).toNat) {first : ℕ}
    (hfirst : first ≤ offset.toNat / au.toNat)
    (h : Processed au.toNat first (offset.toNat / au.toNat) s) :
    ∃ s' p, putLoop au stop fuel offset s = some s' ∧ s'.bytes.length = num ∧
      (∀ i, (s'.bytes.getD i 0).toNat + overlap au.toNat i offset.toNat stop.toNat =
        (s.bytes.getD i 0).toNat) ∧
      Processed au.toNat first p s' ∧ offset.toNat / au.toNat ≤ p ∧
      ∀ i, offset.toNat / au.toNat ≤ i →
        (0 < overlap au.toNat i offset.toNat stop.toNat ↔ i < p) := by
  induction fuel generalizing offset s with
  -- The fuel is the number of units that are left.
  | zero => exact absurd hfuel (Nat.not_lt_zero _)
  | succ fuel ih =>
    unfold putLoop
    by_cases hlt : offset < stop
    -- The next round takes the bytes up to the end of the unit.
    · have hlt' := UInt32.lt_iff_toNat_lt.mp hlt
      have hin := hin hlt'
      have hdiff := round_toNat hau hlt'
      have hpos : (offset / au).toNat = offset.toNat / au.toNat := UInt32.toNat_div _ _
      have hphase : (offset % au).toNat = offset.toNat % au.toNat := UInt32.toNat_mod _ _
      have hsplit := Nat.mod_add_div offset.toNat au.toNat
      have hmod : offset.toNat % au.toNat < au.toNat := Nat.mod_lt _ hau
      rw [Nat.mul_comm] at hsplit
      have hunit : offset.toNat / au.toNat < num :=
        Nat.div_lt_of_lt_mul (by rw [Nat.mul_comm]; omega)
      have hboundary : (offset.toNat / au.toNat + 1) * au.toNat ≤ num * au.toNat :=
        Nat.mul_le_mul_right _ hunit
      rw [Nat.succ_mul] at hboundary
      -- The next round begins with the next unit.
      have hnext : (offset + (if offset % au = 0 then au else au - offset % au)).toNat =
          (offset.toNat / au.toNat + 1) * au.toNat := by
        rw [Nat.succ_mul]
        split_ifs with hzero
        · rw [hzero, UInt32.toNat_zero] at hphase
          rw [UInt32.toNat_add, Nat.mod_eq_of_lt (by omega)]
          omega
        · have hsub : (au - offset % au).toNat = au.toNat - offset.toNat % au.toNat := by
            rw [UInt32.toNat_sub_of_le _ _ (UInt32.le_iff_toNat_le.mpr (hphase ▸ hmod.le)), hphase]
          rw [UInt32.toNat_add, hsub, Nat.mod_eq_of_lt (by omega)]
          omega
      have hround := fun i => @overlap_round au.toNat offset.toNat stop.toNat
        ((offset.toNat / au.toNat + 1) * au.toNat) i hau hlt' (min_le_left _ _) le_rfl
      obtain ⟨n, hn⟩ : ∃ n, s.bytes[offset.toNat / au.toNat]? = some n :=
        ⟨_, List.getElem?_eq_getElem (hlen ▸ hunit)⟩
      have hnD : s.bytes.getD (offset.toNat / au.toNat) 0 = n := by
        rw [List.getD_eq_getElem?_getD, hn, Option.getD_some]
      generalize hd : min (au - offset % au) (stop - offset) = diff at hdiff ⊢
      have hpositive : 0 < diff.toNat := by
        rw [hdiff, Nat.succ_mul]
        omega
      have henough : diff.toNat ≤ n.toNat := by
        have hle := hcov (offset.toNat / au.toNat)
        rw [hround, if_pos rfl, hnD, ← hdiff] at hle
        omega
      have hsub : (n - diff).toNat = n.toNat - diff.toNat :=
        UInt32.toNat_sub_of_le _ _ (UInt32.le_iff_toNat_le.mpr henough)
      generalize hoff : offset + (if offset % au = 0 then au else au - offset % au) = offset' at *
      have hdivnext : offset'.toNat / au.toNat = offset.toNat / au.toNat + 1 := by
        rw [hnext, Nat.mul_div_cancel _ hau]
      have hset := @getD_set s.bytes n (n - diff) _ hn
      have hproc := h.next hau (by rw [Nat.succ_mul]; omega) hfirst (k := n - diff) hn
      have hbytes : (if n - diff = 0 then PutState.releaseUnit
            { s with bytes := s.bytes.set (offset.toNat / au.toNat) (n - diff) } au
            (offset.toNat / au.toNat)
          else { s with
            bytes := s.bytes.set (offset.toNat / au.toNat) (n - diff), maybeEmpty := false }).bytes =
          s.bytes.set (offset.toNat / au.toNat) (n - diff) := by
        split_ifs
        · rw [releaseUnit_bytes]
        · rfl
      generalize hs : (if n - diff = 0 then PutState.releaseUnit
            { s with bytes := s.bytes.set (offset.toNat / au.toNat) (n - diff) } au
            (offset.toNat / au.toNat)
          else { s with
            bytes := s.bytes.set (offset.toNat / au.toNat) (n - diff), maybeEmpty := false }) =
          s₁ at hproc hbytes
      have hvalue : ∀ i, (s.bytes.getD i 0).toNat =
          (s₁.bytes.getD i 0).toNat + if i = offset.toNat / au.toNat then diff.toNat else 0 := by
        intro i
        rw [hbytes, hset]
        split_ifs with hi
        · rw [hi, hnD, hsub]
          omega
        · rfl
      obtain ⟨s', p, hrun, hlen', hres, hproc', hp, htouched⟩ := @ih offset' (fun _ => hin)
        (by omega) s₁ (by rw [hbytes, List.length_set, hlen])
        (fun i => by
          have hle := hcov i
          rw [hround, hvalue, ← hdiff] at hle
          rw [hnext]
          omega)
        (by omega) (by rwa [hdivnext])
      refine ⟨s', p, ?_, hlen', ?_, hproc', by omega, ?_⟩
      · rw [if_pos hlt]
        simp only [hpos, hn, Option.bind_eq_bind, Option.bind_some, hd, hoff]
        rw [if_neg fun hshort => henough.not_gt (UInt32.lt_iff_toNat_lt.mp hshort), hs]
        exact hrun
      · intro i
        rw [hround, hvalue, ← hres, hnext, ← hdiff]
        omega
      · intro i hi
        rcases hi.eq_or_lt with rfl | hgt
        · refine iff_of_true ?_ (by omega)
          rw [hround, if_pos rfl, ← hdiff]
          omega
        · rw [hround, if_neg hgt.ne', Nat.zero_add, ← hnext]
          exact htouched i (by omega)
    · have hge : stop.toNat ≤ offset.toNat := not_lt.mp fun h => hlt (UInt32.lt_iff_toNat_lt.mpr h)
      have hzero : ∀ i, overlap au.toNat i offset.toNat stop.toNat = 0 := by
        intro i
        unfold overlap
        omega
      rw [if_neg hlt]
      refine ⟨s, _, rfl, hlen, fun i => by rw [hzero, Nat.add_zero], h, le_rfl, fun i hi => ?_⟩
      rw [hzero]
      omega

/-! ## Calls -/

/-- A call of `get` or `put`. -/
inductive Call where
  | get (offset len : UInt32)
  | put (offset len : UInt32)

/-- A tracker, with the number of references to each byte. -/
structure Counted where
  tracker : UseTracker
  refs : ℕ → ℕ

/-- A call, and what it does to the references. -/
def step (s : Counted) : Call → Option Counted
  | .get offset len => (s.tracker.get offset len).map fun t =>
      ⟨t, addRefs s.refs offset.toNat (offset.toNat + len.toNat)⟩
  | .put offset len => (s.tracker.put offset len).map fun r =>
      ⟨r.2.2, subRefs s.refs offset.toNat (offset.toNat + len.toNat)⟩

/-- References are taken to bytes of the blob, and given back where there are any; and no call of
`get` makes those to a unit as many as a counter has no room for. -/
def Allowed (au length : UInt32) (s : Counted) : Call → Prop
  | .get offset len => offset.toNat + len.toNat ≤ length.toNat ∧
      ∀ i, unitRefs au.toNat (addRefs s.refs offset.toNat (offset.toNat + len.toNat)) i < 2 ^ 32
  | .put offset len => CoveredBy s.refs offset.toNat (offset.toNat + len.toNat)

/-- The counters are the references: to the units, or to the only unit of a blob. -/
structure Counts (au length : UInt32) (s : Counted) : Prop where
  size : s.tracker.auSize = au
  inside : ∀ x, length.toNat ≤ x → s.refs x = 0
  total : ∀ n, s.tracker.count = .total n →
    length.toNat ≤ au.toNat ∧ n.toNat = unitRefs au.toNat s.refs 0
  perAu : ∀ bytes, s.tracker.count = .perAu bytes →
    length.toNat ≤ bytes.length * au.toNat ∧ bytes.length * au.toNat < 2 ^ 32 ∧
      ∀ i, (bytes.getD i 0).toNat = unitRefs au.toNat s.refs i

/-- A call of `put` goes through, answers whether no reference is left, and else releases the units
that it brought to zero. -/
def PutRight (au : UInt32) (s : Counted) (offset len : UInt32) : Prop :=
  let left := subRefs s.refs offset.toNat (offset.toNat + len.toNat)
  ∃ empty release t, s.tracker.put offset len = some (empty, release, t) ∧
    (empty = true ↔ ∀ x, left x = 0) ∧
    (empty = false → MaximalRuns {x | 0 < unitRefs au.toNat s.refs (x / au.toNat) ∧
      unitRefs au.toNat left (x / au.toNat) = 0} (spans release))

/-- A unit has no references when none of its bytes has. -/
theorem unitRefs_eq_zero_iff {au : ℕ} {refs : ℕ → ℕ} {i : ℕ} :
    unitRefs au refs i = 0 ↔ ∀ x, i * au ≤ x → x < (i + 1) * au → refs x = 0 := by
  simp only [unitRefs, Finset.sum_eq_zero_iff, Finset.mem_Ico, and_imp]

/-- The units that have references left are those of the bytes that have. -/
theorem forall_unitRefs {au : ℕ} (hau : 0 < au) {refs : ℕ → ℕ} :
    (∀ i, unitRefs au refs i = 0) ↔ ∀ x, refs x = 0 := by
  simp only [unitRefs_eq_zero_iff]
  constructor
  · intro h x
    refine h (x / au) x (Nat.div_mul_le_self _ _) ?_
    rw [Nat.mul_comm]
    exact Nat.lt_mul_div_succ x hau
  · exact fun h _ x _ _ => h x

/-- References lie in the blob. -/
theorem CoveredBy.stop_le {refs : ℕ → ℕ} {start stop length : ℕ} (h : CoveredBy refs start stop)
    (hinside : ∀ x, length ≤ x → refs x = 0) (hlt : start < stop) : stop ≤ length := by
  by_contra hgt
  have hzero := hinside (stop - 1) (by omega)
  have hpos := h (stop - 1) (by omega) (by omega)
  omega

/-- The references to a unit before some are given back. -/
theorem unitRefs_subRefs {refs : ℕ → ℕ} {start stop : ℕ} (h : CoveredBy refs start stop)
    (au i : ℕ) :
    unitRefs au refs i = unitRefs au (subRefs refs start stop) i + overlap au i start stop := by
  rw [← unitRefs_addRefs, addRefs_subRefs h]

/-- The references of the units are those of the bytes. -/
theorem sum_unitRefs (au : ℕ) (refs : ℕ → ℕ) (n : ℕ) :
    ∑ i ∈ Finset.range n, unitRefs au refs i = ∑ x ∈ Finset.range (n * au), refs x := by
  induction n with
  | zero => simp
  | succ n ih =>
    rw [Finset.sum_range_succ, ih, unitRefs, Nat.succ_mul, Finset.range_eq_Ico,
      Finset.range_eq_Ico, Finset.sum_Ico_consecutive _ (Nat.zero_le _) (Nat.le_add_right _ _)]

/-- The sum of the counters, by their places. -/
theorem sum_map_toNat (bytes : List UInt32) :
    (bytes.map UInt32.toNat).sum = ∑ i ∈ Finset.range bytes.length, (bytes.getD i 0).toNat := by
  induction bytes with
  | nil => rfl
  | cons n bytes ih =>
    rw [List.map_cons, List.sum_cons, ih, List.length_cons, Finset.sum_range_succ', Nat.add_comm]
    rfl

/-- The counters together are no less than what is given back, so that the rounds suffice. -/
theorem le_sum_bytes {au : ℕ} {refs : ℕ → ℕ} {bytes : List UInt32}
    (hbytes : ∀ i, (bytes.getD i 0).toNat = unitRefs au refs i) {start stop : ℕ}
    (h : CoveredBy refs start stop) (hin : stop ≤ bytes.length * au) :
    stop - start ≤ (bytes.map UInt32.toNat).sum := by
  have hsum : (bytes.map UInt32.toNat).sum = ∑ x ∈ Finset.range (bytes.length * au), refs x := by
    rw [← sum_unitRefs, ← Finset.sum_congr rfl fun i _ => hbytes i]
    exact sum_map_toNat bytes
  rw [hsum]
  calc stop - start = ∑ x ∈ Finset.Ico start stop, 1 := by
        rw [Finset.sum_const, Nat.card_Ico, smul_eq_mul, Nat.mul_one]
    _ ≤ ∑ x ∈ Finset.Ico start stop, refs x := Finset.sum_le_sum fun x hx =>
        h x (Finset.mem_Ico.mp hx).1 (Finset.mem_Ico.mp hx).2
    _ ≤ ∑ x ∈ Finset.range (bytes.length * au), refs x :=
        Finset.sum_le_sum_of_subset fun x hx => by
          rw [Finset.mem_Ico] at hx
          rw [Finset.mem_range]
          omega

/-! ## What the counters are -/

/-- `init` makes a counter for each unit, if its sum does not wrap around or there is one unit. -/
theorem counts_init {au length : UInt32} (hau : 0 < au)
    (hinit : length ≤ au ∨ length.toNat + au.toNat ≤ 2 ^ 32) :
    Counts au length ⟨init length au hau, fun _ => 0⟩ := by
  have hpos : 0 < au.toNat := UInt32.lt_iff_toNat_lt.mp hau
  have hlt := au.toNat_lt
  have hlength := length.toNat_lt
  have hzero : ∀ i, unitRefs au.toNat (fun _ => 0) i = 0 := fun i => by simp [unitRefs]
  have hnum : ((length + au - 1) / au).toNat =
      (length.toNat + au.toNat - 1) % 2 ^ 32 / au.toNat := by
    rw [UInt32.toNat_div, UInt32.toNat_sub, UInt32.toNat_add, UInt32.toNat_one]
    congr 1
    omega
  have hfits : au.toNat < length.toNat →
      ((length + au - 1) / au).toNat = (length.toNat + au.toNat - 1) / au.toNat ∧
        length.toNat + au.toNat ≤ 2 ^ 32 := by
    intro hmany
    have hle : length.toNat + au.toNat ≤ 2 ^ 32 :=
      hinit.resolve_left fun h => hmany.not_ge (UInt32.le_iff_toNat_le.mp h)
    rw [hnum, Nat.mod_eq_of_lt (by omega)]
    exact ⟨rfl, hle⟩
  refine ⟨rfl, fun _ _ => rfl, fun n hn => ?_, fun bytes hb => ?_⟩
  · rcases @init_count_cases length au hau with ⟨hle, hc⟩ | ⟨-, hc⟩
    · obtain rfl := UseCount.total.inj (hc.symm.trans hn)
      refine ⟨not_lt.mp fun hmany => ?_, (hzero 0).symm⟩
      have htwo : 2 ≤ (length.toNat + au.toNat - 1) / au.toNat := by
        rw [Nat.le_div_iff_mul_le hpos]
        omega
      have := (hfits hmany).1
      omega
    · cases hc.symm.trans hn
  · rcases @init_count_cases length au hau with ⟨-, hc⟩ | ⟨hge, hc⟩
    · cases hc.symm.trans hb
    · obtain rfl := UseCount.perAu.inj (hc.symm.trans hb)
      -- There are two units or more, so the blob is longer than one.
      have hmany : au.toNat < length.toNat := by
        by_contra hone
        have hsmall : (length.toNat + au.toNat - 1) % 2 ^ 32 / au.toNat < 2 := by
          rw [Nat.div_lt_iff_lt_mul hpos]
          have := Nat.mod_le (length.toNat + au.toNat - 1) (2 ^ 32)
          omega
        omega
      obtain ⟨hexact, hle⟩ := hfits hmany
      have hdiv := Nat.div_mul_le_self (length.toNat + au.toNat - 1) au.toNat
      have hceil := Nat.lt_mul_div_succ (length.toNat + au.toNat - 1) hpos
      rw [Nat.mul_comm, Nat.succ_mul] at hceil
      rw [List.length_replicate, hexact]
      refine ⟨by omega, by omega, fun i => ?_⟩
      rw [List.getD_eq_getElem?_getD, List.getElem?_replicate, hzero]
      split_ifs
      · rfl
      · rfl

section
variable {au length : UInt32} {s : Counted} {offset len : UInt32}

/-- The only unit of a blob has the bytes of the range. -/
theorem overlap_first (hstop : offset.toNat + len.toNat ≤ au.toNat) :
    overlap au.toNat 0 offset.toNat (offset.toNat + len.toNat) = len.toNat := by
  unfold overlap
  omega

/-- `get` of a tracker with one counter adds to it. -/
theorem get_total {t : UseTracker} {n : UInt32} (h : t.count = .total n) :
    ∃ t', t.get offset len = some t' ∧ t'.auSize = t.auSize ∧ t'.count = .total (n + len) := by
  obtain ⟨a, c, ha⟩ := t
  obtain rfl : c = .total n := h
  exact ⟨_, rfl, rfl, rfl⟩

/-- `get` of a tracker with counters goes through the units. -/
theorem get_perAu {t : UseTracker} {bytes bytes' : List UInt32} (h : t.count = .perAu bytes)
    (hloop : getLoop t.auSize (offset + len) (len.toNat + 1) offset bytes = some bytes') :
    ∃ t', t.get offset len = some t' ∧ t'.auSize = t.auSize ∧ t'.count = .perAu bytes' := by
  obtain ⟨a, c, ha⟩ := t
  obtain rfl : c = .perAu bytes := h
  refine ⟨⟨a, .perAu bytes', fun _ => ha ⟨bytes, rfl⟩⟩, ?_, rfl, rfl⟩
  exact Option.map_eq_some_iff.mpr ⟨bytes', hloop, rfl⟩

/-- A range that ends within the units that `init` makes counters for; a blob of one unit has one
counter for whatever it is given. -/
def InUnits (full au offset len : UInt32) : Prop :=
  ((full + au - 1) / au).toNat ≤ 1 ∨
    (offset + len).toNat ≤ max offset.toNat (((full + au - 1) / au).toNat * au.toNat)

/-- A call of `get` counts the references that it takes. -/
theorem Counts.get (hau : 0 < au) (h : Counts au length s)
    (hok : Allowed au length s (.get offset len)) :
    ∃ s', step s (.get offset len) = some s' ∧ Counts au length s' := by
  obtain ⟨hin, hfits⟩ := hok
  have hpos : 0 < au.toNat := UInt32.lt_iff_toNat_lt.mp hau
  have hstop : (offset + len).toNat = offset.toNat + len.toNat := by
    have := length.toNat_lt
    rw [UInt32.toNat_add, Nat.mod_eq_of_lt (by omega)]
  have hinside : ∀ x, length.toNat ≤ x →
      addRefs s.refs offset.toNat (offset.toNat + len.toNat) x = 0 := by
    intro x hx
    rw [addRefs, h.inside x hx, if_neg (by omega)]
  cases hc : s.tracker.count with
  | total n =>
    obtain ⟨hone, hn⟩ := h.total n hc
    obtain ⟨t', hget, hsize, hcount⟩ := @get_total offset len _ _ hc
    have hrefs := unitRefs_addRefs au.toNat s.refs offset.toNat (offset.toNat + len.toNat) 0
    rw [overlap_first (hin.trans hone)] at hrefs
    refine ⟨⟨t', _⟩, Option.map_eq_some_iff.mpr ⟨t', hget, rfl⟩, hsize.trans h.size, hinside, ?_, ?_⟩
    · intro k hk
      obtain rfl := UseCount.total.inj (hcount.symm.trans hk)
      have hfit := hfits 0
      refine ⟨hone, ?_⟩
      rw [UInt32.toNat_add, Nat.mod_eq_of_lt (by omega), hrefs, hn]
    · intro bytes hb
      cases hcount.symm.trans hb
  | perAu bytes =>
    obtain ⟨hcover, hroom, hbytes⟩ := h.perAu bytes hc
    obtain ⟨bytes', hloop, hlen, hres⟩ := @getLoop_spec au offset (offset + len) bytes hpos
      (len.toNat + 1) (by omega) (by omega) (fun i => by
        rw [hbytes, hstop, ← unitRefs_addRefs]
        exact hfits i)
    obtain ⟨t', hget, hsize, hcount⟩ := get_perAu hc (by rwa [h.size])
    refine ⟨⟨t', _⟩, Option.map_eq_some_iff.mpr ⟨t', hget, rfl⟩, hsize.trans h.size, hinside, ?_, ?_⟩
    · intro k hk
      cases hcount.symm.trans hk
    · intro b hb
      obtain rfl := UseCount.perAu.inj (hcount.symm.trans hb)
      rw [hlen]
      refine ⟨hcover, hroom, fun i => ?_⟩
      rw [hres, hbytes, hstop, unitRefs_addRefs]

/-- A tracker is empty when all its counters are zero. -/
theorem isEmpty_perAu {t : UseTracker} {bytes : List UInt32} (h : t.count = .perAu bytes) :
    t.isEmpty = true ↔ ∀ i, (bytes.getD i 0).toNat = 0 := by
  have hempty : t.isEmpty = bytes.all (· == 0) := by rw [isEmpty, h]
  rw [hempty, List.all_eq_true]
  constructor
  · intro hall i
    rw [List.getD_eq_getElem?_getD]
    cases hi : bytes[i]? with
    | none => rfl
    | some n =>
      have hn := beq_iff_eq.mp (hall n (List.mem_of_getElem? hi))
      rw [hn]
      rfl
  · intro hall n hn
    obtain ⟨i, hi, rfl⟩ := List.mem_iff_getElem.mp hn
    have hz := hall i
    rw [List.getD_eq_getElem _ _ hi] at hz
    exact beq_iff_eq.mpr (UInt32.toNat_inj.mp hz)

/-- `put` of a tracker with one counter takes from it. -/
theorem put_total {t : UseTracker} {n : UInt32} (h : t.count = .total n) :
    ∃ t', t.put offset len = some (decide (n ≤ len), [], t') ∧ t'.auSize = t.auSize ∧
      t'.count = .total (if n ≤ len then 0 else n - len) := by
  obtain ⟨a, c, ha⟩ := t
  obtain rfl : c = .total n := h
  refine ⟨⟨a, .total (if n ≤ len then 0 else n - len), by simp⟩, ?_, rfl, rfl⟩
  unfold put
  dsimp only
  split_ifs with hle
  · simp [hle]
  · simp [hle]

/-- `put` of a tracker with counters goes through the units. -/
theorem put_perAu {t : UseTracker} {bytes : List UInt32} {s' : PutState}
    (h : t.count = .perAu bytes)
    (hloop : putLoop t.auSize (offset + len) ((bytes.map UInt32.toNat).sum + 1) offset { bytes } =
      some s') :
    ∃ t', t'.auSize = t.auSize ∧ t'.count = .perAu s'.bytes ∧ t.put offset len =
      some (s'.maybeEmpty && t'.isEmpty,
        if (s'.maybeEmpty && t'.isEmpty) = true then [] else s'.release, t') := by
  obtain ⟨a, c, ha⟩ := t
  obtain rfl : c = .perAu bytes := h
  exact ⟨⟨a, .perAu s'.bytes, fun _ => ha ⟨bytes, rfl⟩⟩, rfl, rfl,
    Option.map_eq_some_iff.mpr ⟨s', hloop, rfl⟩⟩

/-- A call of `put` for the only unit of a blob. -/
theorem Counts.put_of_total (hau : 0 < au) (h : Counts au length s) {n : UInt32}
    (hc : s.tracker.count = .total n)
    (hcov : CoveredBy s.refs offset.toNat (offset.toNat + len.toNat)) :
    PutRight au s offset len ∧
      ∃ s', step s (.put offset len) = some s' ∧ Counts au length s' := by
  have hpos : 0 < au.toNat := UInt32.lt_iff_toNat_lt.mp hau
  obtain ⟨hone, hn⟩ := h.total n hc
  obtain ⟨t', hput, hsize, hcount⟩ := @put_total offset len _ _ hc
  have hrefs := unitRefs_subRefs hcov au.toNat 0
  have hover : overlap au.toNat 0 offset.toNat (offset.toNat + len.toNat) = len.toNat := by
    rcases Nat.eq_zero_or_pos len.toNat with hzero | hlen
    · rw [hzero]
      unfold overlap
      omega
    · exact overlap_first ((hcov.stop_le h.inside (by omega)).trans hone)
  rw [hover, ← hn] at hrefs
  have hinside : ∀ x, length.toNat ≤ x →
      subRefs s.refs offset.toNat (offset.toNat + len.toNat) x = 0 := by
    intro x hx
    rw [subRefs, h.inside x hx, Nat.zero_sub]
  have hothers : ∀ refs : ℕ → ℕ, (∀ x, length.toNat ≤ x → refs x = 0) → ∀ i, 0 < i →
      unitRefs au.toNat refs i = 0 := by
    intro refs hrefs i hi
    refine unitRefs_eq_zero_iff.mpr fun x hx _ => hrefs x ?_
    have : 1 * au.toNat ≤ i * au.toNat := Nat.mul_le_mul_right _ hi
    omega
  have hle : n ≤ len ↔
      unitRefs au.toNat (subRefs s.refs offset.toNat (offset.toNat + len.toNat)) 0 = 0 := by
    rw [UInt32.le_iff_toNat_le]
    omega
  have hempty : n ≤ len ↔
      ∀ x, subRefs s.refs offset.toNat (offset.toNat + len.toNat) x = 0 := by
    rw [hle, ← forall_unitRefs hpos]
    constructor
    · intro h0 i
      rcases Nat.eq_zero_or_pos i with rfl | hi
      · exact h0
      · exact hothers _ hinside i hi
    · exact fun hall => hall 0
  constructor
  · refine ⟨_, _, t', hput, by rw [decide_eq_true_iff, hempty], fun hfalse => ?_⟩
    -- The only unit still has references.
    refine MaximalRuns.nil (Set.eq_empty_iff_forall_notMem.mpr fun x hx => ?_)
    obtain ⟨hbefore, hafter⟩ := hx
    rcases Nat.eq_zero_or_pos (x / au.toNat) with hx0 | hx0
    · rw [hx0] at hafter
      exact of_decide_eq_false hfalse (hle.mpr hafter)
    · rw [hothers _ h.inside _ hx0] at hbefore
      exact lt_irrefl _ hbefore
  · refine ⟨⟨t', _⟩, Option.map_eq_some_iff.mpr ⟨_, hput, rfl⟩, hsize.trans h.size, hinside, ?_, ?_⟩
    · intro k hk
      obtain rfl := UseCount.total.inj (hcount.symm.trans hk)
      refine ⟨hone, ?_⟩
      split_ifs with hz
      · exact (hle.mp hz).symm
      · rw [UInt32.toNat_sub_of_le _ _ (UInt32.le_iff_toNat_le.mpr
          (not_le.mp fun hge => hz (UInt32.le_iff_toNat_le.mpr hge)).le)]
        dsimp only
        omega
    · intro bytes hb
      cases hcount.symm.trans hb

/-- A call of `put` for a blob of several units. -/
theorem Counts.put_of_perAu (hau : 0 < au) (h : Counts au length s) {bytes : List UInt32}
    (hc : s.tracker.count = .perAu bytes)
    (hcov : CoveredBy s.refs offset.toNat (offset.toNat + len.toNat)) :
    PutRight au s offset len ∧
      ∃ s', step s (.put offset len) = some s' ∧ Counts au length s' := by
  have hpos : 0 < au.toNat := UInt32.lt_iff_toNat_lt.mp hau
  -- The counters are the references, unit by unit.
  obtain ⟨hcover, hroom, hbytes⟩ := h.perAu bytes hc
  have hlength := length.toNat_lt
  have hwithin : 0 < len.toNat → offset.toNat + len.toNat ≤ length.toNat := fun hlen =>
    hcov.stop_le h.inside (by omega)
  have hstop : (offset + len).toNat = offset.toNat + len.toNat := by
    rcases Nat.eq_zero_or_pos len.toNat with hzero | hlen
    · have := offset.toNat_lt
      rw [UInt32.toNat_add, hzero, Nat.add_zero, Nat.mod_eq_of_lt this]
    · have := hwithin hlen
      rw [UInt32.toNat_add, Nat.mod_eq_of_lt (by omega)]
  have hrefs := fun i => unitRefs_subRefs hcov au.toNat i
  -- The loop has a round for every unit of the range.
  have hrounds : len.toNat ≤ (bytes.map UInt32.toNat).sum := by
    rcases Nat.eq_zero_or_pos len.toNat with hzero | hlen
    · omega
    · have := le_sum_bytes hbytes hcov (by have := hwithin hlen; omega)
      omega
  obtain ⟨s', p, hloop, hlen', hres, hproc, hp, htouched⟩ := @putLoop_spec au offset (offset + len)
    hpos bytes.length hroom (by rw [hstop]; intro hlt; have := hwithin (by omega); omega)
    ((bytes.map UInt32.toNat).sum + 1) (by rw [hstop]; omega) { bytes } rfl
    (fun i => by rw [hstop, hbytes, hrefs]; exact Nat.le_add_left _ _) _ le_rfl
    (processed_start au.toNat (offset.toNat / au.toNat) bytes)
  obtain ⟨t', hsize, hcount, hput⟩ := put_perAu hc (by rwa [h.size])
  -- Each counter is now that of the references that are left.
  have hafter : ∀ i, (s'.bytes.getD i 0).toNat =
      unitRefs au.toNat (subRefs s.refs offset.toNat (offset.toNat + len.toNat)) i := by
    intro i
    have hi := hres i
    rw [hbytes, hrefs, hstop] at hi
    omega
  have hempty : t'.isEmpty = true ↔
      ∀ x, subRefs s.refs offset.toNat (offset.toNat + len.toNat) x = 0 := by
    rw [isEmpty_perAu hcount]
    simp only [hafter]
    exact forall_unitRefs hpos
  -- The tracker is empty exactly when every counter is zero.
  have hboth : (s'.maybeEmpty && t'.isEmpty) = true ↔ t'.isEmpty = true := by
    rw [Bool.and_eq_true, and_iff_right_iff_imp, hproc.maybeEmpty, isEmpty_perAu hcount]
    exact fun hall i _ _ => UInt32.toNat_inj.mp (hall i)
  constructor
  · refine ⟨_, _, t', hput, hboth.trans hempty, fun hfalse => ?_⟩
    -- Which bytes are released.
    have hS : {x | 0 < unitRefs au.toNat s.refs (x / au.toNat) ∧
        unitRefs au.toNat (subRefs s.refs offset.toNat (offset.toNat + len.toNat))
          (x / au.toNat) = 0} =
        {x | offset.toNat / au.toNat ≤ x / au.toNat ∧ x / au.toNat < p ∧
          s'.bytes.getD (x / au.toNat) 0 = 0} := by
      ext x
      rw [Set.mem_ofPred_eq, Set.mem_ofPred_eq, ← UInt32.toNat_inj, hafter, UInt32.toNat_zero]
      generalize x / au.toNat = i
      have hi := hrefs i
      rcases Nat.lt_or_ge i (offset.toNat / au.toNat) with hlt | hge
      · -- A unit before the range.
        have hle : (i + 1) * au.toNat ≤ offset.toNat / au.toNat * au.toNat :=
          Nat.mul_le_mul_right _ hlt
        have hdiv := Nat.div_mul_le_self offset.toNat au.toNat
        have hnone : overlap au.toNat i offset.toNat (offset.toNat + len.toNat) = 0 := by
          unfold overlap
          omega
        omega
      · have htouch := htouched i hge
        rw [hstop] at htouch
        omega
    rw [if_neg (by rw [hfalse]; exact Bool.false_ne_true), hS]
    exact hproc.released.runs
  · refine ⟨⟨t', _⟩, Option.map_eq_some_iff.mpr ⟨_, hput, rfl⟩, hsize.trans h.size, ?_, ?_, ?_⟩
    · intro x hx
      dsimp only
      rw [subRefs, h.inside x hx, Nat.zero_sub]
    · intro k hk
      cases hcount.symm.trans hk
    · intro b hb
      obtain rfl := UseCount.perAu.inj (hcount.symm.trans hb)
      rw [hlen']
      exact ⟨hcover, hroom, hafter⟩

/-- A call of `put` is right, and leaves the counters right. -/
theorem Counts.put (hau : 0 < au) (h : Counts au length s)
    (hcov : CoveredBy s.refs offset.toNat (offset.toNat + len.toNat)) :
    PutRight au s offset len ∧
      ∃ s', step s (.put offset len) = some s' ∧ Counts au length s' := by
  cases hc : s.tracker.count with
  | total n => exact h.put_of_total hau hc hcov
  | perAu bytes => exact h.put_of_perAu hau hc hcov

end

/-- For every unit size, blob length and sequence of calls of `get` and `put` in which references are
given back where there are any: if the blob is no longer than a unit or the sum in `init` does not
wrap around, and no counter overflows, every call goes through, the counters are the references to
the units, and the next call of `put` is right. -/
theorem tracker_counts {au length : UInt32} (hau : 0 < au)
    (hinit : length ≤ au ∨ length.toNat + au.toNat ≤ 2 ^ 32) {calls : List Call}
    (hm : Runs.Meets step (Allowed au length) ⟨init length au hau, fun _ => 0⟩ calls) :
    ∃ s, Runs.exec step ⟨init length au hau, fun _ => 0⟩ calls = some s ∧ Counts au length s ∧
      ∀ offset len : UInt32, CoveredBy s.refs offset.toNat (offset.toNat + len.toNat) →
        PutRight au s offset len := by
  have hstep : ∀ s c, Counts au length s → Allowed au length s c →
      ∃ s', step s c = some s' ∧ Counts au length s' := by
    intro s c h hok
    cases c with
    | get offset len => exact h.get hau hok
    | put offset len => exact (h.put hau hok).2
  obtain ⟨s, hrun, hs⟩ := Runs.exec_total hstep calls _ (counts_init hau hinit) hm
  exact ⟨s, hrun, hs, fun offset len hcov => (hs.put hau hcov).1⟩

/-- References are taken to two of three units, and given back for the first. -/
theorem tracker_counts_threeUnits :
    ∃ s, Runs.exec step ⟨init 12 4 (by decide), fun _ => 0⟩ [.get 0 8, .put 0 4] = some s ∧
      Counts 4 12 s ∧ ∀ offset len : UInt32,
        CoveredBy s.refs offset.toNat (offset.toNat + len.toNat) → PutRight 4 s offset len := by
  refine tracker_counts (by decide) (.inr (by decide)) ⟨⟨by decide, fun i => ?_⟩, ?_⟩
  · have hle : unitRefs 4 (addRefs (fun _ => 0) 0 8) i ≤ 4 := by
      refine (Finset.sum_le_card_nsmul _ _ 1 fun x _ => ?_).trans ?_
      · unfold addRefs
        split_ifs
        · exact le_rfl
        · exact Nat.zero_le _
      · rw [Nat.card_Ico, Nat.succ_mul, Nat.add_sub_cancel_left]
        decide
    exact hle.trans_lt (by norm_num)
  · intro s hs
    have hs' : ((init 12 4 (by decide)).get 0 8).map (fun t =>
        (⟨t, addRefs (fun _ => 0) 0 8⟩ : Counted)) = some s := hs
    obtain ⟨t, -, rfl⟩ := Option.map_eq_some_iff.mp hs'
    refine ⟨fun x hx hx' => ?_, fun _ _ => trivial⟩
    have hlt : 0 ≤ x ∧ x < 8 := ⟨Nat.zero_le x, hx'.trans (by decide)⟩
    show 0 < 0 + if 0 ≤ x ∧ x < 8 then 1 else 0
    rw [if_pos hlt]
    exact Nat.one_pos

/-- The blob is within a unit of the end of the number range: `init` finds no unit, and the release of
the first one is not noticed. -/
theorem wideBlob_releases_nothing :
    ∃ s, Runs.exec step ⟨init 0xFFFFF800 0x1000 (by decide), fun _ => 0⟩ [.get 0 0x2000] = some s ∧
      CoveredBy s.refs 0 0x1000 ∧ ¬ PutRight 0x1000 s 0 0x1000 := by
  have hrefs : ∀ x, x < 0x2000 → addRefs (fun _ => 0) 0 0x2000 x = 1 := by
    intro x hx
    rw [addRefs, if_pos ⟨Nat.zero_le x, hx⟩]
  refine ⟨⟨⟨0x1000, .total 0x2000, fun h => nomatch h⟩, addRefs (fun _ => 0) 0 0x2000⟩, rfl,
    fun x _ hx => ?_, ?_⟩
  · exact Nat.lt_of_lt_of_eq Nat.one_pos (hrefs x (hx.trans (by decide))).symm
  · rintro ⟨empty, release, t, hput, -, hruns⟩
    have hput' : (false, ([] : List PExtent)) = (empty, release) :=
      congrArg (fun r => (r.1, r.2.1)) (Option.some.inj hput)
    obtain ⟨rfl, rfl⟩ := Prod.mk.inj hput'
    -- The first unit has lost its references and is in no range.
    have hbefore : 0 < unitRefs 0x1000 (addRefs (fun _ => 0) 0 0x2000) 0 := by
      refine Nat.pos_of_ne_zero fun hz => ?_
      have := unitRefs_eq_zero_iff.mp hz 0 (by decide) (by decide)
      rw [hrefs 0 (by decide)] at this
      cases this
    have hafter :
        unitRefs 0x1000 (subRefs (addRefs (fun _ => 0) 0 0x2000) 0 0x1000) 0 = 0 := by
      refine unitRefs_eq_zero_iff.mpr fun x _ hx => ?_
      have hlt : x < 0x1000 := hx
      rw [subRefs, hrefs x (hlt.trans (by decide)), if_pos ⟨Nat.zero_le x, hlt⟩]
    obtain ⟨r, hr, -⟩ := ((hruns rfl).mem 0).mp ⟨hbefore, hafter⟩
    cases hr

end CxxLab.Bluestore.Object.UseTracker
