import CxxLab.Bluestore.BlobLayout
import CxxLab.Lib.MaximalRuns

/-!
# Partial release

`release_extents` takes out the extents that one of the released ranges covers and closes the gap,
although a blob is mapped by position. `releaseExtents_keeps_iff` says when the rest of the blob is
still where it was: every allocated extent lies in the released units or apart from them, and behind
an extent that is taken out there is nothing allocated and no reference that needs its length.
-/

namespace CxxLab.Bluestore.Object

open scoped Classical in
/-- The addresses that the bytes at the positions of a set have. -/
noncomputable def addressesIn (R : Set ℕ) : ℕ → List (Option UInt64) → List UInt64
  | _, [] => []
  | off, a :: l => (if off ∈ R then a.toList else []) ++ addressesIn R (off + 1) l

/-! ## Extents with their positions -/

/-- The whole extent lies in the set. -/
def Inside (R : Set ℕ) (p : ℕ × PExtent) : Prop :=
  ∀ x, p.1 ≤ x → x < p.1 + p.2.length.toNat → x ∈ R

/-- No byte of the extent lies in the set. -/
def Outside (R : Set ℕ) (p : ℕ × PExtent) : Prop :=
  ∀ x, p.1 ≤ x → x < p.1 + p.2.length.toNat → x ∉ R

/-- The list has the maximal runs of the released units. -/
structure ReleasedRuns (R : Set ℕ) (logical : List PExtent) : Prop where
  runs : MaximalRuns R (spans logical)
  fits : ∀ l ∈ logical, l.offset.toNat + l.length.toNat < 2 ^ 64

/-- One of the ranges covers an extent: the test of `release_extents`. -/
def Covered (logical : List PExtent) (off : ℕ) (e : PExtent) : Prop :=
  ∃ l ∈ logical, l.offset.toNat ≤ off ∧ off + e.length.toNat ≤ l.offset.toNat + l.length.toNat

section
variable {R : Set ℕ} {logical : List PExtent} {e : PExtent} {es : List PExtent}

/-- The addresses in a set, of two parts of a layout. -/
theorem addressesIn_append (off : ℕ) (a b : List (Option UInt64)) :
    addressesIn R off (a ++ b) = addressesIn R off a ++ addressesIn R (off + a.length) b := by
  induction a generalizing off with
  | nil => rfl
  | cons x a ih =>
    rw [List.cons_append, addressesIn, addressesIn, ih, List.append_assoc, List.length_cons,
      Nat.add_right_comm, Nat.add_assoc]

/-- Bytes that lie in the set give all their addresses. -/
theorem addressesIn_of_inside {off : ℕ} {l : List (Option UInt64)}
    (h : ∀ x, off ≤ x → x < off + l.length → x ∈ R) : addressesIn R off l = l.reduceOption := by
  induction l generalizing off with
  | nil => rfl
  | cons a l ih =>
    rw [List.length_cons] at h
    rw [addressesIn, if_pos (h off le_rfl (by omega)), ih fun x hx hx' => h x (by omega) (by omega)]
    cases a with
    | none => rfl
    | some p => rfl

/-- Bytes that lie apart from the set give no address. -/
theorem addressesIn_of_outside {off : ℕ} {l : List (Option UInt64)}
    (h : ∀ x, off ≤ x → x < off + l.length → x ∉ R) : addressesIn R off l = [] := by
  induction l generalizing off with
  | nil => rfl
  | cons a l ih =>
    rw [List.length_cons] at h
    rw [addressesIn, if_neg (h off le_rfl (by omega)), ih fun x hx hx' => h x (by omega) (by omega),
      List.append_nil]

/-- A hole gives no address. -/
theorem addressesIn_of_holes {off : ℕ} {l : List (Option UInt64)} (h : ∀ a ∈ l, a = none) :
    addressesIn R off l = [] := by
  induction l generalizing off with
  | nil => rfl
  | cons a l ih =>
    obtain rfl := h a List.mem_cons_self
    rw [addressesIn, ih fun a ha => h a (List.mem_cons_of_mem _ ha)]
    split_ifs
    · rfl
    · rfl

/-- Bytes with an address one of which lies in the set give an address. -/
theorem addressesIn_ne_nil {off : ℕ} {l : List (Option UInt64)} (h : ∀ a ∈ l, a ≠ none) {x : ℕ}
    (hx : off ≤ x) (hx' : x < off + l.length) (hxR : x ∈ R) : addressesIn R off l ≠ [] := by
  induction l generalizing off with
  | nil => exact absurd hx' (by simpa using hx)
  | cons a l ih =>
    rw [addressesIn]
    rcases hx.eq_or_lt with rfl | hlt
    · obtain ⟨p, rfl⟩ := Option.ne_none_iff_exists'.mp (h a List.mem_cons_self)
      rw [if_pos hxR]
      exact List.cons_ne_nil _ _
    · rw [List.length_cons] at hx'
      exact List.append_ne_nil_of_right_ne_nil _
        (ih (fun a ha => h a (List.mem_cons_of_mem _ ha)) hlt (by omega))

/-- A run covers an extent that lies in the set, and no other. -/
theorem covered_iff (hruns : ReleasedRuns R logical) {off : ℕ} (hpos : 0 < e.length.toNat) :
    Covered logical off e ↔ Inside R (off, e) := by
  constructor
  · rintro ⟨l, hl, hfrom, hto⟩ x hx hx'
    exact (hruns.runs.mem x).mpr ⟨_, List.mem_map.mpr ⟨l, hl, rfl⟩, hfrom.trans hx,
      hx'.trans_le hto⟩
  · intro hin
    obtain ⟨r, hr, hfrom, hto⟩ := hruns.runs.exists_run (Nat.lt_add_of_pos_right hpos) hin
    obtain ⟨l, hl, rfl⟩ := List.mem_map.mp hr
    exact ⟨l, hl, hfrom, hto⟩

/-- The test of `release_extents`, in its own arithmetic. -/
theorem any_covered_iff (hruns : ReleasedRuns R logical) {off : UInt32}
    (hfit : off.toNat + e.length.toNat < 2 ^ 32) :
    (logical.any fun l => l.offset ≤ off.toUInt64 &&
      l.offset + l.length.toUInt64 ≥ (off + e.length).toUInt64) = true ↔
      Covered logical off.toNat e := by
  have hstop : (off + e.length).toNat = off.toNat + e.length.toNat := by
    rw [UInt32.toNat_add, Nat.mod_eq_of_lt hfit]
  simp only [List.any_eq_true, Bool.and_eq_true, decide_eq_true_eq, ge_iff_le,
    UInt64.le_iff_toNat_le, UInt32.toNat_toUInt64, hstop, Covered]
  constructor
  · rintro ⟨l, hl, hfrom, hto⟩
    refine ⟨l, hl, hfrom, ?_⟩
    rwa [UInt64.toNat_add, UInt32.toNat_toUInt64, Nat.mod_eq_of_lt (hruns.fits l hl)] at hto
  · rintro ⟨l, hl, hfrom, hto⟩
    refine ⟨l, hl, hfrom, ?_⟩
    rwa [UInt64.toNat_add, UInt32.toNat_toUInt64, Nat.mod_eq_of_lt (hruns.fits l hl)]

/-- An extent that a range covers is taken out. -/
theorem splitReleased_of_covered (hruns : ReleasedRuns R logical) {off : UInt32}
    (hfit : off.toNat + e.length.toNat < 2 ^ 32) (h : Covered logical off.toNat e) :
    BlobT.splitReleased logical off (e :: es) =
      ((BlobT.splitReleased logical (off + e.length) es).1,
        e :: (BlobT.splitReleased logical (off + e.length) es).2) := by
  rw [BlobT.splitReleased]
  exact if_pos ((any_covered_iff hruns hfit).mpr h)

/-- An extent that no range covers is kept. -/
theorem splitReleased_of_not_covered (hruns : ReleasedRuns R logical) {off : UInt32}
    (hfit : off.toNat + e.length.toNat < 2 ^ 32) (h : ¬ Covered logical off.toNat e) :
    BlobT.splitReleased logical off (e :: es) =
      (e :: (BlobT.splitReleased logical (off + e.length) es).1,
        (BlobT.splitReleased logical (off + e.length) es).2) := by
  rw [BlobT.splitReleased]
  exact if_neg fun hany => h ((any_covered_iff hruns hfit).mp hany)

/-! ## What the condition gives -/

/-- Every allocated extent lies in the released units or apart from them, and behind one of positive
length that lies in them, every allocated extent does. -/
structure Releasable (R : Set ℕ) (off : ℕ) (es : List PExtent) : Prop where
  whole : ∀ p ∈ placed off es, p.2.isValid = true → Inside R p ∨ Outside R p
  last : (placed off es).Pairwise fun p q =>
    Inside R p → 0 < p.2.length.toNat → q.2.isValid = true → Inside R q

/-- The offset behind an extent, where the lengths fit 32 bits. -/
theorem toNat_add_of_fits {off : UInt32} (hfit : off.toNat + totalLength (e :: es) < 2 ^ 32) :
    (off + e.length).toNat = off.toNat + e.length.toNat ∧
      off.toNat + e.length.toNat < 2 ^ 32 ∧ (off + e.length).toNat + totalLength es < 2 ^ 32 := by
  rw [totalLength_cons] at hfit
  have hstop : (off + e.length).toNat = off.toNat + e.length.toNat := by
    rw [UInt32.toNat_add, Nat.mod_eq_of_lt (by omega)]
  exact ⟨hstop, by omega, by omega⟩

/-- Where every allocated extent lies in the released units, only holes are kept. -/
theorem layout_kept_of_inside (hruns : ReleasedRuns R logical) {off : UInt32}
    (hfit : off.toNat + totalLength es < 2 ^ 32)
    (h : ∀ p ∈ placed off.toNat es, p.2.isValid = true → Inside R p) :
    ∀ a ∈ layout (BlobT.splitReleased logical off es).1, a = none := by
  induction es generalizing off with
  | nil => simp [BlobT.splitReleased]
  | cons e es ih =>
    obtain ⟨hstop, he, hrest⟩ := toNat_add_of_fits hfit
    have ih := ih hrest (by
      rw [hstop]
      exact fun p hp => h p (List.mem_cons_of_mem _ hp))
    by_cases hc : Covered logical off.toNat e
    · rwa [splitReleased_of_covered hruns he hc]
    · rw [splitReleased_of_not_covered hruns he hc]
      intro a ha
      rcases List.mem_append.mp ha with ha | ha
      · -- An allocated extent that is kept has no bytes.
        cases hv : e.isValid with
        | false => exact PExtent.bytes_of_hole hv a ha
        | true =>
          have hzero : ¬ 0 < e.length.toNat := fun hpos =>
            hc ((covered_iff hruns hpos).mpr (h _ List.mem_cons_self hv))
          have hlen := List.length_pos_of_mem ha
          rw [PExtent.length_bytes] at hlen
          exact absurd hlen hzero
      · exact ih a ha

/-- Where every allocated extent lies in the released units, nothing else has an address. -/
theorem addressAt_of_inside {off : ℕ} (h : ∀ p ∈ placed off es, p.2.isValid = true → Inside R p)
    {x : ℕ} (hx : off + x ∉ R) : addressAt (layout es) x = none := by
  induction es generalizing off x with
  | nil => rfl
  | cons e es ih =>
    rw [layout_cons]
    rcases Nat.lt_or_ge x e.length.toNat with hlt | hge
    · rw [addressAt_append_left (by rwa [PExtent.length_bytes])]
      cases hv : e.isValid with
      | false => exact addressAt_of_holes (PExtent.bytes_of_hole hv) x
      | true => exact absurd (h _ List.mem_cons_self hv _ (by simp) (by simpa using hlt)) hx
    · rw [addressAt_append_right (by rwa [PExtent.length_bytes]), PExtent.length_bytes]
      refine ih (fun p hp => h p (List.mem_cons_of_mem _ hp)) ?_
      rwa [Nat.add_assoc, Nat.add_sub_cancel' hge]

open scoped Classical in
/-- What is kept is where it was, and the released units are not mapped. -/
theorem addressAt_kept (hruns : ReleasedRuns R logical) {off : UInt32}
    (hfit : off.toNat + totalLength es < 2 ^ 32) (h : Releasable R off.toNat es) (x : ℕ) :
    addressAt (layout (BlobT.splitReleased logical off es).1) x =
      if off.toNat + x ∈ R then none else addressAt (layout es) x := by
  induction es generalizing off x with
  | nil => simp [BlobT.splitReleased, addressAt]
  | cons e es ih =>
    obtain ⟨hstop, he, hrest⟩ := toNat_add_of_fits hfit
    obtain ⟨hlast, hlasts⟩ := List.pairwise_cons.mp h.last
    have htail : Releasable R (off + e.length).toNat es := by
      rw [hstop]
      exact ⟨fun p hp => h.whole p (List.mem_cons_of_mem _ hp), hlasts⟩
    rcases Nat.eq_zero_or_pos e.length.toNat with hzero | hpos
    · -- An extent without bytes has no place in the layout.
      have hnil : e.bytes = [] := List.eq_nil_of_length_eq_zero (by rwa [PExtent.length_bytes])
      have ih := ih hrest htail x
      rw [hstop, hzero, Nat.add_zero] at ih
      rw [layout_cons, hnil, List.nil_append, ← ih]
      by_cases hc : Covered logical off.toNat e
      · rw [splitReleased_of_covered hruns he hc]
      · rw [splitReleased_of_not_covered hruns he hc, layout_cons, hnil, List.nil_append]
    · by_cases hc : Covered logical off.toNat e
      · -- Nothing allocated is left behind it.
        have hin := (covered_iff hruns hpos).mp hc
        have hall : ∀ p ∈ placed off.toNat (e :: es), p.2.isValid = true → Inside R p := by
          intro p hp hv
          rcases List.mem_cons.mp hp with rfl | hp
          · exact hin
          · exact hlast p hp hin hpos hv
        rw [addressAt_of_holes (layout_kept_of_inside hruns hfit hall)]
        split_ifs with hx
        · rfl
        · exact (addressAt_of_inside hall hx).symm
      · rw [splitReleased_of_not_covered hruns he hc, layout_cons, layout_cons]
        rcases Nat.lt_or_ge x e.length.toNat with hlt | hge
        · have hlt' : x < e.bytes.length := by rwa [PExtent.length_bytes]
          rw [addressAt_append_left hlt', addressAt_append_left hlt']
          cases hv : e.isValid with
          | false => rw [addressAt_of_holes (PExtent.bytes_of_hole hv), ite_self]
          | true =>
            have hout := (h.whole _ List.mem_cons_self hv).resolve_left fun hin =>
              hc ((covered_iff hruns hpos).mpr hin)
            rw [if_neg (hout _ (by simp) (by simpa using hlt))]
        · have hge' : e.bytes.length ≤ x := by rwa [PExtent.length_bytes]
          rw [addressAt_append_right hge', addressAt_append_right hge', ih hrest htail, hstop,
            PExtent.length_bytes, Nat.add_assoc, Nat.add_sub_cancel' hge]

/-- The addresses that are given back for an extent are those that its bytes in the set have. -/
theorem addressesIn_of_covered (hruns : ReleasedRuns R logical) {off : ℕ}
    (h : Covered logical off e) :
    addressesIn R off e.bytes = ([e].filter PExtent.isValid).flatMap PExtent.raw := by
  rcases Nat.eq_zero_or_pos e.length.toNat with hzero | hpos
  · have hbytes : e.bytes = [] := List.eq_nil_of_length_eq_zero (by rwa [PExtent.length_bytes])
    have hraw : e.raw = [] := List.eq_nil_of_length_eq_zero (by rwa [PExtent.length_raw])
    cases hv : e.isValid with
    | false => simp [hbytes, hv, addressesIn]
    | true => simp [hbytes, hv, hraw, addressesIn]
  · have hin := (covered_iff hruns hpos).mp h
    cases hv : e.isValid with
    | false => simp [hv, addressesIn_of_holes (PExtent.bytes_of_hole hv)]
    | true =>
      have hsub : ∀ x, off ≤ x → x < off + e.bytes.length → x ∈ R := by
        simpa [Inside] using hin
      rw [addressesIn_of_inside hsub, PExtent.bytes_of_valid hv]
      simp [hv, List.reduceOption]

/-- The result lists the addresses of the released units. -/
theorem raw_gone (hruns : ReleasedRuns R logical) {off : UInt32}
    (hfit : off.toNat + totalLength es < 2 ^ 32)
    (h : ∀ p ∈ placed off.toNat es, p.2.isValid = true → Inside R p ∨ Outside R p) :
    ((BlobT.splitReleased logical off es).2.filter PExtent.isValid).flatMap PExtent.raw =
      addressesIn R off.toNat (layout es) := by
  induction es generalizing off with
  | nil => rfl
  | cons e es ih =>
    obtain ⟨hstop, he, hrest⟩ := toNat_add_of_fits hfit
    have ih := ih hrest (by
      rw [hstop]
      exact fun p hp => h p (List.mem_cons_of_mem _ hp))
    rw [layout_cons, addressesIn_append, PExtent.length_bytes, ← hstop, ← ih]
    by_cases hc : Covered logical off.toNat e
    · rw [splitReleased_of_covered hruns he hc, addressesIn_of_covered hruns hc,
        ← List.flatMap_append, ← List.filter_append]
      rfl
    · rw [splitReleased_of_not_covered hruns he hc]
      suffices haddr : addressesIn R off.toNat e.bytes = [] by rw [haddr, List.nil_append]
      cases hv : e.isValid with
      | false => exact addressesIn_of_holes (PExtent.bytes_of_hole hv)
      | true =>
        refine addressesIn_of_outside fun x hx hx' hxR => ?_
        rw [PExtent.length_bytes] at hx'
        rcases h _ List.mem_cons_self hv with hin | hout
        · exact hc ((covered_iff hruns (by omega)).mpr hin)
        · exact hout x hx hx' hxR

/-! ## What needs the condition -/

/-- The addresses that are given back are among those of the released units. -/
theorem length_gone_le (hruns : ReleasedRuns R logical) {off : UInt32}
    (hfit : off.toNat + totalLength es < 2 ^ 32) :
    (((BlobT.splitReleased logical off es).2.filter PExtent.isValid).flatMap PExtent.raw).length ≤
      (addressesIn R off.toNat (layout es)).length := by
  induction es generalizing off with
  | nil => exact le_rfl
  | cons e es ih =>
    obtain ⟨hstop, he, hrest⟩ := toNat_add_of_fits hfit
    have ih := ih hrest
    rw [layout_cons, addressesIn_append, PExtent.length_bytes, ← hstop, List.length_append]
    by_cases hc : Covered logical off.toNat e
    · rw [splitReleased_of_covered hruns he hc, ← List.singleton_append, List.filter_append,
        List.flatMap_append, List.length_append, addressesIn_of_covered hruns hc]
      exact Nat.add_le_add_left ih _
    · rw [splitReleased_of_not_covered hruns he hc]
      exact ih.trans (Nat.le_add_left _ _)

/-- Where all addresses of the released units are given back, no extent is cut in two. -/
theorem whole_of_length (hruns : ReleasedRuns R logical) {off : UInt32}
    (hfit : off.toNat + totalLength es < 2 ^ 32)
    (h : (addressesIn R off.toNat (layout es)).length ≤ (((BlobT.splitReleased logical off es).2.filter
      PExtent.isValid).flatMap PExtent.raw).length) :
    ∀ p ∈ placed off.toNat es, p.2.isValid = true → Inside R p ∨ Outside R p := by
  induction es generalizing off with
  | nil => simp [placed]
  | cons e es ih =>
    obtain ⟨hstop, he, hrest⟩ := toNat_add_of_fits hfit
    have hle := length_gone_le hruns hrest
    rw [layout_cons, addressesIn_append, PExtent.length_bytes, ← hstop, List.length_append] at h
    have hhead : (e.isValid = true → Inside R (off.toNat, e) ∨ Outside R (off.toNat, e)) ∧
        (addressesIn R (off + e.length).toNat (layout es)).length ≤
          (((BlobT.splitReleased logical (off + e.length) es).2.filter
            PExtent.isValid).flatMap PExtent.raw).length := by
      by_cases hc : Covered logical off.toNat e
      · rw [splitReleased_of_covered hruns he hc, ← List.singleton_append, List.filter_append,
          List.flatMap_append, List.length_append, addressesIn_of_covered hruns hc] at h
        refine ⟨fun _ => .inl fun x hx hx' => ?_, by omega⟩
        exact (covered_iff hruns (by dsimp only at hx hx'; omega)).mp hc x hx hx'
      · rw [splitReleased_of_not_covered hruns he hc] at h
        dsimp only at h
        refine ⟨fun hv => .inr fun x hx hx' hxR => ?_, by omega⟩
        -- A byte in the set would not be given back.
        have hne : addressesIn R off.toNat e.bytes ≠ [] := by
          refine addressesIn_ne_nil ?_ hx (by rwa [PExtent.length_bytes]) hxR
          rw [PExtent.bytes_of_valid hv]
          simp
        have := List.length_pos_iff.mpr hne
        omega
    intro p hp
    rcases List.mem_cons.mp hp with rfl | hp
    · exact hhead.1
    · rw [← hstop] at hp
      exact ih hrest hhead.2 p hp

/-- Where extents move down and are still found where they were, nothing allocated is kept. -/
theorem inside_of_moved (hruns : ReleasedRuns R logical) {off : UInt32}
    (hfit : off.toNat + totalLength es < 2 ^ 32)
    (hwhole : ∀ p ∈ placed off.toNat es, p.2.isValid = true → Inside R p ∨ Outside R p) {d : ℕ}
    (hd : 0 < d)
    (h : ∀ x, off.toNat + x ∉ R →
      addressAt (layout (BlobT.splitReleased logical off es).1) (x + d) =
        addressAt (layout es) x) :
    ∀ p ∈ placed off.toNat es, p.2.isValid = true → Inside R p := by
  induction es generalizing off d with
  | nil => simp [placed]
  | cons e es ih =>
    obtain ⟨hstop, he, hrest⟩ := toNat_add_of_fits hfit
    have htail : ∀ p ∈ placed (off + e.length).toNat es,
        p.2.isValid = true → Inside R p ∨ Outside R p := by
      rw [hstop]
      exact fun p hp => hwhole p (List.mem_cons_of_mem _ hp)
    suffices hgoal : (e.isValid = true → Inside R (off.toNat, e)) ∧
        ∀ p ∈ placed (off + e.length).toNat es, p.2.isValid = true → Inside R p by
      intro p hp
      rcases List.mem_cons.mp hp with rfl | hp
      · exact hgoal.1
      · rw [← hstop] at hp
        exact hgoal.2 p hp
    by_cases hc : Covered logical off.toNat e
    · rw [splitReleased_of_covered hruns he hc] at h
      refine ⟨fun _ x hx hx' => (covered_iff hruns (by dsimp only at hx hx'; omega)).mp hc x hx hx',
        ih hrest htail (d := d + e.length.toNat) (by omega) fun x hx => ?_⟩
      rw [← addressAt_cons_add e es, ← h _ (by rwa [hstop, Nat.add_assoc] at hx)]
      congr 1
      omega
    · rw [splitReleased_of_not_covered hruns he hc] at h
      have hall := ih hrest htail hd fun x hx => by
        rw [← addressAt_cons_add e es, ← addressAt_cons_add e (_ : List PExtent), ← h _ (by rwa [hstop, Nat.add_assoc] at hx), Nat.add_assoc]
      refine ⟨fun hv x hx hx' => ?_, hall⟩
      dsimp only at hx hx'
      rcases hwhole _ List.mem_cons_self hv with hin | hout
      · exact hin x hx hx'
      · -- The last byte was mapped, and behind it only holes are kept.
        have hlast := h (e.length.toNat - 1) (hout _ (by simp) (by simp only; omega))
        rw [show e.length.toNat - 1 + d = e.length.toNat + (d - 1) by omega,
          addressAt_cons_add,
          addressAt_of_holes (layout_kept_of_inside hruns hrest hall), layout_cons,
          addressAt_append_left (by rw [PExtent.length_bytes]; omega),
          addressAt_bytes hv (by omega)] at hlast
        cases hlast

/-- Where everything apart from the released units is found where it was, nothing allocated is
behind an extent that was taken out. -/
theorem releasable_of_kept (hruns : ReleasedRuns R logical) {off : UInt32}
    (hfit : off.toNat + totalLength es < 2 ^ 32)
    (hwhole : ∀ p ∈ placed off.toNat es, p.2.isValid = true → Inside R p ∨ Outside R p)
    (h : ∀ x, off.toNat + x ∉ R →
      addressAt (layout (BlobT.splitReleased logical off es).1) x = addressAt (layout es) x) :
    Releasable R off.toNat es := by
  induction es generalizing off with
  | nil => exact ⟨hwhole, List.Pairwise.nil⟩
  | cons e es ih =>
    obtain ⟨hstop, he, hrest⟩ := toNat_add_of_fits hfit
    have htail : ∀ p ∈ placed (off + e.length).toNat es,
        p.2.isValid = true → Inside R p ∨ Outside R p := by
      rw [hstop]
      exact fun p hp => hwhole p (List.mem_cons_of_mem _ hp)
    refine ⟨hwhole, ?_⟩
    rw [placed, List.pairwise_cons, ← hstop]
    by_cases hc : Covered logical off.toNat e ∧ 0 < e.length.toNat
    · rw [splitReleased_of_covered hruns he hc.1] at h
      have hall := inside_of_moved hruns hrest htail hc.2 fun x hx => by
        rw [← addressAt_cons_add e es, ← h _ (by rwa [hstop, Nat.add_assoc] at hx), Nat.add_comm]
      refine ⟨fun q hq _ _ hv => hall q hq hv, List.pairwise_of_forall_mem_list ?_⟩
      exact fun p _ q hq _ _ hv => hall q hq hv
    · refine ⟨fun q _ hin hpos => absurd ⟨(covered_iff hruns hpos).mpr hin, hpos⟩ hc,
        (ih hrest htail fun x hx => ?_).last⟩
      rw [hstop, Nat.add_assoc] at hx
      by_cases hcov : Covered logical off.toNat e
      · have hzero : e.length.toNat = 0 := Nat.eq_zero_of_not_pos fun hpos => hc ⟨hcov, hpos⟩
        rw [splitReleased_of_covered hruns he hcov] at h
        rw [← addressAt_cons_add e es, ← h _ hx, hzero, Nat.zero_add]
      · rw [splitReleased_of_not_covered hruns he hcov] at h
        rw [← addressAt_cons_add e es, ← h _ hx, addressAt_cons_add]

/-! ## The length that is left -/

/-- The sum of the lengths, where it fits 32 bits. -/
theorem toNat_sum_length (hfit : totalLength es < 2 ^ 32) :
    (es.map PExtent.length).sum.toNat = totalLength es := by
  induction es with
  | nil => rfl
  | cons e es ih =>
    rw [totalLength_cons] at hfit ⊢
    rw [List.map_cons, List.sum_cons, UInt32.toNat_add, ih (by omega), Nat.mod_eq_of_lt hfit]

open scoped Classical in
/-- The length of the extents that do not lie in the set. -/
noncomputable def lengthApart (R : Set ℕ) (off : ℕ) (es : List PExtent) : ℕ :=
  ((placed off es).map fun p => if Inside R p then 0 else p.2.length.toNat).sum

/-- What is apart from a set is not longer than everything. -/
theorem lengthApart_le (off : ℕ) : lengthApart R off es ≤ totalLength es := by
  induction es generalizing off with
  | nil => exact le_rfl
  | cons e es ih =>
    rw [lengthApart, placed, List.map_cons, List.sum_cons, totalLength_cons]
    refine Nat.add_le_add ?_ (ih _)
    split_ifs
    · exact Nat.zero_le _
    · exact le_rfl

/-- The extents that are kept have the length of those that do not lie in the released units. -/
theorem totalLength_kept (hruns : ReleasedRuns R logical) {off : UInt32}
    (hfit : off.toNat + totalLength es < 2 ^ 32) :
    totalLength (BlobT.splitReleased logical off es).1 = lengthApart R off.toNat es := by
  classical
  induction es generalizing off with
  | nil => rfl
  | cons e es ih =>
    obtain ⟨hstop, he, hrest⟩ := toNat_add_of_fits hfit
    have hcons : lengthApart R off.toNat (e :: es) =
        (if Inside R (off.toNat, e) then 0 else e.length.toNat) +
          totalLength (BlobT.splitReleased logical (off + e.length) es).1 := by
      rw [ih hrest, hstop]
      rfl
    rw [hcons]
    by_cases hc : Covered logical off.toNat e
    · rw [splitReleased_of_covered hruns he hc]
      rcases Nat.eq_zero_or_pos e.length.toNat with hzero | hpos
      · rw [hzero, ite_self, Nat.zero_add]
      · rw [if_pos ((covered_iff hruns hpos).mp hc), Nat.zero_add]
    · rw [splitReleased_of_not_covered hruns he hc, totalLength_cons]
      rcases Nat.eq_zero_or_pos e.length.toNat with hzero | hpos
      · rw [hzero, ite_self]
      · rw [if_neg fun hin => hc ((covered_iff hruns hpos).mpr hin)]

end

/-! ## The partial release -/

/-- Some units of a blob are released and no more: what is apart from them is mapped as before, they
are mapped no longer, their space is given back, and what is still referred to lies in the blob. -/
structure Released (R refs : Set ℕ) (b b' : BlobT) (released : List PExtent) : Prop where
  /-- The offsets apart from the units keep their addresses. -/
  outside : ∀ x, x ∉ R → b'.physAt x = b.physAt x
  /-- `_blob_to_phys` answers them as before. -/
  phys : ∀ (x p : UInt64), x.toNat ∉ R → b.physAt x.toNat = some p →
    b.blobToPhys x = p ∧ b'.blobToPhys x = p
  /-- So does `map`, in whatever range it is asked for them. -/
  map : ∀ (bOff bLen : UInt64) (i : ℕ) (p : UInt64), bOff.toNat + bLen.toNat < 2 ^ 64 →
    i < bLen.toNat → bOff.toNat + i ∉ R → b.physAt (bOff.toNat + i) = some p →
      ((b.map bOff bLen).flatMap BlobT.pieceBytes)[i]? = some p ∧
        ((b'.map bOff bLen).flatMap BlobT.pieceBytes)[i]? = some p
  /-- No released unit stays mapped. -/
  inside : ∀ x ∈ R, b'.physAt x = none
  /-- The released space is that of the units. -/
  result : released.flatMap PExtent.raw = addressesIn R 0 (layout b.extents)
  /-- The references that remain are below the logical length. -/
  refs : ∀ x ∈ refs, x < b'.logicalLength.toNat

/-- `release_extents` releases the units and no more exactly when every allocated extent lies in
them or apart from them, no allocated extent that is kept is behind one that is taken out, and
the references that remain are below the length of the extents apart from the units. -/
theorem releaseExtents_keeps_iff {b : BlobT} {R refs : Set ℕ} {logical : List PExtent}
    (hfit : totalLength b.extents < 2 ^ 32) (hruns : ReleasedRuns R logical) :
    Released R refs b (b.releaseExtents false logical).1 (b.releaseExtents false logical).2 ↔
      Releasable R 0 b.extents ∧ ∀ x ∈ refs, x < lengthApart R 0 b.extents := by
  have hfit' : (0 : UInt32).toNat + totalLength b.extents < 2 ^ 32 := by simpa using hfit
  have hkept := totalLength_kept hruns hfit'
  have hle : totalLength (BlobT.splitReleased logical 0 b.extents).1 ≤ totalLength b.extents :=
    hkept ▸ lengthApart_le _
  have hlength : (b.releaseExtents false logical).1.logicalLength.toNat =
      lengthApart R 0 b.extents := (toNat_sum_length (hle.trans_lt hfit)).trans hkept
  constructor
  · intro h
    have hwhole := whole_of_length hruns hfit' (congrArg List.length h.result).ge
    have houtside : ∀ x, (0 : UInt32).toNat + x ∉ R →
        addressAt (layout (BlobT.splitReleased logical 0 b.extents).1) x =
          addressAt (layout b.extents) x := by
      intro x hx
      exact h.outside x (by simpa using hx)
    exact ⟨releasable_of_kept hruns hfit' hwhole houtside, fun x hx => hlength ▸ h.refs x hx⟩
  · rintro ⟨h, hrefs⟩
    have hat := addressAt_kept hruns hfit' h
    have houtside : ∀ x, x ∉ R → (b.releaseExtents false logical).1.physAt x = b.physAt x :=
      fun x hx => (hat x).trans (if_neg (by simpa using hx))
    have hwide : totalLength b.extents < 2 ^ 64 := hfit.trans (by norm_num)
    have hwide' : totalLength (b.releaseExtents false logical).1.extents < 2 ^ 64 :=
      hle.trans_lt hwide
    constructor
    case outside => exact houtside
    case phys =>
      intro x p hx hp
      exact ⟨BlobT.blobToPhys_of_physAt hwide hp,
        BlobT.blobToPhys_of_physAt hwide' ((houtside _ hx).trans hp)⟩
    case map =>
      intro bOff bLen i p hend hi hx hp
      exact ⟨BlobT.map_of_physAt hwide hend hi hp,
        BlobT.map_of_physAt hwide' hend hi ((houtside _ hx).trans hp)⟩
    case inside =>
      intro x hx
      exact (hat x).trans (if_pos (by simpa using hx))
    case result => exact raw_gone hruns hfit' h.whole
    case refs =>
      intro x hx
      rw [hlength]
      exact hrefs x hx

/-- A blob of two units in two extents. -/
def twoUnits : BlobT := { extents := [⟨0x10000, 0x1000⟩, ⟨0x20000, 0x1000⟩], logicalLength := 0x2000 }

/-- One range that is released. -/
theorem releasedRuns_single {offset : UInt64} {length : UInt32} (hpos : 0 < length.toNat)
    (hfit : offset.toNat + length.toNat < 2 ^ 64) :
    ReleasedRuns {x | offset.toNat ≤ x ∧ x < offset.toNat + length.toNat} [⟨offset, length⟩] where
  runs :=
    { nonempty := by simpa [spans] using hpos
      apart := by simp [spans]
      mem := by simp [spans] }
  fits := by simpa using hfit

/-- Where the two units lie. -/
theorem placed_twoUnits :
    placed 0 twoUnits.extents = [(0, ⟨0x10000, 0x1000⟩), (0x1000, ⟨0x20000, 0x1000⟩)] := rfl

/-- The second of two units is released. -/
theorem releaseExtents_keeps_twoUnits :
    Released {x | 0x1000 ≤ x ∧ x < 0x2000} {x | x < 0x1000} twoUnits
      (twoUnits.releaseExtents false [⟨0x1000, 0x1000⟩]).1
      (twoUnits.releaseExtents false [⟨0x1000, 0x1000⟩]).2 := by
  have hfirst : Outside {x | 0x1000 ≤ x ∧ x < 0x2000} (0, ⟨0x10000, 0x1000⟩) :=
    fun x _ hx hin => absurd hx (not_lt.mpr hin.1)
  have hsecond : Inside {x | 0x1000 ≤ x ∧ x < 0x2000} (0x1000, ⟨0x20000, 0x1000⟩) :=
    fun x hx hx' => ⟨hx, hx'⟩
  have hnot : ¬ Inside {x | 0x1000 ≤ x ∧ x < 0x2000} (0, ⟨0x10000, 0x1000⟩) :=
    fun hin => hfirst 0 le_rfl (by decide) (hin 0 le_rfl (by decide))
  have hruns : ReleasedRuns {x | 0x1000 ≤ x ∧ x < 0x2000} [⟨0x1000, 0x1000⟩] :=
    @releasedRuns_single 0x1000 0x1000 (by decide) (by decide)
  have hfit : totalLength twoUnits.extents < 2 ^ 32 := by decide
  refine (releaseExtents_keeps_iff hfit hruns).mpr ⟨⟨?_, ?_⟩, ?_⟩
  · rw [placed_twoUnits]
    simpa using ⟨fun _ => .inr hfirst, fun _ => .inl hsecond⟩
  · rw [placed_twoUnits]
    simpa using fun hin => absurd hin hnot
  · intro x hx
    rw [lengthApart, placed_twoUnits]
    simpa [hnot, hsecond] using hx

/-- The first of two units is released: the second one moves to its place, and what refers to it
is beyond the length of the blob. -/
theorem releaseExtents_moves :
    ¬ Released {x | x < 0x1000} {x | 0x1000 ≤ x ∧ x < 0x2000} twoUnits
      (twoUnits.releaseExtents false [⟨0, 0x1000⟩]).1
      (twoUnits.releaseExtents false [⟨0, 0x1000⟩]).2 := fun h =>
  absurd (h.refs 0x1000 (by simp)) (by decide)

end CxxLab.Bluestore.Object
