import CxxLab.Common.Denc
import CxxLab.Lib.MaximalRuns

/-!
# Interval sets

`common/interval_set.h`: a set of numbers as a map from the start of each interval to its length,
with the sum of the lengths beside it. The map is the list of its entries in order. An iterator
into it is the entries before and from it on. The type of the numbers is an unsigned integer of `w`
bytes, and every sum and difference wraps.

`insert` and `erase` are the union and the difference on the numbers that are covered
(`covered_calls`). `encode` counts its bytes in a `size_t`, but reserves them with an `unsigned`: a set
that is written with 4 GiB or more is written behind the space that it got. What is encoded is
decoded.
-/

namespace CxxLab.Common

open Codec Denc

/-- `interval_set`. -/
structure IntervalSet where
  /-- `m_`: starts and lengths. -/
  m : List (ℕ × ℕ)
  /-- `_size`. -/
  size : ℕ
  deriving DecidableEq, Repr

namespace IntervalSet

/-- The number of values of a `T` of `w` bytes. -/
def top (w : ℕ) : ℕ := 256 ^ w

/-- The sum of two values. -/
def plus (w a b : ℕ) : ℕ := (a + b) % top w

/-- The difference of two values. -/
def minus (w a b : ℕ) : ℕ := (a + (top w - b)) % top w

/-- An empty set. -/
def empty : IntervalSet := ⟨[], 0⟩

/-- `m_[k] = v`. -/
def setKey (k v : ℕ) : List (ℕ × ℕ) → List (ℕ × ℕ)
  | [] => [(k, v)]
  | q :: l => if k < q.1 then (k, v) :: q :: l else if k = q.1 then (k, v) :: l
    else q :: setKey k v l

/-- `m_[k] = v` with an iterator between two parts of the map: the part that gets the entry. -/
def setAround (k v : ℕ) (before after : List (ℕ × ℕ)) : List (ℕ × ℕ) × List (ℕ × ℕ) :=
  match after with
  | [] => (setKey k v before, [])
  | q :: l => if k < q.1 then (setKey k v before, q :: l) else (before, setKey k v (q :: l))

/-- The loop of `insert` from the lower bound on: the length, the lengths that are gone, and what is
left of the map. -/
def absorb (w off : ℕ) : ℕ → ℕ → List (ℕ × ℕ) → ℕ × ℕ × List (ℕ × ℕ)
  | len, oldLen, [] => (len, oldLen, [])
  | len, oldLen, q :: l =>
    if q.1 ≤ plus w off len then
      absorb w off (max len (minus w (plus w q.1 q.2) off)) (plus w oldLen q.2) l
    else (len, oldLen, q :: l)

/-- `insert`. -/
def insert (w : ℕ) (s : IntervalSet) (off len : ℕ) : IntervalSet :=
  if len = 0 then s
  else
    let before := s.m.takeWhile (·.1 < off)
    match absorb w off len 0 (s.m.dropWhile (·.1 < off)) with
    | (len, oldLen, after) =>
      match before.getLast? with
      | some prev =>
        if off ≤ plus w prev.1 prev.2 then
          let newEnd := max (plus w off len) (plus w prev.1 prev.2)
          let newLen := minus w newEnd prev.1
          ⟨setKey prev.1 newLen (before.dropLast ++ after),
            plus w s.size (minus w newLen (plus w oldLen prev.2))⟩
        else ⟨setKey off len (before ++ after), plus w s.size (minus w len oldLen)⟩
      | none => ⟨setKey off len (before ++ after), plus w s.size (minus w len oldLen)⟩

/-- The loop body of `erase`, on the lengths that are gone, those that are new, and the map behind
the entries that the loop visits: an entry at the end of the range lies there. -/
def eraseEntry (w e : ℕ) (p : ℕ × ℕ × List (ℕ × ℕ)) (q : ℕ × ℕ) : ℕ × ℕ × List (ℕ × ℕ) :=
  let qEnd := plus w q.1 q.2
  if e < qEnd then
    (plus w p.1 q.2, plus w p.2.1 (minus w qEnd e), setKey e (minus w qEnd e) p.2.2)
  else (plus w p.1 q.2, p.2.1, p.2.2)

/-- The part of `erase` before its loop, on the interval before the lower bound: the lengths that
are gone and those that are new, and the map before and from the iterator on. -/
def erasePrev (w off len : ℕ) (before after : List (ℕ × ℕ)) :
    ℕ × ℕ × List (ℕ × ℕ) × List (ℕ × ℕ) :=
  match before.getLast? with
  | none => (0, 0, before, after)
  | some prev =>
    if off < plus w prev.1 prev.2 then
      let cut := before.dropLast ++ [(prev.1, minus w off prev.1)]
      if plus w off len < plus w prev.1 prev.2 then
        let rightLen := minus w (plus w prev.1 prev.2) (plus w off len)
        (prev.2, plus w (minus w off prev.1) rightLen,
          setAround (plus w off len) rightLen cut after)
      else (prev.2, minus w off prev.1, cut, after)
    else (0, 0, before, after)

/-- `erase`. -/
def erase (w : ℕ) (s : IntervalSet) (off len : ℕ) : IntervalSet :=
  if len = 0 then s
  else
    match erasePrev w off len (s.m.takeWhile (·.1 < off)) (s.m.dropWhile (·.1 < off)) with
    | (oldLen, newLen, before, after) =>
      let e := plus w off len
      match (after.takeWhile (·.1 < e)).foldl (eraseEntry w e)
          (oldLen, newLen, after.dropWhile (·.1 < e)) with
      | (oldLen, newLen, after) =>
        ⟨before ++ after, plus w s.size (minus w newLen oldLen)⟩

/-- `_recalc_size`. -/
def recalcSize (w : ℕ) (m : List (ℕ × ℕ)) : ℕ := m.foldl (fun size q => plus w size q.2) 0

/-- An entry of the map, as it is written. -/
def putEntry (w : ℕ) (q : ℕ × ℕ) : List UInt8 := leBytes w q.1 ++ leBytes w q.2

/-- The bytes that `bound_encode` counts for a set with `n` intervals. -/
def boundEncode (w n : ℕ) : ℕ := 4 + 2 * w * n

/-- `encode`, into an empty list: nothing when it writes behind the space that
`obtain_contiguous_space(const unsigned len)` reserves. -/
def encode (w : ℕ) (s : IntervalSet) : Option (List UInt8) :=
  let bytes := putList (putEntry w) s.m
  -- The count is cut to 32 bits on its way into the list.
  if bytes.length ≤ boundEncode w s.m.length % 2 ^ 32 then some bytes else none

/-- An entry of the map. -/
def getEntry (w : ℕ) (p : List UInt8) : Option ((ℕ × ℕ) × List UInt8) := do
  let (start, p) ← getNat w p
  let (len, p) ← getNat w p
  some ((start, len), p)

/-- `emplace_hint` into the map: an entry that is there stays. -/
def emplace (m : List (ℕ × ℕ)) (q : ℕ × ℕ) : List (ℕ × ℕ) :=
  if m.any (·.1 = q.1) then m else setKey q.1 q.2 m

/-- `decode`. -/
def decode (w : ℕ) (p : List UInt8) : Option (IntervalSet × List UInt8) := do
  let (entries, p) ← getList (getEntry w) p
  let m := entries.foldl emplace []
  some (⟨m, recalcSize w m⟩, p)

/-- The calls that change a set. -/
inductive Call where
  /-- `insert`. -/
  | insert (off len : ℕ)
  /-- `erase`. -/
  | erase (off len : ℕ)
  /-- `clear`. -/
  | clear

/-- The set after a call. -/
def call (w : ℕ) (s : IntervalSet) : Call → IntervalSet
  | .insert off len => s.insert w off len
  | .erase off len => s.erase w off len
  | .clear => empty

/-- The end of the range does not overflow. -/
def Call.InRange (w : ℕ) : Call → Prop
  | .insert off len => off + len < top w
  | .erase off len => off + len < top w
  | .clear => True

/-! ## What a set covers -/

/-- A range of numbers. -/
def range (off len : ℕ) : Set ℕ := {x | off ≤ x ∧ x < off + len}

/-- What a call does to the numbers that are covered. -/
def Call.apply (S : Set ℕ) : Call → Set ℕ
  | .insert off len => S ∪ range off len
  | .erase off len => S \ range off len
  | .clear => ∅

/-- The intervals as runs. -/
def runs (m : List (ℕ × ℕ)) : List (ℕ × ℕ) := m.map fun q => (q.1, q.1 + q.2)

/-- The numbers in some interval. -/
def covered (m : List (ℕ × ℕ)) : Set ℕ := {x | ∃ q ∈ m, q.1 ≤ x ∧ x < q.1 + q.2}

/-- The lengths of the intervals. -/
def total (m : List (ℕ × ℕ)) : ℕ := (m.map Prod.snd).sum

/-- The set has the maximal intervals of `S`, which end within the type, and their total length. -/
structure Covers (w : ℕ) (S : Set ℕ) (s : IntervalSet) : Prop where
  /-- The intervals are not empty, in order, and there is something between any two. -/
  runs : MaximalRuns S (runs s.m)
  /-- No end overflows. -/
  bounded : ∀ q ∈ s.m, q.1 + q.2 < top w
  /-- The size is the total length. -/
  size : s.size = total s.m

/-! ## Arithmetic and the map -/

variable {w : ℕ}

/-- A sum that does not overflow. -/
theorem plus_eq {a b : ℕ} (h : a + b < top w) : plus w a b = a + b := Nat.mod_eq_of_lt h

/-- A difference that does not go below zero. -/
theorem minus_eq {a b : ℕ} (ha : a < top w) (hb : b ≤ a) : minus w a b = a - b := by
  unfold minus
  rw [show a + (top w - b) = a - b + top w by omega, Nat.add_mod_right]
  exact Nat.mod_eq_of_lt (by omega)

/-- A difference goes into a sum, also when it wraps. -/
theorem plus_minus {a b c : ℕ} (hc : c ≤ a + b) (hc' : c ≤ top w) (h : a + b - c < top w) :
    plus w a (minus w b c) = a + b - c := by
  unfold plus minus
  rw [Nat.add_mod_mod, show a + (b + (top w - c)) = a + b - c + top w by omega, Nat.add_mod_right]
  exact Nat.mod_eq_of_lt h

/-- A key between two parts of the map. -/
theorem setKey_append {k v : ℕ} {a b : List (ℕ × ℕ)} (ha : ∀ q ∈ a, q.1 < k)
    (hb : ∀ q ∈ b, k < q.1) : setKey k v (a ++ b) = a ++ (k, v) :: b := by
  induction a with
  | nil =>
    cases b with
    | nil => rfl
    | cons q b => exact if_pos (hb q List.mem_cons_self)
  | cons q a ih =>
    have hq := ha q List.mem_cons_self
    rw [List.cons_append, setKey, if_neg (by omega), if_neg (by omega),
      ih fun r hr => ha r (List.mem_cons_of_mem _ hr)]
    rfl

/-- The total length of two parts. -/
@[simp] theorem total_append (a b : List (ℕ × ℕ)) : total (a ++ b) = total a + total b := by
  simp [total]

/-- The total length with one interval more. -/
@[simp] theorem total_cons (q : ℕ × ℕ) (a : List (ℕ × ℕ)) : total (q :: a) = q.2 + total a := by
  simp [total]

/-- Nothing has no length. -/
@[simp] theorem total_nil : total [] = 0 := rfl

/-- No intervals cover nothing. -/
@[simp] theorem mem_covered_nil {x : ℕ} : x ∉ covered [] := by simp [covered]

/-- A number is in the first interval or in the others. -/
@[simp] theorem mem_covered_cons {q : ℕ × ℕ} {a : List (ℕ × ℕ)} {x : ℕ} :
    x ∈ covered (q :: a) ↔ (q.1 ≤ x ∧ x < q.1 + q.2) ∨ x ∈ covered a := by
  simp [covered]

/-- A number is in the intervals of one list or of the other. -/
@[simp] theorem mem_covered_append {a b : List (ℕ × ℕ)} {x : ℕ} :
    x ∈ covered (a ++ b) ↔ x ∈ covered a ∨ x ∈ covered b := by
  simp [covered, or_and_right, exists_or]

/-- The numbers of a range. -/
@[simp] theorem mem_range {off len x : ℕ} : x ∈ range off len ↔ off ≤ x ∧ x < off + len := Iff.rfl

/-- No numbers. -/
theorem range_zero (off : ℕ) : range off 0 = ∅ := by
  ext x
  simp only [mem_range, Set.mem_empty_iff_false, iff_false]
  omega

/-- The intervals stand apart, and in order. -/
def Apart (m : List (ℕ × ℕ)) : Prop := m.Pairwise fun q r => q.1 + q.2 < r.1

/-- Intervals that stand apart within the type have a length within it. -/
theorem total_lt {m : List (ℕ × ℕ)} (h : Apart m) (hb : ∀ q ∈ m, q.1 + q.2 < top w) {c : ℕ}
    (hc : c < top w) (hm : ∀ q ∈ m, c ≤ q.1) : c + total m < top w := by
  induction m generalizing c with
  | nil => simpa using hc
  | cons q m ih =>
    obtain ⟨hq, hm'⟩ := List.pairwise_cons.mp h
    have hrest := ih hm' (fun r hr => hb r (List.mem_cons_of_mem _ hr)) (hb q List.mem_cons_self)
      fun r hr => (hq r hr).le
    have := hm q List.mem_cons_self
    rw [total_cons]
    omega

/-- The entries from the lower bound on start there or behind. -/
theorem le_of_mem_dropWhile {m : List (ℕ × ℕ)} (h : Apart m) {off : ℕ} {q : ℕ × ℕ}
    (hq : q ∈ m.dropWhile (·.1 < off)) : off ≤ q.1 := by
  induction m with
  | nil => cases hq
  | cons r m ih =>
    obtain ⟨hr, hm⟩ := List.pairwise_cons.mp h
    rw [List.dropWhile_cons] at hq
    split_ifs at hq with hlt
    · exact ih hm hq
    · have hle : off ≤ r.1 := by simpa using hlt
      rcases List.mem_cons.mp hq with rfl | hq
      · exact hle
      · have := hr q hq
        omega

/-- Those before it start before. -/
theorem lt_of_mem_takeWhile {m : List (ℕ × ℕ)} {off : ℕ} {q : ℕ × ℕ}
    (hq : q ∈ m.takeWhile (·.1 < off)) : q.1 < off := by
  simpa using List.mem_takeWhile_imp hq

namespace Covers

variable {S : Set ℕ} {s : IntervalSet}

/-- The intervals are apart. -/
theorem apart (h : Covers w S s) : Apart s.m := List.pairwise_map.mp h.runs.apart

/-- No interval is empty. -/
theorem pos (h : Covers w S s) {q : ℕ × ℕ} (hq : q ∈ s.m) : 0 < q.2 := by
  have hlt := h.runs.nonempty (q.1, q.1 + q.2) (List.mem_map_of_mem hq)
  dsimp only at hlt
  omega

/-- The intervals have the numbers of the set. -/
theorem mem (h : Covers w S s) (x : ℕ) : x ∈ S ↔ x ∈ covered s.m := by
  rw [h.runs.mem x]
  simp [IntervalSet.runs, covered]

/-- The total length is a value of the type. -/
theorem total_lt_top (h : Covers w S s) : total s.m < top w := by
  have hlt := total_lt h.apart h.bounded (show 0 < top w from Nat.pow_pos (by omega))
    fun q _ => Nat.zero_le q.1
  omega

/-- Some intervals in the middle are replaced by others, which touch none of the rest. -/
theorem replace {T : Set ℕ} {a m n b : List (ℕ × ℕ)} (h : Covers w S s)
    (hs : s.m = a ++ m ++ b) (hpos : ∀ q ∈ n, 0 < q.2) (hm : Apart n)
    (ha : ∀ r ∈ a, ∀ q ∈ n, r.1 + r.2 < q.1) (hb : ∀ q ∈ n, ∀ r ∈ b, q.1 + q.2 < r.1)
    (hbound : ∀ q ∈ n, q.1 + q.2 < top w)
    (hS : ∀ x, x ∈ T ↔ x ∈ covered n ∨ x ∈ S ∧ x ∉ covered m) :
    Covers w T ⟨a ++ n ++ b, plus w s.size (minus w (total n) (total m))⟩ := by
  have hruns : MaximalRuns T (IntervalSet.runs (a ++ n ++ b)) := by
    have hruns := h.runs
    rw [hs] at hruns
    simp only [IntervalSet.runs, List.map_append] at hruns ⊢
    refine hruns.replace ?_ (List.pairwise_map.mpr hm) ?_ ?_ fun x => ?_
    · intro r hr
      obtain ⟨q, hq, rfl⟩ := List.mem_map.mp hr
      have := hpos q hq
      dsimp only
      omega
    · intro r hr r' hr'
      obtain ⟨q, hq, rfl⟩ := List.mem_map.mp hr
      obtain ⟨q', hq', rfl⟩ := List.mem_map.mp hr'
      exact ha q hq q' hq'
    · intro r hr r' hr'
      obtain ⟨q, hq, rfl⟩ := List.mem_map.mp hr
      obtain ⟨q', hq', rfl⟩ := List.mem_map.mp hr'
      exact hb q hq q' hq'
    · rw [hS]
      simp [covered]
  have hbounded : ∀ q ∈ a ++ n ++ b, q.1 + q.2 < top w := by
    have hold := h.bounded
    rw [hs] at hold
    simp only [List.mem_append] at hold ⊢
    rintro q ((hq | hq) | hq)
    · exact hold q (.inl (.inl hq))
    · exact hbound q hq
    · exact hold q (.inr hq)
  refine ⟨hruns, hbounded, ?_⟩
  have hold := h.size
  have hlt := h.total_lt_top
  have hlt' := total_lt (List.pairwise_map.mp hruns.apart) hbounded
    (show 0 < top w from Nat.pow_pos (by omega)) fun q _ => Nat.zero_le q.1
  rw [hs] at hold hlt
  simp only [total_append] at hold hlt hlt' ⊢
  rw [plus_minus (by omega) (by omega) (by omega)]
  omega

end Covers

/-! ## `insert` -/

/-- What the loop of `insert` leaves: the new range has `len'` numbers and takes in the intervals
`ab`; it does not touch the rest. -/
structure Absorbed (w off len : ℕ) (l : List (ℕ × ℕ)) (len' : ℕ) (ab rest : List (ℕ × ℕ)) :
    Prop where
  split : l = ab ++ rest
  le : len ≤ len'
  fits : off + len' < top w
  covers : ∀ x, x ∈ range off len' ↔ x ∈ range off len ∨ x ∈ covered ab
  behind : ∀ q ∈ rest, off + len' < q.1

/-- The loop of `insert` takes in the intervals that the range touches, and leaves the others. -/
theorem absorb_spec {off : ℕ} (len oldLen : ℕ) {l : List (ℕ × ℕ)} (hl : Apart l)
    (hb : ∀ q ∈ l, q.1 + q.2 < top w) (hoff : ∀ q ∈ l, off ≤ q.1) (hlen : off + len < top w)
    (hold : oldLen + total l < top w) : ∃ len' ab rest,
      absorb w off len oldLen l = (len', oldLen + total ab, rest) ∧
        Absorbed w off len l len' ab rest := by
  induction l generalizing len oldLen with
  | nil =>
    exact ⟨len, [], [], rfl, rfl, le_rfl, hlen, fun x => by simp, fun q hq => by cases hq⟩
  | cons q l ih =>
    obtain ⟨hq, hl'⟩ := List.pairwise_cons.mp hl
    have hqb := hb q List.mem_cons_self
    have hqo := hoff q List.mem_cons_self
    rw [total_cons] at hold
    rw [absorb, plus_eq hlen]
    split_ifs with hle
    · rw [plus_eq hqb, minus_eq hqb (by omega), plus_eq (by omega)]
      obtain ⟨len', ab, rest, heq, hab⟩ := ih (max len (q.1 + q.2 - off))
        (oldLen + q.2) hl' (fun r hr => hb r (List.mem_cons_of_mem _ hr))
        (fun r hr => hoff r (List.mem_cons_of_mem _ hr)) (by omega) (by omega)
      refine ⟨len', q :: ab, rest, ?_, ?_, le_trans (le_max_left _ _) hab.le, hab.fits, ?_,
        hab.behind⟩
      · rw [heq, total_cons, Nat.add_assoc]
      · rw [hab.split, List.cons_append]
      · intro x
        rw [hab.covers, mem_covered_cons, ← or_assoc]
        refine or_congr_left ?_
        simp only [mem_range]
        omega
    · refine ⟨len, [], q :: l, rfl, rfl, le_rfl, hlen, fun x => by simp, fun r hr => ?_⟩
      rcases List.mem_cons.mp hr with rfl | hr
      · omega
      · have := hq r hr
        omega

/-- A union, where what is there already goes into the new part. -/
theorem or_iff_replaced {s r n c : Prop} (hn : n ↔ r ∨ c) (hc : c → s) : s ∨ r ↔ n ∨ s ∧ ¬c := by
  tauto

/-- A part and the rest. -/
theorem iff_or_diff {s c : Prop} (hc : c → s) : s ↔ c ∨ s ∧ ¬c := by tauto

/-- A range that touches nothing before it. -/
theorem Covers.insert_apart {S : Set ℕ} {s : IntervalSet} (h : Covers w S s) {off len : ℕ}
    {a l : List (ℕ × ℕ)} (hs : s.m = a ++ l) (hpos : 0 < len) (ha : ∀ r ∈ a, r.1 + r.2 < off)
    {len' : ℕ} {ab rest : List (ℕ × ℕ)} (hab : Absorbed w off len l len' ab rest) :
    Covers w (S ∪ range off len)
      ⟨setKey off len' (a ++ rest), plus w s.size (minus w len' (total ab))⟩ := by
  have hle := hab.le
  have hnew := h.replace (T := S ∪ range off len) (a := a) (m := ab) (n := [(off, len')])
    (b := rest) (by rw [hs, hab.split, List.append_assoc]) (by simp; omega)
    (List.pairwise_singleton _ _) (by simpa using fun r n hr => ha (r, n) hr)
    (by simpa using fun r n hr => hab.behind (r, n) hr) (by simpa using hab.fits) fun x => ?_
  · rw [setKey_append (fun q hq => by have := ha q hq; omega)
      fun q hq => by have := hab.behind q hq; omega]
    simpa using hnew
  · have hx := hab.covers x
    have hsub : x ∈ covered ab → x ∈ S := by
      intro hx
      rw [h.mem, hs, hab.split]
      simp [hx]
    rw [mem_range] at hx
    simp only [Set.mem_union, mem_covered_cons, mem_covered_nil, or_false]
    exact or_iff_replaced hx hsub

/-- A range that touches the interval before it. -/
theorem Covers.insert_touching {S : Set ℕ} {s : IntervalSet} (h : Covers w S s) {off len : ℕ}
    {a l : List (ℕ × ℕ)} {prev : ℕ × ℕ} (hs : s.m = a ++ prev :: l) (hprev : prev.1 < off)
    (htouch : off ≤ prev.1 + prev.2) {len' : ℕ} {ab rest : List (ℕ × ℕ)}
    (hab : Absorbed w off len l len' ab rest) {newEnd : ℕ}
    (hend : newEnd = max (off + len') (prev.1 + prev.2)) :
    Covers w (S ∪ range off len)
      ⟨setKey prev.1 (newEnd - prev.1) (a ++ rest),
        plus w s.size (minus w (newEnd - prev.1) (total ab + prev.2))⟩ := by
  have hs' : s.m = a ++ (prev :: ab) ++ rest := by rw [hs, hab.split]; simp
  have happ := h.apart
  rw [hs] at happ
  obtain ⟨-, hbehind, hbefore⟩ := List.pairwise_append.mp happ
  have hapart : ∀ r ∈ a, r.1 + r.2 < prev.1 := fun r hr => hbefore r hr prev List.mem_cons_self
  have hprevb : prev.1 + prev.2 < top w := h.bounded prev (by rw [hs]; simp)
  have hfits := hab.fits
  have hrest : ∀ r ∈ rest, newEnd < r.1 := by
    intro r hr
    have hbeh := hab.behind r hr
    have hpr := (List.pairwise_cons.mp hbehind).1 r (by rw [hab.split]; simp [hr])
    omega
  have hnew := h.replace (T := S ∪ range off len) (n := [(prev.1, newEnd - prev.1)]) hs'
    (by simp; omega) (List.pairwise_singleton _ _)
    (by simpa using fun r n hr => hapart (r, n) hr) ?_ (by simp; omega) fun x => ?_
  · rw [setKey_append (fun q hq => by have := hapart q hq; omega)
      fun q hq => by have := hrest q hq; omega]
    simpa [Nat.add_comm prev.2] using hnew
  · simp only [List.mem_singleton, forall_eq]
    intro r hr
    have := hrest r hr
    omega
  · have hx := hab.covers x
    have hsub : x ∈ covered (prev :: ab) → x ∈ S := by
      intro hx
      rw [h.mem, hs', mem_covered_append, mem_covered_append]
      exact .inl (.inr hx)
    have hends : prev.1 ≤ x ∧ x < prev.1 + (newEnd - prev.1) ↔
        (prev.1 ≤ x ∧ x < prev.1 + prev.2) ∨ x ∈ range off len' := by
      rw [mem_range]
      omega
    simp only [Set.mem_union, mem_covered_cons (q := (prev.1, newEnd - prev.1)), mem_covered_nil,
      or_false, hends]
    refine or_iff_replaced ?_ hsub
    rw [hx, mem_covered_cons]
    exact or_left_comm

/-- `insert` is the union. -/
theorem Covers.insert {S : Set ℕ} {s : IntervalSet} (h : Covers w S s) {off len : ℕ}
    (hlen : off + len < top w) : Covers w (S ∪ range off len) (s.insert w off len) := by
  unfold IntervalSet.insert
  split_ifs with h0
  · rwa [h0, range_zero, Set.union_empty]
  have happ := h.apart
  have hsplit := List.takeWhile_append_dropWhile (p := fun q : ℕ × ℕ => q.1 < off) (l := s.m)
  have hbehind : ∀ q ∈ s.m.dropWhile (·.1 < off), off ≤ q.1 := fun q => le_of_mem_dropWhile happ
  have hbefore : ∀ q ∈ s.m.takeWhile (·.1 < off), q.1 < off := fun q => lt_of_mem_takeWhile
  have hbound := h.bounded
  have htotal := h.total_lt_top
  generalize s.m.takeWhile (·.1 < off) = before at hsplit hbefore
  generalize s.m.dropWhile (·.1 < off) = l at hsplit hbehind
  rw [← hsplit] at happ hbound htotal
  rw [total_append] at htotal
  obtain ⟨-, hl, hcross⟩ := List.pairwise_append.mp happ
  obtain ⟨len', ab, rest, heq, hab⟩ := absorb_spec len 0 hl
    (fun q hq => hbound q (List.mem_append_right _ hq)) hbehind hlen (by omega)
  simp only [heq, Nat.zero_add]
  rcases List.eq_nil_or_concat' before with rfl | ⟨a, prev, rfl⟩
  · exact h.insert_apart hsplit.symm (by omega) (by simp) hab
  · have hprev := hbefore prev (by simp)
    have hprevb := hbound prev (by simp)
    have hfits := hab.fits
    simp only [List.getLast?_append, List.getLast?_singleton, Option.some_or, List.dropLast_concat,
      plus_eq hprevb, plus_eq hfits]
    split_ifs with htouch
    · have htab : total ab + prev.2 < top w := by
        rw [hab.split] at htotal
        simp only [total_append, total_cons] at htotal
        omega
      have hle := hab.le
      rw [minus_eq (by omega) (by omega), plus_eq htab]
      exact h.insert_touching (by rw [← hsplit]; simp) hprev htouch hab rfl
    · refine h.insert_apart hsplit.symm (by omega) (fun r hr => ?_) hab
      rcases List.mem_append.mp hr with hr | hr
      · have := (List.pairwise_append.mp (List.pairwise_append.mp happ).1).2.2 r hr prev
          (List.mem_singleton_self _)
        omega
      · obtain rfl := List.mem_singleton.mp hr
        omega

/-! ## `erase` -/

/-- What is left, in `m'`, of the intervals `m` without the numbers from `off` to `e`. -/
structure Cut (w off e : ℕ) (m m' : List (ℕ × ℕ)) : Prop where
  pos : ∀ q ∈ m', 0 < q.2
  apart : Apart m'
  bounded : ∀ q ∈ m', q.1 + q.2 < top w
  covers : ∀ x, x ∈ covered m' ↔ x ∈ covered m ∧ ¬(off ≤ x ∧ x < e)

/-- The loop of `erase`: all it visits goes, but for what the last interval has beyond the range. -/
theorem visit_spec (off e oldLen newLen : ℕ) {vs rest : List (ℕ × ℕ)} (hvs : Apart (vs ++ rest))
    (hb : ∀ q ∈ vs, q.1 + q.2 < top w) (hpos : ∀ q ∈ vs, 0 < q.2)
    (hstart : ∀ q ∈ vs, off ≤ q.1 ∧ q.1 < e) (hnew : newLen + total vs < top w)
    (hold : oldLen + total vs < top w) : ∃ tail,
      vs.foldl (eraseEntry w e) (oldLen, newLen, rest) =
        (oldLen + total vs, newLen + total tail, tail ++ rest) ∧ Cut w off e vs tail ∧
      (∀ q ∈ tail, q.1 = e ∧ vs ≠ [] ∧ ∀ r ∈ rest, q.1 + q.2 < r.1) := by
  induction vs generalizing oldLen with
  | nil =>
    exact ⟨[], rfl, ⟨by simp, List.Pairwise.nil, by simp, by simp⟩, by simp⟩
  | cons q vs ih =>
    obtain ⟨hq, hvs'⟩ := List.pairwise_cons.mp hvs
    have hqb := hb q List.mem_cons_self
    have hqs := hstart q List.mem_cons_self
    rw [total_cons] at hold hnew ⊢
    rw [List.foldl_cons, eraseEntry, plus_eq hqb, plus_eq (show oldLen + q.2 < top w by omega)]
    dsimp only
    by_cases hbeyond : e < q.1 + q.2
    · -- What starts before the end of the range would overlap this interval.
      have hnil : vs = [] := by
        refine List.eq_nil_iff_forall_not_mem.mpr fun r hr => ?_
        have h1 := hq r (List.mem_append_left _ hr)
        have h2 := hstart r (List.mem_cons_of_mem _ hr)
        omega
      subst hnil
      have hrest : ∀ r ∈ rest, q.1 + q.2 < r.1 := fun r hr => hq r hr
      refine ⟨[(e, q.1 + q.2 - e)], ?_, ⟨?_, List.pairwise_singleton _ _, ?_, ?_⟩, ?_⟩
      · rw [if_pos hbeyond, minus_eq hqb hbeyond.le, plus_eq (by omega), List.foldl_nil,
          show setKey e (q.1 + q.2 - e) rest = (e, q.1 + q.2 - e) :: rest from
            setKey_append (a := []) (by simp) fun r hr => by have := hrest r hr; omega]
        simp
      · simp
        omega
      · simp
        omega
      · intro x
        simp only [mem_covered_cons, mem_covered_nil, or_false]
        omega
      · simp only [List.mem_singleton, forall_eq, ne_eq, List.cons_ne_nil, not_false_eq_true,
          true_and]
        intro r hr
        have := hrest r hr
        omega
    · rw [if_neg hbeyond]
      obtain ⟨tail, heq, hcut, htail⟩ := ih (oldLen + q.2) hvs'
        (fun r hr => hb r (List.mem_cons_of_mem _ hr))
        (fun r hr => hpos r (List.mem_cons_of_mem _ hr))
        (fun r hr => hstart r (List.mem_cons_of_mem _ hr)) (by omega) (by omega)
      refine ⟨tail, ?_, ⟨hcut.pos, hcut.apart, hcut.bounded, fun x => ?_⟩, fun r hr => ?_⟩
      · rw [heq, Nat.add_assoc]
      · rw [hcut.covers, mem_covered_cons]
        have hin : q.1 ≤ x ∧ x < q.1 + q.2 → off ≤ x ∧ x < e := by omega
        rw [or_and_right]
        exact (or_iff_right fun hx => hx.2 (hin hx.1)).symm
      · obtain ⟨h1, -, h3⟩ := htail r hr
        exact ⟨h1, List.cons_ne_nil _ _, h3⟩

/-- The part of `erase` before its loop: the interval before the range goes, if the range cuts it,
and what is left of it comes instead. -/
theorem erasePrev_spec {off : ℕ} (len : ℕ) {before after : List (ℕ × ℕ)}
    (hm : Apart (before ++ after)) (hb : ∀ q ∈ before, q.1 + q.2 < top w)
    (hpos : ∀ q ∈ before, 0 < q.2) (hstart : ∀ q ∈ before, q.1 < off) (hlen : off + len < top w) (hlen0 : 0 < len) :
    ∃ a m m', before = a ++ m ∧
      erasePrev w off len before after = (total m, total m', a ++ m', after) ∧
      Cut w off (off + len) m m' ∧ (∀ r ∈ a, r.1 + r.2 ≤ off ∧ ∀ q ∈ m', r.1 + r.2 < q.1) ∧
      (∀ q ∈ m', (q.1 + q.2 ≤ off ∨ off + len ≤ q.1) ∧ ∀ r ∈ after, q.1 + q.2 < r.1) := by
  -- The range begins in front of all intervals, or there is one that begins before it.
  rcases List.eq_nil_or_concat' before with rfl | ⟨a, prev, rfl⟩
  · exact ⟨[], [], [], rfl, rfl, ⟨by simp, List.Pairwise.nil, by simp, by simp⟩, by simp, by simp⟩
  obtain ⟨hab, hafter, hcross⟩ := List.pairwise_append.mp hm
  have hleft : ∀ r ∈ a, r.1 + r.2 < prev.1 := fun r hr =>
    (List.pairwise_append.mp hab).2.2 r hr prev (List.mem_singleton_self _)
  have hprevb := hb prev (by simp)
  have hprevs := hstart prev (by simp)
  have hbehind : ∀ r ∈ after, prev.1 + prev.2 < r.1 := hcross prev (by simp)
  rw [erasePrev]
  simp only [List.getLast?_append, List.getLast?_singleton, Option.some_or, List.dropLast_concat,
    plus_eq hprevb, plus_eq hlen]
  split_ifs with hcuts hboth
  · -- The range lies within the interval.
    have hset : setAround (off + len) (prev.1 + prev.2 - (off + len))
        (a ++ [(prev.1, off - prev.1)]) after =
        (a ++ [(prev.1, off - prev.1), (off + len, prev.1 + prev.2 - (off + len))], after) := by
      have hkey : setKey (off + len) (prev.1 + prev.2 - (off + len))
          (a ++ [(prev.1, off - prev.1)]) =
          a ++ [(prev.1, off - prev.1), (off + len, prev.1 + prev.2 - (off + len))] := by
        have := setKey_append (k := off + len) (v := prev.1 + prev.2 - (off + len))
          (a := a ++ [(prev.1, off - prev.1)]) (b := []) (fun q hq => ?_) (by simp)
        · simpa using this
        · rcases List.mem_append.mp hq with hq | hq
          · have := hleft q hq
            omega
          · obtain rfl := List.mem_singleton.mp hq
            dsimp only
            omega
      cases after with
      | nil => rw [setAround, hkey]
      | cons q l =>
        have := hbehind q List.mem_cons_self
        rw [setAround, if_pos (by omega), hkey]
    refine ⟨a, [prev], [(prev.1, off - prev.1), (off + len, prev.1 + prev.2 - (off + len))], rfl,
      ?_, ⟨?_, ?_, ?_, fun x => ?_⟩, fun r hr => ?_, ?_⟩
    · rw [minus_eq hprevb hboth.le, minus_eq (by omega) hprevs.le, hset, plus_eq (by omega)]
      simp
    · simp
      omega
    · simp [Apart]
      omega
    · simp
      omega
    · simp only [mem_covered_cons, mem_covered_nil, or_false]
      omega
    · have := hleft r hr
      simp
      omega
    · simp only [List.mem_cons, List.not_mem_nil, or_false, forall_eq_or_imp, forall_eq]
      refine ⟨⟨.inl (by omega), fun r hr => ?_⟩, .inr le_rfl, fun r hr => ?_⟩
      · have := hbehind r hr
        omega
      · have := hbehind r hr
        omega
  -- The range cuts the end off the interval.
  · refine ⟨a, [prev], [(prev.1, off - prev.1)], rfl, ?_, ⟨?_, List.pairwise_singleton _ _, ?_,
      fun x => ?_⟩, fun r hr => ?_, ?_⟩
    · rw [minus_eq (by omega) hprevs.le]
      simp
    · simp
      omega
    · simp
      omega
    · simp only [mem_covered_cons, mem_covered_nil, or_false]
      omega
    · have := hleft r hr
      simp
      omega
    · simp only [List.mem_singleton, forall_eq]
      refine ⟨.inl (by omega), fun r hr => ?_⟩
      have := hbehind r hr
      omega
  -- The interval ends before the range.
  · refine ⟨a ++ [prev], [], [], by simp, by simp, ⟨by simp, List.Pairwise.nil, by simp, by simp⟩,
      fun r hr => ⟨?_, by simp⟩, by simp⟩
    rcases List.mem_append.mp hr with hr | hr
    · have := hleft r hr
      omega
    · obtain rfl := List.mem_singleton.mp hr
      omega

/-- `erase` is the difference. -/
theorem Covers.erase {S : Set ℕ} {s : IntervalSet} (h : Covers w S s) {off len : ℕ}
    (hlen : off + len < top w) : Covers w (S \ range off len) (s.erase w off len) := by
  unfold IntervalSet.erase
  split_ifs with h0
  · rwa [h0, range_zero, Set.sdiff_empty]
  have happ := h.apart
  -- The intervals that begin before the range and those behind its beginning.
  have hsplit := List.takeWhile_append_dropWhile (p := fun q : ℕ × ℕ => q.1 < off) (l := s.m)
  have hbehind : ∀ q ∈ s.m.dropWhile (·.1 < off), off ≤ q.1 := fun q => le_of_mem_dropWhile happ
  have hbefore : ∀ q ∈ s.m.takeWhile (·.1 < off), q.1 < off := fun q => lt_of_mem_takeWhile
  have hbound := h.bounded
  have hpos : ∀ q ∈ s.m, 0 < q.2 := fun q => h.pos
  have htotal := h.total_lt_top
  generalize s.m.takeWhile (·.1 < off) = before at hsplit hbefore
  generalize s.m.dropWhile (·.1 < off) = after at hsplit hbehind
  rw [← hsplit] at happ hbound htotal hpos
  obtain ⟨a, m, m', rfl, heq, hm, hleft, hright⟩ := erasePrev_spec len happ
    (fun q hq => hbound q (List.mem_append_left _ hq))
    (fun q hq => hpos q (List.mem_append_left _ hq)) hbefore hlen (by omega)
  obtain ⟨-, hafter, hcross⟩ := List.pairwise_append.mp happ
  simp only [heq, plus_eq hlen]
  -- Of those behind, the ones that begin in the range are visited.
  have hsplit' := List.takeWhile_append_dropWhile (p := fun q : ℕ × ℕ => q.1 < off + len)
    (l := after)
  have hrest : ∀ q ∈ after.dropWhile (·.1 < off + len), off + len ≤ q.1 :=
    fun q => le_of_mem_dropWhile hafter
  have hvs : ∀ q ∈ after.takeWhile (·.1 < off + len), q.1 < off + len :=
    fun q => lt_of_mem_takeWhile
  generalize after.takeWhile (·.1 < off + len) = vs at hsplit' hvs
  generalize after.dropWhile (·.1 < off + len) = rest at hsplit' hrest
  obtain rfl := hsplit'
  -- What is left of the interval before, and those that the loop visits, stand apart.
  have hmvs : Apart (m' ++ vs) := List.pairwise_append.mpr
    ⟨hm.apart, (List.pairwise_append.mp hafter).1,
      fun q hq r hr => (hright q hq).2 r (by simp [hr])⟩
  have hmvsTotal := total_lt (w := w) hmvs (c := 0) (fun q hq => ?_) (by omega)
    fun q _ => Nat.zero_le q.1
  rotate_left
  · rcases List.mem_append.mp hq with hq | hq
    · exact hm.bounded q hq
    · exact hbound q (by simp [hq])
  simp only [total_append] at htotal hmvsTotal
  obtain ⟨tail, hloop, hcut, htail⟩ := visit_spec off (off + len) (total m) (total m') hafter
    (fun q hq => hbound q (by simp [hq])) (fun q hq => hpos q (by simp [hq]))
    (fun q hq => ⟨hbehind q (by simp [hq]), hvs q hq⟩) (by omega) (by omega)
  rw [hloop]
  -- What was touched is replaced by what is left of it.
  have hnew := h.replace (T := S \ range off len) (a := a) (m := m ++ vs) (n := m' ++ tail)
    (b := rest) (by rw [← hsplit]; simp) ?_ ?_ ?_ ?_ ?_ fun x => ?_
  · simpa using hnew
  · intro q hq
    exact (List.mem_append.mp hq).elim (hm.pos q) (hcut.pos q)
  · refine List.pairwise_append.mpr ⟨hm.apart, hcut.apart, fun q hq t ht => ?_⟩
    obtain ⟨hte, hne, -⟩ := htail t ht
    obtain ⟨v, hv⟩ := List.exists_mem_of_ne_nil vs hne
    have hvend := hvs v hv
    obtain ⟨hends, hq'⟩ := hright q hq
    have := hq' v (by simp [hv])
    omega
  · intro r hr q hq
    obtain ⟨hre, hrm⟩ := hleft r hr
    rcases List.mem_append.mp hq with hq | hq
    · exact hrm q hq
    · have := (htail q hq).1
      omega
  · intro q hq r hr
    rcases List.mem_append.mp hq with hq | hq
    · exact (hright q hq).2 r (by simp [hr])
    · exact (htail q hq).2.2 r hr
  · intro q hq
    exact (List.mem_append.mp hq).elim (hm.bounded q) (hcut.bounded q)
  -- Which bytes are in which part.
  · have hinVs : x ∈ covered vs → off ≤ x := by
      rintro ⟨v, hv, hx, -⟩
      exact (hbehind v (by simp [hv])).trans hx
    have hinA : x ∈ covered a → x < off := by
      rintro ⟨r, hr, -, hx⟩
      exact hx.trans_le (hleft r hr).1
    have hinRest : x ∈ covered rest → off + len ≤ x := by
      rintro ⟨r, hr, hx, -⟩
      exact (hrest r hr).trans hx
    rw [Set.mem_sdiff, h.mem, ← hsplit]
    simp only [mem_covered_append, hm.covers, hcut.covers, mem_range]
    by_cases hin : off ≤ x ∧ x < off + len
    · have hA : x ∉ covered a := fun hx => by have := hinA hx; omega
      have hR : x ∉ covered rest := fun hx => by have := hinRest hx; omega
      simp only [hin, hA, hR, and_self, not_true_eq_false, and_false, false_or, or_false,
        and_not_self]
    · simp only [hin, not_false_eq_true, and_true]
      exact iff_or_diff fun hx => hx.imp .inr .inl

/-! ## Runs -/

/-- The empty container has the empty set. -/
theorem Covers.empty : Covers w ∅ empty :=
  ⟨.nil rfl, fun _ hq => absurd hq List.not_mem_nil, rfl⟩

/-- What a call does to the numbers that are covered, it does to the intervals. -/
theorem Covers.call {S : Set ℕ} {s : IntervalSet} (h : Covers w S s) {c : Call}
    (hc : c.InRange w) : Covers w (c.apply S) (call w s c) := by
  cases c with
  | insert off len => exact h.insert hc
  | erase off len => exact h.erase hc
  | clear => exact .empty

/-- Over a run. -/
theorem Covers.calls {S : Set ℕ} {s : IntervalSet} (h : Covers w S s) {cs : List Call}
    (hcs : ∀ c ∈ cs, c.InRange w) :
    Covers w (cs.foldl Call.apply S) (cs.foldl (IntervalSet.call w) s) := by
  induction cs generalizing S s with
  | nil => exact h
  | cons c cs ih =>
    exact ih (h.call (hcs c List.mem_cons_self)) fun d hd => hcs d (List.mem_cons_of_mem _ hd)

/-! ## The codec -/

/-- The entries of a map go into an empty map in their order. -/
theorem foldl_emplace {a m : List (ℕ × ℕ)} (h : Apart (a ++ m)) (hpos : ∀ q ∈ a ++ m, 0 < q.2) :
    m.foldl emplace a = a ++ m := by
  induction m generalizing a with
  | nil => simp
  | cons q m ih =>
    have hbefore : ∀ r ∈ a, r.1 < q.1 := by
      intro r hr
      have := (List.pairwise_append.mp h).2.2 r hr q List.mem_cons_self
      omega
    have hnew : ¬a.any (·.1 = q.1) := by
      simp only [List.any_eq_true, decide_eq_true_eq, not_exists, not_and]
      exact fun r hr => (hbefore r hr).ne
    have hset := setKey_append (k := q.1) (v := q.2) (b := []) hbefore (by simp)
    rw [List.append_nil] at hset
    rw [List.foldl_cons, emplace, if_neg hnew, hset,
      ih (by simpa using h) (by simpa using hpos)]
    simp

/-- The sum of the lengths does not overflow. -/
theorem recalcSize_eq {m : List (ℕ × ℕ)} (h : total m < top w) : recalcSize w m = total m := by
  have hfold : ∀ n, n + total m < top w →
      m.foldl (fun size q => plus w size q.2) n = n + total m := by
    intro n hn
    induction m generalizing n with
    | nil => rfl
    | cons q m ih =>
      rw [total_cons] at h hn
      rw [List.foldl_cons, plus_eq (by omega), ih (by omega) _ (by omega), total_cons]
      omega
  simpa [recalcSize] using hfold 0 (by simpa using h)

/-- As many bytes are written as `bound_encode` counts. -/
theorem length_putEntries (w : ℕ) (m : List (ℕ × ℕ)) :
    (putList (putEntry w) m).length = boundEncode w m.length := by
  have hmap : (m.flatMap (putEntry w)).length = 2 * w * m.length := by
    induction m with
    | nil => rfl
    | cons q m ih =>
      rw [List.flatMap_cons, List.length_append, ih, putEntry, List.length_append, length_leBytes,
        length_leBytes, List.length_cons]
      ring
  rw [putList, List.length_append, length_putU32, hmap, boundEncode]

/-- A set is written into the space that it gets if, and only if, its bytes are less than 4 GiB. -/
theorem encode_eq_some_iff {s : IntervalSet} {bytes : List UInt8} :
    encode w s = some bytes ↔
      boundEncode w s.m.length < 2 ^ 32 ∧ bytes = putList (putEntry w) s.m := by
  simp only [encode, length_putEntries]
  split_ifs with hle
  · have hlt := hle.trans_lt (Nat.mod_lt _ (by decide))
    exact ⟨fun h => ⟨hlt, (Option.some.inj h).symm⟩, fun h => congrArg some h.2.symm⟩
  · have hge : ¬boundEncode w s.m.length < 2 ^ 32 := fun hlt =>
      hle (Nat.mod_eq_of_lt hlt).ge
    exact iff_of_false (fun h => nomatch h) fun h => hge h.1

/-- The entries of a set are read back, with anything behind them. -/
theorem Covers.decode_entries {S : Set ℕ} {s : IntervalSet} (h : Covers w S s)
    (hlen : boundEncode w s.m.length < 2 ^ 32) (rest : List UInt8) :
    decode w (putList (putEntry w) s.m ++ rest) = some (s, rest) := by
  have hbytes : ∀ q ∈ s.m, q.1 < 256 ^ w ∧ q.2 < 256 ^ w := fun q hq => by
    have hb := h.bounded q hq
    unfold top at hb
    omega
  have hcount : s.m.length < 2 ^ 32 := by
    unfold boundEncode at hlen
    cases w with
    | zero =>
      -- A type of no bytes has no intervals.
      cases hm : s.m with
      | nil => decide
      | cons q l =>
        have hq : q ∈ s.m := by simp [hm]
        have := h.pos hq
        have := hbytes q hq
        omega
    | succ w =>
      have : s.m.length ≤ 2 * (w + 1) * s.m.length := Nat.le_mul_of_pos_left _ (by omega)
      omega
  have hnum : (UInt32.ofNat s.m.length).toNat = s.m.length := by
    rw [UInt32.toNat_ofNat']
    omega
  have hmany : getMany (getEntry w) s.m.length (s.m.flatMap (putEntry w) ++ rest) =
      some (s.m.map id, rest) := by
    refine getMany_flatMap rest fun q hq rest => ?_
    obtain ⟨h1, h2⟩ := hbytes q hq
    simp [getEntry, putEntry, getNat_leBytes h1, getNat_leBytes h2]
  have hfold : s.m.foldl emplace [] = s.m := foldl_emplace h.apart fun q => h.pos
  simp [decode, getList, putList, hnum, hmany, hfold, recalcSize_eq h.total_lt_top, ← h.size]

/-- What is encoded is decoded, from a list that holds it and anything behind it. -/
def Decodes (w : ℕ) (s : IntervalSet) : Prop :=
  ∃ bytes, encode w s = some bytes ∧
    ∀ rest : List UInt8, (bytes ++ rest).length < 2 ^ 32 → decode w (bytes ++ rest) = some (s, rest)

/-- Every set that is written into the space that it gets is read back. -/
theorem Covers.decodes_iff {S : Set ℕ} {s : IntervalSet} (h : Covers w S s) :
    Decodes w s ↔ boundEncode w s.m.length < 2 ^ 32 := by
  constructor
  · rintro ⟨bytes, hbytes, -⟩
    exact (encode_eq_some_iff.mp hbytes).1
  · exact fun hlen => ⟨_, encode_eq_some_iff.mpr ⟨hlen, rfl⟩,
      fun rest _ => h.decode_entries hlen rest⟩

/-- A set of the numbers `S`: every call has its effect on these, the intervals are the maximal ones
and the size is their total length, and what is encoded is decoded. -/
def Exact (w : ℕ) (S : Set ℕ) (s : IntervalSet) : Prop :=
  Covers w S s ∧ (∀ c : Call, c.InRange w → Covers w (c.apply S) (call w s c)) ∧ Decodes w s

/-- After any calls a set has the numbers that they inserted and did not erase; only a set that takes
4 GiB or more is not written and read back. -/
theorem covered_calls {cs : List Call} (hcs : ∀ c ∈ cs, c.InRange w) :
    Exact w (cs.foldl Call.apply ∅) (cs.foldl (call w) empty) ↔
      boundEncode w (cs.foldl (call w) empty).m.length < 2 ^ 32 := by
  have h := Covers.empty.calls hcs
  constructor
  · exact fun hexact => h.decodes_iff.mp hexact.2.2
  · exact fun hlen => ⟨h, fun c hc => h.call hc, h.decodes_iff.mpr hlen⟩

/-- A range that grows, and is cut. -/
theorem covered_calls_touching :
    Exact 8 ([Call.insert 10 5, .insert 15 5, .erase 12 2].foldl Call.apply ∅)
      ([Call.insert 10 5, .insert 15 5, .erase 12 2].foldl (call 8) empty) :=
  (covered_calls (by simp [Call.InRange, top])).mpr (by decide)

/-- `n` numbers that are two apart. -/
theorem foldl_insert_evens {n : ℕ} (hn : 2 * n < top w) :
    ((List.range n).map fun i => Call.insert (2 * i) 1).foldl (call w) empty =
      ⟨(List.range n).map fun i => (2 * i, 1), n⟩ := by
  induction n with
  | zero => rfl
  | succ n ih =>
    rw [List.range_succ, List.map_append, List.foldl_append, ih (by omega)]
    have hall : ∀ q ∈ (List.range n).map fun i => (2 * i, 1), q.1 + q.2 < 2 * n := by
      simp only [List.mem_map, List.mem_range]
      rintro q ⟨i, hi, rfl⟩
      dsimp only
      omega
    have htake : ((List.range n).map fun i => (2 * i, 1)).takeWhile (·.1 < 2 * n) =
        (List.range n).map fun i => (2 * i, 1) := by
      refine List.takeWhile_eq_self_iff.mpr fun q hq => ?_
      have := hall q hq
      simp only [decide_eq_true_eq]
      omega
    have hdrop : ((List.range n).map fun i => (2 * i, 1)).dropWhile (·.1 < 2 * n) = [] := by
      refine List.dropWhile_eq_nil_iff.mpr fun q hq => ?_
      have := hall q hq
      simp only [decide_eq_true_eq]
      omega
    have hset := setKey_append (k := 2 * n) (v := 1) (b := [])
      (fun q hq => by have := hall q hq; omega) (by simp)
    rw [List.append_nil] at hset
    simp only [List.map_cons, List.map_nil, List.foldl_cons, List.foldl_nil, call,
      IntervalSet.insert, htake, hdrop, absorb, List.append_nil, hset]
    have hsize : plus w n 1 = n + 1 := plus_eq (by omega)
    rw [if_neg one_ne_zero, minus_eq (by omega) (Nat.zero_le 1), Nat.sub_zero]
    cases hlast : ((List.range n).map fun i => (2 * i, 1)).getLast? with
    | none => simp [hsize]
    | some prev =>
      have hprev := hall prev (List.mem_of_getLast? hlast)
      dsimp only
      rw [plus_eq (by omega), if_neg (by omega)]
      simp [hsize]

/-- The numbers `0, 2, …` up to `2 ^ 29 - 2`: 4 bytes are reserved for their 4 GiB. -/
theorem evens_lost : ¬∀ cs : List Call, (∀ c ∈ cs, c.InRange 8) →
    Exact 8 (cs.foldl Call.apply ∅) (cs.foldl (call 8) empty) := by
  obtain ⟨n, hn⟩ : ∃ n, n = 2 ^ 28 := ⟨_, rfl⟩
  intro h
  have hfit : ∀ c ∈ (List.range n).map fun i => Call.insert (2 * i) 1, c.InRange 8 := by
    simp only [List.mem_map, List.mem_range]
    rintro c ⟨i, hi, rfl⟩
    simp only [Call.InRange, top]
    omega
  obtain ⟨-, -, bytes, hbytes, -⟩ := h _ hfit
  have hlen := (encode_eq_some_iff.mp hbytes).1
  rw [foldl_insert_evens (by unfold top; omega), List.length_map, List.length_range, hn] at hlen
  exact absurd hlen (by decide)

end IntervalSet

end CxxLab.Common
