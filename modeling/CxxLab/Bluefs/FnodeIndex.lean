import CxxLab.Bluefs.Log
import CxxLab.Lib.Runs

/-!
# The index of a node

`extents_index` says where in the file each extent begins, and `allocated` how long they are
together; `seek` finds an extent with them. Here are the operations of `bluefs_fnode_t` that the log
does not need, and what all of them keep. The copy constructor appends the extents to a node that
has the `allocated` of the other one already: `index_exact` is for every sequence of operations that
copies only nodes to which nothing is allocated.
-/

namespace CxxLab.Bluefs.Fnode

open Runs

/-! ## Operations -/

/-- `clone_extents`. -/
def cloneExtents (n other : Fnode) : Fnode := n.claimExtents other.extents

/-- The copy constructor: `allocated` is copied before the extents are appended. -/
def copied (other : Fnode) : Fnode :=
  cloneExtents
    { ino := other.ino, size := other.size, mtime := other.mtime, extents := [], extentsIndex := []
      allocated := other.allocated, allocatedCommitted := other.allocatedCommitted } other

/-- `pop_front_extent`; `none` where there is no extent. -/
def popFrontExtent (n : Fnode) : Option Fnode :=
  match n.extents with
  | [] => none
  | e :: es => some { n with
    allocated := n.allocated - e.length
    extentsIndex := n.extentsIndex.tail.map (· - e.length)
    extents := es }

/-- `swap_extents`: what becomes of the first node. -/
def swapExtents (n other : Fnode) : Fnode :=
  { n with
    extents := other.extents
    extentsIndex := other.extentsIndex
    allocated := other.allocated
    allocatedCommitted := other.allocatedCommitted }

/-- `swap`: what becomes of the first node. -/
def swap (n other : Fnode) : Fnode :=
  swapExtents { n with ino := other.ino, size := other.size, mtime := other.mtime } other

/-- `decode`, of an encoding that has these fields. -/
def decode (n : Fnode) (ino size mtime : ℕ) (es : List Extent) : Fnode :=
  recalcAllocated { n with ino := ino, size := size, mtime := mtime, extents := es }

/-- The node that `BlueFS::truncate` cuts, before it is logged. -/
def cutTo (n : Fnode) (offset : ℕ) : Fnode :=
  let kept := (Fs.cutExtents offset 0 n.extents).1
  let n := { n with extents := [], extentsIndex := [], allocated := 0 }.claimExtents kept
  { n with size := offset }

/-- What `BlueFS::truncate` makes of the node, in the end with `op_file_update`. -/
def truncate (n : Fnode) (offset : ℕ) : Fnode :=
  if n.ino ≤ 1 ∨ n.size ≤ offset then n else (n.cutTo offset).resetDelta

/-- `std::upper_bound` in an ordered list: how many of its numbers are at most `x`. -/
def upperBound (l : List ℕ) (x : ℕ) : ℕ := (l.takeWhile (· ≤ x)).length

/-- `seek`: the position of the extent, and `x_off`; `none` is the end. -/
def seek (n : Fnode) (off : ℕ) : Option (ℕ × ℕ) :=
  if n.extents = [] then none
  else if n.allocated ≤ off then none
  else
    let it := upperBound n.extentsIndex off
    if it = 0 then none else some (it - 1, off - n.extentsIndex.getD (it - 1) 0)

/-! ## The index -/

/-- Where extents begin that lie one behind the other from `pos` on. -/
def starts : ℕ → List Extent → List ℕ
  | _, [] => []
  | pos, e :: es => pos :: starts (pos + e.length) es

/-- The redundant fields of a node say what its extents say. -/
structure Indexed (n : Fnode) : Prop where
  /-- There is one entry for each extent, the length of those before it. -/
  index : n.extentsIndex = starts 0 n.extents
  /-- `allocated` is the length of all extents. -/
  allocated : n.allocated = total n.extents

/-- The lengths of two lists of extents add up. -/
theorem total_append (es es' : List Extent) : total (es ++ es') = total es + total es' := by
  rw [total, List.map_append, List.sum_append, total, total]

/-- The second list of extents starts where the first one ends. -/
theorem starts_append (pos : ℕ) (es es' : List Extent) :
    starts pos (es ++ es') = starts pos es ++ starts (pos + total es) es' := by
  induction es generalizing pos with
  | nil => rfl
  | cons e es ih => rw [List.cons_append, starts, ih, total_cons, ← Nat.add_assoc, starts]; rfl

/-- The entry of an extent is the length of those before it. -/
theorem getElem?_starts (pos : ℕ) (es : List Extent) {i : ℕ} (h : i < es.length) :
    (starts pos es)[i]? = some (pos + total (es.take i)) := by
  induction es generalizing pos i with
  | nil => exact absurd h (Nat.not_lt_zero _)
  | cons e es ih =>
    cases i with
    | zero => rfl
    | succ i =>
      rw [starts, List.getElem?_cons_succ, ih _ (Nat.lt_of_succ_lt_succ h), List.take_succ_cons,
        total_cons, Nat.add_assoc]

/-- Extents that begin earlier. -/
theorem map_starts_sub (pos k : ℕ) (es : List Extent) :
    (starts (pos + k) es).map (· - k) = starts pos es := by
  induction es generalizing pos with
  | nil => rfl
  | cons e es ih =>
    rw [starts, List.map_cons, Nat.add_sub_cancel, Nat.add_right_comm, ih, starts]

/-- A new node has nothing to index. -/
theorem indexed_new (ino size mtime : ℕ) : (new ino size mtime).Indexed := ⟨rfl, rfl⟩

/-- An extent that is appended is indexed. -/
theorem Indexed.appendExtent {n : Fnode} (h : n.Indexed) (e : Extent) :
    (n.appendExtent e).Indexed := by
  obtain ⟨hindex, hall⟩ := h
  have hplain : Indexed { n with
      extents := n.extents ++ [e]
      extentsIndex := n.extentsIndex ++ [n.allocated]
      allocated := n.allocated + e.length } := by
    refine ⟨?_, ?_⟩ <;> dsimp only
    · rw [hindex, starts_append, hall, Nat.zero_add]
      rfl
    · rw [hall, total_append]
      rfl
  unfold Fnode.appendExtent
  cases hlast : n.extents.getLast? with
  | none => exact hplain
  | some last =>
    dsimp only
    split_ifs
    · -- Merged: the last extent begins where it did.
      obtain ⟨es, hes⟩ := List.getLast?_eq_some_iff.mp hlast
      refine ⟨?_, ?_⟩ <;> dsimp only
      · rw [hindex, hes, List.dropLast_concat, starts_append, starts_append]
        rfl
      · rw [hall, hes, List.dropLast_concat, total_append, total_append]
        simp only [total_cons, total_nil]
        omega
    · exact hplain

/-- So are those that are claimed. -/
theorem Indexed.claimExtents {n : Fnode} (h : n.Indexed) (es : List Extent) :
    (n.claimExtents es).Indexed := by
  induction es generalizing n with
  | nil => exact h
  | cons e es ih => exact ih (h.appendExtent e)

/-- Without its first extent a node is indexed anew. -/
theorem Indexed.popFrontExtent {n n' : Fnode} (h : n.Indexed) (hpop : n.popFrontExtent = some n') :
    n'.Indexed := by
  obtain ⟨hindex, hall⟩ := h
  unfold Fnode.popFrontExtent at hpop
  cases hext : n.extents with
  | nil =>
    rw [hext] at hpop
    cases hpop
  | cons e es =>
    rw [hext] at hpop
    obtain rfl := Option.some.inj hpop
    refine ⟨?_, ?_⟩ <;> dsimp only
    · rw [hindex, hext, starts, List.tail_cons, map_starts_sub]
    · rw [hall, hext, total_cons, Nat.add_sub_cancel_left]

/-- `recalc_allocated` makes the index anew. -/
theorem Indexed.recalcAllocated (n : Fnode) : n.recalcAllocated.Indexed := by
  have hloop : ∀ (es : List Extent) (m : Fnode),
      (es.foldl recalcExtent m).extentsIndex = m.extentsIndex ++ starts m.allocated es := by
    intro es
    induction es with
    | nil => exact fun m => (List.append_nil _).symm
    | cons e es ih =>
      intro m
      rw [List.foldl_cons, ih, recalcExtent, starts, List.append_assoc]
      rfl
  obtain ⟨m, hm⟩ : ∃ m, m =
      n.extents.foldl recalcExtent { n with allocated := 0, extentsIndex := [] } := ⟨_, rfl⟩
  obtain ⟨hall, hext, -⟩ := recalcExtent_foldl n.extents { n with allocated := 0, extentsIndex := [] }
  have hindex := hloop n.extents { n with allocated := 0, extentsIndex := [] }
  rw [← hm] at hall hext hindex
  have hrecalc : n.recalcAllocated = m.resetDelta := by
    rw [hm]
    rfl
  rw [hrecalc]
  refine ⟨?_, ?_⟩
  · show m.extentsIndex = starts 0 m.extents
    rw [hindex, hext]
    rfl
  · show m.allocated = total m.extents
    rw [hall, hext]
    exact Nat.zero_add _

/-- A node that is cut has its extents indexed. -/
theorem Indexed.truncate {n : Fnode} (h : n.Indexed) (offset : ℕ) :
    (n.truncate offset).Indexed := by
  unfold Fnode.truncate
  split_ifs
  · exact h
  · have hempty : Indexed { n with extents := [], extentsIndex := [], allocated := 0 } := ⟨rfl, rfl⟩
    have hkept := hempty.claimExtents (Fs.cutExtents offset 0 n.extents).1
    exact ⟨hkept.index, hkept.allocated⟩

/-- The index goes with the extents. -/
theorem Indexed.swapExtents (n : Fnode) {other : Fnode} (h : other.Indexed) :
    (n.swapExtents other).Indexed := ⟨h.index, h.allocated⟩

/-- A copy has twice the `allocated` of the node, and is right only where that is nothing. -/
theorem indexed_copied_iff {n : Fnode} (h : n.Indexed) : n.copied.Indexed ↔ n.allocated = 0 := by
  constructor
  · intro hc
    obtain ⟨hspread, hall, -⟩ := claimExtents_spec
      { ino := n.ino, size := n.size, mtime := n.mtime, extents := [], extentsIndex := []
        allocated := n.allocated, allocatedCommitted := n.allocatedCommitted } n.extents
    have hlen : total n.copied.extents = total n.extents := by
      rw [← length_spread, ← length_spread]
      exact congrArg List.length hspread
    have hcopied : n.copied.allocated = n.allocated + total n.extents := hall
    have h1 := hc.allocated
    have h2 := h.allocated
    omega
  · intro h0
    have hempty : Indexed
        { ino := n.ino, size := n.size, mtime := n.mtime, extents := [], extentsIndex := []
          allocated := n.allocated, allocatedCommitted := n.allocatedCommitted } := ⟨rfl, h0⟩
    exact hempty.claimExtents n.extents

/-! ## `seek` -/

/-- What `seek` is to find: the extent that has the offset of the file, and the offset in it. -/
structure Found (n : Fnode) (off i x : ℕ) (e : Extent) : Prop where
  /-- The extent is the one at the position. -/
  extent : n.extents[i]? = some e
  /-- The offset is in the extent. -/
  inside : x < e.length
  /-- It is the offset of the file. -/
  offset : total (n.extents.take i) + x = off

/-- `upper_bound` gives the extent behind the one with an offset. -/
theorem upperBound_starts {es : List Extent} {pos off : ℕ} (hle : pos ≤ off)
    (hlt : off < pos + total es) :
    ∃ i e, es[i]? = some e ∧ upperBound (starts pos es) off = i + 1 ∧
      pos + total (es.take i) ≤ off ∧ off < pos + total (es.take i) + e.length := by
  induction es generalizing pos with
  | nil => exact absurd hlt (not_lt.mpr hle)
  | cons e es ih =>
    have hstep : upperBound (starts pos (e :: es)) off =
        upperBound (starts (pos + e.length) es) off + 1 := by
      unfold upperBound
      rw [starts, List.takeWhile_cons_of_pos (by simpa using hle), List.length_cons]
    rcases Nat.lt_or_ge off (pos + e.length) with hin | hbehind
    · -- The offset is in the first extent: the others begin behind it.
      have hzero : upperBound (starts (pos + e.length) es) off = 0 := by
        cases es with
        | nil => rfl
        | cons d es =>
          unfold upperBound
          rw [starts, List.takeWhile_cons_of_neg (by simpa using hin), List.length_nil]
      exact ⟨0, e, rfl, by rw [hstep, hzero], by simpa using hle, by simpa using hin⟩
    · rw [total_cons, ← Nat.add_assoc] at hlt
      obtain ⟨i, d, hd, hupper, hge, hlt'⟩ := ih hbehind hlt
      refine ⟨i + 1, d, hd, by rw [hstep, hupper], ?_, ?_⟩ <;>
        rw [List.take_succ_cons, total_cons] <;> omega

/-- With a right index, `seek` finds every offset below `allocated`. -/
theorem Indexed.seek_of_lt {n : Fnode} (h : n.Indexed) {off : ℕ} (hlt : off < n.allocated) :
    ∃ i x e, n.seek off = some (i, x) ∧ n.Found off i x e := by
  have htotal : off < 0 + total n.extents := by rw [Nat.zero_add, ← h.allocated]; exact hlt
  obtain ⟨i, e, he, hupper, hge, hlt'⟩ := upperBound_starts (Nat.zero_le off) htotal
  rw [Nat.zero_add] at hge hlt'
  have hi : i < n.extents.length := (List.getElem?_eq_some_iff.mp he).1
  have hne : n.extents ≠ [] := List.ne_nil_of_length_pos (Nat.zero_lt_of_lt hi)
  have hstart : n.extentsIndex.getD i 0 = total (n.extents.take i) := by
    rw [h.index, List.getD_eq_getElem?_getD, getElem?_starts 0 n.extents hi, Nat.zero_add]
    rfl
  refine ⟨i, off - total (n.extents.take i), e, ?_, he, by omega, Nat.add_sub_cancel' hge⟩
  unfold seek
  rw [if_neg hne, if_neg (not_le.mpr hlt), h.index, hupper, ← h.index]
  dsimp only
  rw [if_neg (Nat.succ_ne_zero i), Nat.add_sub_cancel, hstart]

/-- From `allocated` on it finds the end. -/
theorem seek_of_le {n : Fnode} {off : ℕ} (h : n.allocated ≤ off) : n.seek off = none := by
  unfold seek
  split_ifs <;> rfl

/-! ## Sequences of operations -/

/-- An operation on nodes, each known by a number. -/
inductive Op where
  /-- The constructor. -/
  | construct (i ino size mtime : ℕ)
  /-- The copy constructor: `i` is made of `j`. -/
  | copyConstruct (i j : ℕ)
  /-- `i = j`. -/
  | assign (i j : ℕ)
  /-- `append_extent`. -/
  | appendExtent (i : ℕ) (e : Extent)
  /-- `claim_extents`. -/
  | claimExtents (i : ℕ) (es : List Extent)
  /-- `clone_extents`, of another node. -/
  | cloneExtents (i j : ℕ)
  /-- `pop_front_extent`. -/
  | popFrontExtent (i : ℕ)
  /-- `swap_extents`. -/
  | swapExtents (i j : ℕ)
  /-- `swap`. -/
  | swap (i j : ℕ)
  /-- `clear_extents`. -/
  | clearExtents (i : ℕ)
  /-- `recalc_allocated`. -/
  | recalcAllocated (i : ℕ)
  /-- `reset_delta`. -/
  | resetDelta (i : ℕ)
  /-- `decode`, of an encoding of these fields. -/
  | decode (i ino size mtime : ℕ) (es : List Extent)
  /-- `BlueFS::truncate`. -/
  | truncate (i offset : ℕ)

/-- One operation; `none` where the code reads an extent of an empty node, or appends to the extents
that it goes through. -/
def step (s : ℕ → Fnode) : Op → Option (ℕ → Fnode)
  | .construct i ino size mtime => some (Function.update s i (new ino size mtime))
  | .copyConstruct i j => some (Function.update s i (s j).copied)
  | .assign i j => some (Function.update s i (s j))
  | .appendExtent i e => some (Function.update s i ((s i).appendExtent e))
  | .claimExtents i es => some (Function.update s i ((s i).claimExtents es))
  | .cloneExtents i j =>
    if i = j then none else some (Function.update s i ((s i).cloneExtents (s j)))
  | .popFrontExtent i => (s i).popFrontExtent.map (Function.update s i)
  | .swapExtents i j => some (Function.update (Function.update s i ((s i).swapExtents (s j))) j
      ((s j).swapExtents (s i)))
  | .swap i j => some (Function.update (Function.update s i ((s i).swap (s j))) j
      ((s j).swap (s i)))
  | .clearExtents i => some (Function.update s i (s i).clearExtents)
  | .recalcAllocated i => some (Function.update s i (s i).recalcAllocated)
  | .resetDelta i => some (Function.update s i (s i).resetDelta)
  | .decode i ino size mtime es => some (Function.update s i ((s i).decode ino size mtime es))
  | .truncate i offset => some (Function.update s i ((s i).truncate offset))

/-- Only nodes to which nothing is allocated are copied. -/
def CopiesEmpty (s : ℕ → Fnode) : Op → Prop
  | .copyConstruct _ j => (s j).allocated = 0
  | _ => True

instance (s : ℕ → Fnode) : ∀ op, Decidable (CopiesEmpty s op)
  | .copyConstruct _ j => inferInstanceAs (Decidable ((s j).allocated = 0))
  | .construct .. | .assign .. | .appendExtent .. | .claimExtents .. | .cloneExtents ..
  | .popFrontExtent _ | .swapExtents .. | .swap .. | .clearExtents _ | .recalcAllocated _
  | .resetDelta _ | .decode .. | .truncate .. => inferInstanceAs (Decidable True)

/-- The index of every node is right. -/
def AllIndexed (s : ℕ → Fnode) : Prop := ∀ k, (s k).Indexed

/-- A node is changed to one with a right index. -/
theorem indexed_update {s : ℕ → Fnode} (h : AllIndexed s) (i : ℕ) {n : Fnode} (hn : n.Indexed) :
    AllIndexed (Function.update s i n) := by
  intro k
  rcases eq_or_ne k i with rfl | hne
  · rwa [Function.update_self]
  · rw [Function.update_of_ne hne]
    exact h k

/-- Every operation keeps the index, a copy of a node with extents apart. -/
theorem step_indexed (s : ℕ → Fnode) (op : Op) (s' : ℕ → Fnode) (h : AllIndexed s)
    (hop : CopiesEmpty s op) (hs : step s op = some s') : AllIndexed s' := by
  -- One case for each operation.
  cases op with
  | popFrontExtent i =>
    obtain ⟨n, hn, rfl⟩ := Option.map_eq_some_iff.mp hs
    exact indexed_update h i ((h i).popFrontExtent hn)
  | cloneExtents i j =>
    have hs : (if i = j then none else
      some (Function.update s i ((s i).cloneExtents (s j)))) = some s' := hs
    split_ifs at hs
    obtain rfl := Option.some.inj hs
    exact indexed_update h i ((h i).claimExtents (s j).extents)
  | construct i ino size mtime =>
    obtain rfl := Option.some.inj hs
    exact indexed_update h i (indexed_new ino size mtime)
  | copyConstruct i j =>
    obtain rfl := Option.some.inj hs
    exact indexed_update h i ((indexed_copied_iff (h j)).mpr hop)
  | assign i j =>
    obtain rfl := Option.some.inj hs
    exact indexed_update h i (h j)
  | appendExtent i e =>
    obtain rfl := Option.some.inj hs
    exact indexed_update h i ((h i).appendExtent e)
  | claimExtents i es =>
    obtain rfl := Option.some.inj hs
    exact indexed_update h i ((h i).claimExtents es)
  | swapExtents i j =>
    obtain rfl := Option.some.inj hs
    exact indexed_update (indexed_update h i (Indexed.swapExtents (s i) (h j))) j
      (Indexed.swapExtents (s j) (h i))
  | swap i j =>
    obtain rfl := Option.some.inj hs
    exact indexed_update (indexed_update h i (Indexed.swapExtents _ (h j))) j
      (Indexed.swapExtents _ (h i))
  | clearExtents i =>
    obtain rfl := Option.some.inj hs
    exact indexed_update h i ⟨rfl, rfl⟩
  | recalcAllocated i =>
    obtain rfl := Option.some.inj hs
    exact indexed_update h i (Indexed.recalcAllocated _)
  | resetDelta i =>
    obtain rfl := Option.some.inj hs
    exact indexed_update h i ⟨(h i).index, (h i).allocated⟩
  | decode i ino size mtime es =>
    obtain rfl := Option.some.inj hs
    exact indexed_update h i (Indexed.recalcAllocated _)
  | truncate i offset =>
    obtain rfl := Option.some.inj hs
    exact indexed_update h i ((h i).truncate offset)

/-- New nodes. -/
def start : ℕ → Fnode := fun _ => new 0 0 0

/-- After any sequence of operations that copies only nodes to which nothing is allocated, the index
and `allocated` of every node are right, and `seek` finds what it is to find. -/
theorem index_exact (ops : List Op) {s : ℕ → Fnode} (h : exec step start ops = some s)
    (hops : Meets step CopiesEmpty start ops) (k : ℕ) :
    (s k).Indexed ∧ (∀ off < (s k).allocated, ∃ i x e, (s k).seek off = some (i, x) ∧
      (s k).Found off i x e) ∧ ∀ off, (s k).allocated ≤ off → (s k).seek off = none := by
  have hindexed := exec_invariant step_indexed ops start s (fun _ => indexed_new 0 0 0) hops h k
  exact ⟨hindexed, fun off => hindexed.seek_of_lt, fun off => seek_of_le⟩

/-- Two extents that are merged, one apart, and the first one taken away again. -/
def threeAppended : List Op :=
  [.construct 0 2 0 0, .appendExtent 0 ⟨0, 0x1000, 0x1000⟩, .appendExtent 0 ⟨0, 0x2000, 0x1000⟩,
    .appendExtent 0 ⟨1, 0x1000, 0x800⟩, .copyConstruct 1 2, .assign 1 0, .popFrontExtent 0]

/-- Three extents are appended to a node. -/
theorem index_exact_threeAppended : ∃ s, exec step start threeAppended = some s ∧
    (s 1).Indexed ∧ (∀ off < (s 1).allocated, ∃ i x e, (s 1).seek off = some (i, x) ∧
      (s 1).Found off i x e) ∧ ∀ off, (s 1).allocated ≤ off → (s 1).seek off = none :=
  ⟨_, rfl, index_exact threeAppended rfl (by decide) 1⟩

/-- The copy of a node of one extent: it says that the extent begins behind itself, and the bytes of
the file are not found. -/
theorem copy_not_found : ∃ s, exec step start
    [.construct 0 2 0 0, .appendExtent 0 ⟨0, 0x1000, 0x1000⟩, .copyConstruct 1 0] = some s ∧
      (s 1).extents = [⟨0, 0x1000, 0x1000⟩] ∧ (s 1).extentsIndex = [0x1000] ∧
      (s 1).allocated = 0x2000 ∧ (s 1).seek 0 = none :=
  ⟨_, rfl, by decide, by decide, by decide, by decide⟩

end CxxLab.Bluefs.Fnode
