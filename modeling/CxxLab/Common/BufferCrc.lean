import CxxLab.Common.Crc32
import Mathlib.Logic.Function.Basic
import Mathlib.Data.List.Basic

/-!
# Cached checksums of buffer lists

`buffer::list::crc32c` of `common/buffer.cc`. A raw buffer keeps the checksum of the last range that
was summed, with the seed that was used; for another seed the list adjusts it by the checksums of
two runs of zeros. The adjustment is right because a byte changes the state of the checksum by a
function that is linear over exclusive or: two runs over the same bytes differ by the run of zeros
over the difference of their seeds.
-/

namespace CxxLab.Common

/-! ## Raw buffers -/

/-- `buffer::raw`: its bytes, and the cached checksum. -/
structure Raw where
  /-- `data`. -/
  data : List UInt8
  /-- `last_crc_offset`. -/
  lastCrcOffset : ℕ × ℕ
  /-- `last_crc_val`: the seed and the checksum. -/
  lastCrcVal : UInt32 × UInt32

/-- `buffer::ptr_node`: a range of a raw buffer. -/
structure PtrNode where
  /-- `_raw`. -/
  raw : ℕ
  /-- `_off`. -/
  off : ℕ
  /-- `_len`. -/
  len : ℕ
  deriving DecidableEq, Repr

/-- The raw buffers. -/
abbrev Raws := ℕ → Raw

/-- `raw::get_crc`. -/
def Raw.getCrc (r : Raw) (fromTo : ℕ × ℕ) : Option (UInt32 × UInt32) :=
  if r.lastCrcOffset = fromTo then some r.lastCrcVal else none

/-- `raw::set_crc`. -/
def Raw.setCrc (r : Raw) (fromTo : ℕ × ℕ) (crc : UInt32 × UInt32) : Raw :=
  { r with lastCrcOffset := fromTo, lastCrcVal := crc }

/-- The bytes of a node. -/
def PtrNode.bytes (raws : Raws) (p : PtrNode) : List UInt8 :=
  ((raws p.raw).data.drop p.off).take p.len

/-- The bytes of a list of nodes. -/
def flat (raws : Raws) (nodes : List PtrNode) : List UInt8 := nodes.flatMap (PtrNode.bytes raws)

/-- A node lies in its raw buffer. -/
def PtrNode.Fits (raws : Raws) (p : PtrNode) : Prop := p.off + p.len ≤ (raws p.raw).data.length

/-! ## Checksums -/

/-- One byte of the zero run of `calc_crc32`. -/
def crcZero (crc : UInt32) : UInt32 := (crc >>> 8) ^^^ crcTable (crc &&& 0xFF)

/-- `calc_crc32` without data: a run of zeros. -/
def calcCrc32Null (length : ℕ) (previousCrc : UInt32) : UInt32 :=
  if length = 0 then previousCrc else ~~~ Nat.repeat crcZero length (~~~ previousCrc)

/-- How the nodes of a list were summed. -/
structure CrcCounts where
  /-- `cache_misses`. -/
  misses : ℕ := 0
  /-- `cache_hits`. -/
  hits : ℕ := 0
  /-- `cache_adjusts`. -/
  adjusts : ℕ := 0

/-- The state of the loop of `buffer::list::crc32c`. -/
structure CrcLoop where
  /-- The checksum so far. -/
  crc : UInt32
  /-- The raw buffers, whose caches change. -/
  raws : Raws
  /-- The counts. -/
  counts : CrcCounts

/-- The loop body of `buffer::list::crc32c`. -/
def crcNode (s : CrcLoop) (node : PtrNode) : CrcLoop :=
  if node.len = 0 then s
  else
    let ofs := (node.off, node.off + node.len)
    match (s.raws node.raw).getCrc ofs with
    | some ccrc =>
      if ccrc.1 = s.crc then
        { s with crc := ccrc.2, counts := { s.counts with hits := s.counts.hits + 1 } }
      else
        { s with
          crc := ccrc.2 ^^^ calcCrc32Null node.len (ccrc.1 ^^^ s.crc) ^^^ calcCrc32Null node.len 0
          counts := { s.counts with adjusts := s.counts.adjusts + 1 } }
    | none =>
      let crc := calcCrc32 (node.bytes s.raws) s.crc
      { crc := crc
        raws := Function.update s.raws node.raw ((s.raws node.raw).setCrc ofs (s.crc, crc))
        counts := { s.counts with misses := s.counts.misses + 1 } }

/-- `buffer::list::crc32c`: the checksum, the raw buffers with their caches, and the counts. -/
def crc32c (raws : Raws) (nodes : List PtrNode) (crc : UInt32) : CrcLoop :=
  nodes.foldl crcNode ⟨crc, raws, {}⟩

/-! ## Linearity -/

/-- A mask goes into an exclusive or. -/
theorem xor_and (x y m : UInt32) : (x ^^^ y) &&& m = (x &&& m) ^^^ (y &&& m) := by
  refine UInt32.toBitVec_inj.mp (BitVec.eq_of_getLsbD_eq fun i _ => ?_)
  simp only [UInt32.toBitVec_and, UInt32.toBitVec_xor, BitVec.getLsbD_and, BitVec.getLsbD_xor]
  cases x.toBitVec.getLsbD i <;> cases y.toBitVec.getLsbD i <;> cases m.toBitVec.getLsbD i <;> rfl

/-- The lowest bit of a word. -/
theorem and_one_cases (x : UInt32) : x &&& 1 = 0 ∨ x &&& 1 = 1 := by
  have hmod : (x &&& 1).toNat = x.toNat % 2 := by
    rw [UInt32.toNat_and]
    exact Nat.and_one_is_mod _
  rcases Nat.mod_two_eq_zero_or_one x.toNat with h | h
  · exact .inl (UInt32.toNat_inj.mp (hmod.trans h))
  · exact .inr (UInt32.toNat_inj.mp (hmod.trans h))

/-- A bit of the checksum is linear. -/
theorem crcBit_xor (x y : UInt32) : crcBit (x ^^^ y) = crcBit x ^^^ crcBit y := by
  have hxy := xor_and x y 1
  unfold crcBit
  rw [UInt32.shiftRight_xor]
  rcases and_one_cases x with hx | hx <;> rcases and_one_cases y with hy | hy
  · simp [hxy, hx, hy]
  · simp [hxy, hx, hy, UInt32.xor_assoc]
  · rw [hxy, hx, hy]
    have hne : ¬(0 : UInt32) = 1 := by decide
    rw [UInt32.xor_zero, if_pos rfl, if_pos rfl, if_neg hne]
    ac_rfl
  · rw [hxy, hx, hy]
    -- The two polynomials cancel.
    calc (if (1 : UInt32) ^^^ 1 = 1 then x >>> 1 ^^^ y >>> 1 ^^^ polyCastagnoli
          else x >>> 1 ^^^ y >>> 1)
        = x >>> 1 ^^^ y >>> 1 ^^^ (polyCastagnoli ^^^ polyCastagnoli) := by simp
      _ = x >>> 1 ^^^ polyCastagnoli ^^^ (y >>> 1 ^^^ polyCastagnoli) := by ac_rfl

/-- So is what is made of steps that are. -/
theorem repeat_xor {f : UInt32 → UInt32} (hf : ∀ x y, f (x ^^^ y) = f x ^^^ f y) (n : ℕ)
    (x y : UInt32) : Nat.repeat f n (x ^^^ y) = Nat.repeat f n x ^^^ Nat.repeat f n y := by
  induction n with
  | zero => rfl
  | succ n ih => rw [Nat.repeat, Nat.repeat, Nat.repeat, ih, hf]

/-- A zero byte is linear. -/
theorem crcZero_xor (x y : UInt32) : crcZero (x ^^^ y) = crcZero x ^^^ crcZero y := by
  unfold crcZero crcTable
  rw [UInt32.shiftRight_xor, xor_and, repeat_xor crcBit_xor]
  ac_rfl

/-- A byte is a zero byte after the byte is added. -/
theorem crcByte_eq (crc : UInt32) (b : UInt8) : crcByte crc b = crcZero (crc ^^^ b.toUInt32) := by
  have hb : b.toUInt32 >>> 8 = 0 := by
    refine UInt32.toNat_inj.mp ?_
    rw [UInt32.toNat_shiftRight, UInt8.toNat_toUInt32]
    have hlt := b.toNat_lt
    change b.toNat >>> 8 = 0
    rw [Nat.shiftRight_eq_div_pow]
    omega
  unfold crcByte crcZero
  rw [UInt32.shiftRight_xor, hb, UInt32.xor_zero]

/-- Two runs over the same bytes differ by the run of zeros over their difference. -/
theorem foldl_crcByte_xor (data : List UInt8) (x y : UInt32) :
    data.foldl crcByte (x ^^^ y) = data.foldl crcByte x ^^^ Nat.repeat crcZero data.length y := by
  have hcomm : ∀ n (z : UInt32), Nat.repeat crcZero n (crcZero z) = Nat.repeat crcZero (n + 1) z := by
    intro n z
    induction n with
    | zero => rfl
    | succ n ih => rw [Nat.repeat, ih]; rfl
  induction data generalizing x y with
  | nil => rfl
  | cons b data ih =>
    have hstep : crcByte (x ^^^ y) b = crcByte x b ^^^ crcZero y := by
      rw [crcByte_eq, crcByte_eq, ← crcZero_xor]
      congr 1
      ac_rfl
    rw [List.foldl_cons, List.foldl_cons, hstep, ih, hcomm, List.length_cons]

/-! ## Nodes -/

/-- The checksum of a buffer behind another one. -/
theorem calcCrc32_append (a b : List UInt8) (seed : UInt32) :
    calcCrc32 (a ++ b) seed = calcCrc32 b (calcCrc32 a seed) := by
  unfold calcCrc32
  cases a with
  | nil => rfl
  | cons x a =>
    cases b with
    | nil => simp
    | cons y b => simp [List.foldl_append]

/-- The adjustment of a checksum to another seed. -/
theorem calcCrc32_adjust {data : List UInt8} (hdata : data ≠ []) (seed crc : UInt32) :
    calcCrc32 data seed ^^^ calcCrc32Null data.length (seed ^^^ crc) ^^^
      calcCrc32Null data.length 0 = calcCrc32 data crc := by
  have hlen : data.length ≠ 0 := fun h => hdata (List.length_eq_zero_iff.mp h)
  obtain ⟨run, hrun⟩ : ∃ run, run = Nat.repeat crcZero data.length := ⟨_, rfl⟩
  have hlin : ∀ x y, run (x ^^^ y) = run x ^^^ run y := by
    rw [hrun]
    exact repeat_xor crcZero_xor data.length
  unfold calcCrc32 calcCrc32Null
  rw [if_neg hlen, if_neg hlen, if_neg hlen, if_neg hlen, ← hrun]
  have hnot : ∀ x : UInt32, ~~~ x = x ^^^ ~~~ 0 := fun x => by simp
  -- The inversions of the two runs of zeros cancel, and what is left is linear.
  have hzeros : ~~~ run (~~~ (seed ^^^ crc)) ^^^ ~~~ run (~~~ 0) = run (seed ^^^ crc) := by
    rw [hnot (seed ^^^ crc), hlin, UInt32.not_xor, UInt32.xor_not, UInt32.not_not, UInt32.xor_assoc,
      UInt32.xor_self, UInt32.xor_zero]
  have hcrc : data.foldl crcByte (~~~ crc) =
      data.foldl crcByte (~~~ seed) ^^^ run (seed ^^^ crc) := by
    rw [hrun, ← foldl_crcByte_xor]
    congr 1
    rw [UInt32.not_xor, ← UInt32.xor_assoc, UInt32.xor_self, UInt32.zero_xor]
  rw [UInt32.xor_assoc, hzeros, UInt32.not_xor, ← hcrc]

/-- What is cached was computed for the same bytes: the range of the cache, when it is one of the
raw buffer, has the cached checksum for the cached seed. -/
def Raw.Cached (r : Raw) : Prop :=
  ∀ off len, 0 < len → off + len ≤ r.data.length → r.lastCrcOffset = (off, off + len) →
    r.lastCrcVal.2 = calcCrc32 ((r.data.drop off).take len) r.lastCrcVal.1

/-- The bytes of the raw buffers are the same. -/
def SameData (raws raws' : Raws) : Prop := ∀ i, (raws' i).data = (raws i).data

/-- The same bytes are in a node. -/
theorem SameData.bytes {raws raws' : Raws} (h : SameData raws raws') (p : PtrNode) :
    p.bytes raws' = p.bytes raws := by
  unfold PtrNode.bytes
  rw [h]

/-- A node goes into the checksum as its bytes do, and the caches stay right. -/
theorem crcNode_spec {s : CrcLoop} {node : PtrNode} (hcached : ∀ i, (s.raws i).Cached)
    (hfits : node.Fits s.raws) :
    (crcNode s node).crc = calcCrc32 (node.bytes s.raws) s.crc ∧
      SameData s.raws (crcNode s node).raws ∧ ∀ i, ((crcNode s node).raws i).Cached := by
  have hlen : (node.bytes s.raws).length = node.len := by
    unfold PtrNode.Fits at hfits
    simp only [PtrNode.bytes, List.length_take, List.length_drop]
    omega
  unfold crcNode
  split_ifs with hzero
  · have hnil : node.bytes s.raws = [] := List.length_eq_zero_iff.mp (hlen.trans hzero)
    rw [hnil]
    exact ⟨rfl, fun _ => rfl, hcached⟩
  · have hne : node.bytes s.raws ≠ [] := fun h => hzero (by rw [← hlen, h, List.length_nil])
    dsimp only
    cases hget : (s.raws node.raw).getCrc (node.off, node.off + node.len) with
    | some ccrc =>
      unfold Raw.getCrc at hget
      split_ifs at hget with hofs
      obtain rfl := Option.some.inj hget
      have hval : (s.raws node.raw).lastCrcVal.2 =
          calcCrc32 (node.bytes s.raws) (s.raws node.raw).lastCrcVal.1 :=
        hcached node.raw node.off node.len (Nat.pos_of_ne_zero hzero) hfits hofs
      dsimp only
      split_ifs with hseed
      · exact ⟨by rw [← hseed]; exact hval, fun _ => rfl, hcached⟩
      · refine ⟨?_, fun _ => rfl, hcached⟩
        dsimp only
        rw [hval, ← hlen]
        exact calcCrc32_adjust hne _ _
    | none =>
      refine ⟨rfl, fun i => ?_, fun i => ?_⟩
      · dsimp only
        by_cases hi : i = node.raw
        · rw [hi, Function.update_self]
          rfl
        · rw [Function.update_of_ne hi]
      · dsimp only
        by_cases hi : i = node.raw
        · -- What is cached now is what was just computed.
          rw [hi, Function.update_self]
          intro off len _ _ hofs
          obtain ⟨rfl, hto⟩ := Prod.mk.inj hofs
          obtain rfl : node.len = len := by omega
          rfl
        · rw [Function.update_of_ne hi]
          exact hcached i

/-- For every list of nodes, every seed and every caches that were computed for the same bytes,
`crc32c` is the checksum of the bytes of the list; it does not depend on how another list divides the
same bytes, or on what is cached there; and what is cached afterwards is right again. -/
theorem crc32c_eq_calcCrc32 (raws : Raws) (nodes : List PtrNode) (crc : UInt32)
    (hcached : ∀ i, (raws i).Cached) (hfits : ∀ node ∈ nodes, node.Fits raws) :
    (crc32c raws nodes crc).crc = calcCrc32 (flat raws nodes) crc ∧
      (∀ raws' nodes', (∀ i, (raws' i).Cached) → (∀ node ∈ nodes', PtrNode.Fits raws' node) →
        flat raws' nodes' = flat raws nodes →
        (crc32c raws' nodes' crc).crc = (crc32c raws nodes crc).crc) ∧
      SameData raws (crc32c raws nodes crc).raws ∧
      ∀ i, ((crc32c raws nodes crc).raws i).Cached := by
  have hloop : ∀ (ns : List PtrNode) (s : CrcLoop), (∀ i, (s.raws i).Cached) →
      (∀ node ∈ ns, node.Fits s.raws) →
      (ns.foldl crcNode s).crc = calcCrc32 (flat s.raws ns) s.crc ∧
        SameData s.raws (ns.foldl crcNode s).raws ∧ ∀ i, ((ns.foldl crcNode s).raws i).Cached := by
    intro ns
    induction ns with
    | nil => exact fun s hc _ => ⟨rfl, fun _ => rfl, hc⟩
    | cons node ns ih =>
      intro s hc hf
      obtain ⟨hcrc, hsame, hc'⟩ := crcNode_spec hc (hf node List.mem_cons_self)
      obtain ⟨hcrc', hsame', hc''⟩ := ih (crcNode s node) hc' fun p hp => by
        unfold PtrNode.Fits
        rw [hsame]
        exact hf p (List.mem_cons_of_mem _ hp)
      have hflat : flat (crcNode s node).raws ns = flat s.raws ns :=
        List.flatMap_congr fun p _ => hsame.bytes p
      refine ⟨?_, fun i => (hsame' i).trans (hsame i), hc''⟩
      calc ((node :: ns).foldl crcNode s).crc
          = calcCrc32 (flat (crcNode s node).raws ns) (crcNode s node).crc := hcrc'
        _ = calcCrc32 (flat s.raws ns) (calcCrc32 (node.bytes s.raws) s.crc) := by
            rw [hflat, hcrc]
        _ = calcCrc32 (flat s.raws (node :: ns)) s.crc := (calcCrc32_append _ _ _).symm
  obtain ⟨hcrc, hsame, hc⟩ := hloop nodes ⟨crc, raws, {}⟩ hcached hfits
  refine ⟨hcrc, fun raws' nodes' hc' hf' hflat => ?_, hsame, hc⟩
  calc (crc32c raws' nodes' crc).crc
      = calcCrc32 (flat raws' nodes') crc := (hloop nodes' ⟨crc, raws', {}⟩ hc' hf').1
    _ = calcCrc32 (flat raws nodes) crc := by rw [hflat]
    _ = (crc32c raws nodes crc).crc := hcrc.symm

/-- Four bytes, of which the first two were summed with the seed 5. -/
def summedHead : Raws := fun _ => ⟨[1, 2, 3, 4], (0, 2), (5, calcCrc32 [1, 2] 5)⟩

/-- The checksum of two segments, with another seed: the first is adjusted, the second computed. -/
theorem crc32c_eq_calcCrc32_summedHead :
    (crc32c summedHead [⟨0, 0, 2⟩, ⟨0, 2, 2⟩] 7).crc = calcCrc32 [1, 2, 3, 4] 7 := by
  refine (crc32c_eq_calcCrc32 summedHead [⟨0, 0, 2⟩, ⟨0, 2, 2⟩] 7 (fun i off len _ _ hofs => ?_)
    ?_).1
  · obtain ⟨rfl, hto⟩ := Prod.mk.inj hofs
    obtain rfl : len = 2 := by omega
    rfl
  · simp [PtrNode.Fits, summedHead]

end CxxLab.Common
