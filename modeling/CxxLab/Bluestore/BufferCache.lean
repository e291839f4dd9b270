import CxxLab.Lib.SortedParts

/-!
# The buffer cache

`bluestore/buffer_cache.cc`: a `BufferSpace` has the cached buffers of one blob, by their offsets,
and the list of those whose write is not finished. All spaces share one `BufferCache`, whose list
has the buffers of all of them, the last one used in front, and which drops clean buffers from the
back when there are too many bytes. `Sound` says what the lists have, `Counts` what the counter has,
and `Shrunk` what the calls do to a space that bring no buffer.

A buffer is named by its space and its offset, where the code has pointers. Every call is made with
a cache, as `bluestore.cc` makes it.
-/

namespace CxxLab.Bluestore

/-- `Buffer`. -/
structure Buffer where
  /-- The state: `STATE_WRITING` or `STATE_CLEAN`. -/
  writing : Bool
  /-- `FLAG_NOCACHE`. -/
  nocache : Bool
  /-- The transaction that writes it. -/
  seq : ℕ
  /-- Where it begins in the blob. -/
  offset : ℕ
  /-- How much of its data counts. -/
  length : ℕ
  /-- The bytes. -/
  data : List UInt8
  deriving DecidableEq, Repr

/-- The end of a range, in 32 bits. -/
def rangeEnd (offset length : ℕ) : ℕ := (offset + length) % 2 ^ 32

/-- The loop of `_discard`: what stays in the map, and what is taken out. -/
def discardLoop (offset stop : ℕ) : List Buffer → List Buffer × List Buffer
  | [] => ([], [])
  | b :: bs =>
    if stop ≤ b.offset then (b :: bs, [])
    else if rangeEnd b.offset b.length ≤ offset then
      (b :: (discardLoop offset stop bs).1, (discardLoop offset stop bs).2)
    else if b.offset < offset then
      -- Only the head stays, also when the buffer goes on behind the range.
      ({ b with length := offset - b.offset } :: (discardLoop offset stop bs).1,
        (discardLoop offset stop bs).2)
    else ((discardLoop offset stop bs).1, b :: (discardLoop offset stop bs).2)

/-- What stays has its offset. -/
theorem offsets_discardLoop (offset stop : ℕ) (bs : List Buffer) :
    ((discardLoop offset stop bs).1.map Buffer.offset).Sublist (bs.map Buffer.offset) := by
  induction bs with
  | nil => exact List.Sublist.refl _
  | cons b bs ih =>
    unfold discardLoop
    split_ifs
    · exact List.Sublist.refl _
    · exact ih.cons_cons _
    · exact ih.cons_cons _
    · exact ih.cons _

/-- `BufferSpace`. -/
structure BufferSpace where
  /-- `buffer_map_`. -/
  buffers : SortedList Buffer.offset := .empty
  /-- `writing_`, as offsets. -/
  writing : List ℕ := []

/-- The cache and the spaces that share it. -/
structure BufferCache (σ : Type) where
  /-- The spaces. -/
  spaces : σ → BufferSpace
  /-- `max_bytes_`. -/
  maxBytes : UInt64
  /-- `cur_bytes_`. -/
  curBytes : UInt64
  /-- `lru_`, from the front. -/
  lru : List (σ × ℕ)
  /-- `hit_bytes_`. -/
  hitBytes : UInt64
  /-- `miss_bytes_`. -/
  missBytes : UInt64

namespace BufferSpace

/-- The entry of `buffer_map_` at an offset. -/
def find (sp : BufferSpace) (offset : ℕ) : Option Buffer :=
  sp.buffers.toList.find? fun b => b.offset = offset

/-- `buffer_map_` behind `_discard`. -/
def discarded (sp : BufferSpace) (offset stop : ℕ) : SortedList Buffer.offset :=
  ⟨(discardLoop offset stop sp.buffers.toList).1, List.pairwise_map.mp
    ((List.pairwise_map.mpr sp.buffers.sorted).sublist (offsets_discardLoop _ _ _))⟩

/-- The buffer that `read` looks at: the last one before the offset when it reaches over it, and
else the first one from there on. -/
def candidate (sp : BufferSpace) (offset : ℕ) : Option Buffer :=
  match sp.buffers.before offset with
  | none => sp.buffers.lowerBound offset
  | some prev =>
    if offset < rangeEnd prev.offset prev.length then some prev else sp.buffers.lowerBound offset

end BufferSpace

namespace BufferCache

variable {σ : Type} [DecidableEq σ]

/-- A cache without buffers. -/
def empty (maxBytes : UInt64) : BufferCache σ where
  spaces _ := {}
  maxBytes := maxBytes
  curBytes := 0
  lru := []
  hitBytes := 0
  missBytes := 0

/-- A buffer by its name. -/
def find (c : BufferCache σ) (p : σ × ℕ) : Option Buffer := (c.spaces p.1).find p.2

/-- A space changes. -/
def setSpace (c : BufferCache σ) (s : σ) (sp : BufferSpace) : BufferCache σ :=
  { c with spaces := Function.update c.spaces s sp }

/-! ## The list of the buffers -/

/-- `add`. -/
def add (c : BufferCache σ) (s : σ) (b : Buffer) : BufferCache σ :=
  { c with lru := (s, b.offset) :: c.lru, curBytes := c.curBytes + UInt64.ofNat b.length }

/-- `rm`. -/
def rm (c : BufferCache σ) (s : σ) (b : Buffer) : BufferCache σ :=
  { c with lru := c.lru.erase (s, b.offset), curBytes := c.curBytes - UInt64.ofNat b.length }

/-- `touch`. -/
def touch (c : BufferCache σ) (p : σ × ℕ) : BufferCache σ := { c with lru := p :: c.lru.erase p }

/-- The loop of `trim`, with the number of buffers that were skipped since the last one went.
`trimLoop_bounded`: the rounds that `trim` gives it are enough. -/
def trimLoop : ℕ → ℕ → BufferCache σ → BufferCache σ
  | 0, _, c => c
  | rounds + 1, skipped, c =>
    match c.lru.getLast? with
    | none => c
    | some p =>
      if c.maxBytes < c.curBytes ∧ skipped < c.lru.length then
        match c.find p with
        | none => c
        | some b =>
          if b.writing then
            -- It goes to the front.
            trimLoop rounds (skipped + 1) { c with lru := p :: c.lru.dropLast }
          else
            trimLoop rounds 0 { c.setSpace p.1
                { c.spaces p.1 with buffers := (c.spaces p.1).buffers.remove p.2 } with
              lru := c.lru.dropLast
              curBytes := c.curBytes - UInt64.ofNat b.length }
      else c

/-- `trim`. -/
def trim (c : BufferCache σ) : BufferCache σ :=
  trimLoop (c.lru.length * c.lru.length + c.lru.length + 1) 0 c

/-- `set_max_bytes`. -/
def setMaxBytes (c : BufferCache σ) (max : UInt64) : BufferCache σ :=
  { c with maxBytes := max }.trim

/-- One round of `flush`, on the last buffer of the list. -/
def flushOne (c : BufferCache σ) (p : σ × ℕ) : BufferCache σ :=
  match c.find p with
  | none => c
  | some b =>
    { c.setSpace p.1
        { buffers := (c.spaces p.1).buffers.remove p.2
          writing := if b.writing then (c.spaces p.1).writing.filter (· ≠ p.2)
            else (c.spaces p.1).writing } with
      lru := c.lru.dropLast
      curBytes := c.curBytes - UInt64.ofNat b.length }

/-- `flush`: from the back, until there is nothing left. -/
def flush (c : BufferCache σ) : BufferCache σ := c.lru.reverse.foldl flushOne c

/-! ## The calls of a space -/

/-- `_discard`. -/
def discardRange (c : BufferCache σ) (s : σ) (offset length : ℕ) : BufferCache σ :=
  let sp := c.spaces s
  let stop := rangeEnd offset length
  let gone := (discardLoop offset stop sp.buffers.toList).2
  gone.foldl (fun c b => c.rm s b) (c.setSpace s
    { buffers := sp.discarded offset stop
      writing := gone.foldl
        (fun w b => if b.writing then w.filter (· ≠ b.offset) else w) sp.writing })

/-- `write`. -/
def write (c : BufferCache σ) (s : σ) (seq offset : ℕ) (bl : List UInt8) (nocache : Bool) :
    BufferCache σ :=
  let c := c.discardRange s offset bl.length
  let b : Buffer := ⟨true, nocache, seq, offset, bl.length, bl⟩
  ((c.setSpace s { buffers := (c.spaces s).buffers.set b
                   writing := (c.spaces s).writing ++ [offset] }).add s b).trim

/-- `did_read`. -/
def didRead (c : BufferCache σ) (s : σ) (offset : ℕ) (bl : List UInt8) : BufferCache σ :=
  let c := c.discardRange s offset bl.length
  let b : Buffer := ⟨false, false, 0, offset, bl.length, bl⟩
  ((c.setSpace s { c.spaces s with buffers := (c.spaces s).buffers.set b }).add s b).trim

/-- One round of `finish_write`. -/
def finishOne (s : σ) (seq : ℕ) (c : BufferCache σ) (offset : ℕ) : BufferCache σ :=
  match c.find (s, offset) with
  | none => c
  | some b =>
    if b.seq ≠ seq then c
    else
      let sp := { c.spaces s with writing := (c.spaces s).writing.erase offset }
      if b.nocache then (c.rm s b).setSpace s { sp with buffers := sp.buffers.remove offset }
      else ((c.setSpace s { sp with buffers := sp.buffers.set { b with writing := false } }).touch
        (s, offset)).trim

/-- `finish_write`. -/
def finishWrite (c : BufferCache σ) (s : σ) (seq : ℕ) : BufferCache σ :=
  (c.spaces s).writing.foldl (finishOne s seq) c

/-- `read`: the bytes, or `none`. -/
def read (c : BufferCache σ) (s : σ) (offset length : ℕ) : Option (List UInt8) × BufferCache σ :=
  let miss := (none, { c with missBytes := c.missBytes + UInt64.ofNat length })
  match (c.spaces s).candidate offset with
  | none => miss
  | some b =>
    if offset < b.offset then miss
    else if rangeEnd b.offset b.length < rangeEnd offset length then miss
    else
      (some ((b.data.drop (offset - b.offset)).take length),
        if b.writing then c
        else { c.touch (s, b.offset) with hitBytes := c.hitBytes + UInt64.ofNat length })

/-- `clear`. -/
def clear (c : BufferCache σ) (s : σ) : BufferCache σ :=
  (c.spaces s).buffers.toList.foldl (fun c b => c.rm s b) (c.setSpace s {})

/-! ## Runs -/

/-- A call. -/
inductive Call (σ : Type) where
  /-- `BufferSpace::write`. -/
  | write (s : σ) (seq offset : ℕ) (bl : List UInt8) (nocache : Bool)
  /-- `BufferSpace::finish_write`. -/
  | finishWrite (s : σ) (seq : ℕ)
  /-- `BufferSpace::did_read`. -/
  | didRead (s : σ) (offset : ℕ) (bl : List UInt8)
  /-- `BufferSpace::read`. -/
  | read (s : σ) (offset length : ℕ)
  /-- `BufferSpace::discard`. -/
  | discard (s : σ) (offset length : ℕ)
  /-- `BufferSpace::clear`. -/
  | clear (s : σ)
  /-- `BufferCache::set_max_bytes`. -/
  | setMaxBytes (max : UInt64)
  /-- `BufferCache::flush`. -/
  | flush

/-- One call. -/
def call (c : BufferCache σ) : Call σ → BufferCache σ
  | .write s seq offset bl nocache => c.write s seq offset bl nocache
  | .finishWrite s seq => c.finishWrite s seq
  | .didRead s offset bl => c.didRead s offset bl
  | .read s offset length => (c.read s offset length).2
  | .discard s offset length => c.discardRange s offset length
  | .clear s => c.clear s
  | .setMaxBytes max => c.setMaxBytes max
  | .flush => c.flush

/-- The ranges are ranges of a blob, and no buffer is empty: `_buffer_cache_write` makes no empty
one. -/
def Call.Fits : Call σ → Prop
  | .write _ _ offset bl _ => 0 < bl.length ∧ offset + bl.length < 2 ^ 32
  | .didRead _ offset bl => 0 < bl.length ∧ offset + bl.length < 2 ^ 32
  | .read _ offset length => offset + length < 2 ^ 32
  | .discard _ offset length => offset + length < 2 ^ 32
  | _ => True

end BufferCache

/-! ## A space -/

/-- What `_discard` makes of a buffer. -/
def discardOne (offset stop : ℕ) (b : Buffer) : Option Buffer :=
  if stop ≤ b.offset ∨ b.offset + b.length ≤ offset then some b
  else if b.offset < offset then some { b with length := offset - b.offset }
  else none

/-- The end of a range that fits. -/
theorem rangeEnd_of_lt {offset length : ℕ} (h : offset + length < 2 ^ 32) :
    rangeEnd offset length = offset + length := Nat.mod_eq_of_lt h

/-- The loop takes each buffer by itself: behind the first one at the end of the range there is
nothing to do. -/
theorem discardLoop_eq (offset stop : ℕ) {bs : List Buffer}
    (hfits : ∀ b ∈ bs, b.offset + b.length < 2 ^ 32)
    (hsorted : bs.Pairwise fun a b => a.offset < b.offset) :
    discardLoop offset stop bs = (bs.filterMap (discardOne offset stop),
      bs.filter fun b => discardOne offset stop b = none) := by
  induction bs with
  | nil => rfl
  | cons b bs ih =>
    obtain ⟨hb, hbs⟩ := List.pairwise_cons.mp hsorted
    have ih := ih (fun c hc => hfits c (List.mem_cons_of_mem _ hc)) hbs
    have hend := rangeEnd_of_lt (hfits b List.mem_cons_self)
    rw [discardLoop, hend, ih]
    by_cases hstop : stop ≤ b.offset
    · -- The loop ends here.
      have hkept : ∀ c ∈ b :: bs, discardOne offset stop c = some c := by
        intro c hc
        rcases List.mem_cons.mp hc with rfl | hc
        · exact if_pos (.inl hstop)
        · exact if_pos (.inl (hstop.trans (hb c hc).le))
      rw [if_pos hstop, List.filterMap_congr hkept, List.filterMap_some,
        List.filter_eq_nil_iff.mpr fun c hc => by simp [hkept c hc]]
    · rw [if_neg hstop]
      by_cases hbefore : b.offset + b.length ≤ offset
      · have hone : discardOne offset stop b = some b := if_pos (.inr hbefore)
        rw [if_pos hbefore, List.filterMap_cons_some hone, List.filter_cons_of_neg (by simp [hone])]
      · rw [if_neg hbefore]
        have hnot : ¬(stop ≤ b.offset ∨ b.offset + b.length ≤ offset) := not_or.mpr ⟨hstop, hbefore⟩
        by_cases hhead : b.offset < offset
        · have hone : discardOne offset stop b = some { b with length := offset - b.offset } := by
            rw [discardOne, if_neg hnot, if_pos hhead]
          rw [if_pos hhead, List.filterMap_cons_some hone,
            List.filter_cons_of_neg (by simp [hone])]
        · have hone : discardOne offset stop b = none := by
            rw [discardOne, if_neg hnot, if_neg hhead]
          rw [if_neg hhead, List.filterMap_cons_none hone, List.filter_cons_of_pos (by simp [hone])]

namespace BufferSpace

/-- The buffers of a space lie one behind the other, and `writing_` has those that are written. -/
structure Good (sp : BufferSpace) : Prop where
  /-- The buffers are not empty, and their data is there. -/
  fits : ∀ b ∈ sp.buffers.toList,
    0 < b.length ∧ b.offset + b.length < 2 ^ 32 ∧ b.length ≤ b.data.length
  /-- They do not overlap. -/
  apart : ∀ a ∈ sp.buffers.toList, ∀ b ∈ sp.buffers.toList, a.offset < b.offset →
    a.offset + a.length ≤ b.offset
  /-- No buffer is in `writing_` twice. -/
  nodup : sp.writing.Nodup
  /-- `writing_` has the buffers that are written. -/
  mem_writing : ∀ off, off ∈ sp.writing ↔ ∃ b ∈ sp.buffers.toList, b.offset = off ∧ b.writing = true

variable {sp : BufferSpace} {b b' : Buffer} {off len : ℕ}

/-- A buffer is found under its offset. -/
@[simp] theorem find_eq_some_iff :
    sp.find off = some b ↔ b ∈ sp.buffers.toList ∧ b.offset = off := by
  unfold find
  constructor
  · intro hf
    exact ⟨List.mem_of_find?_eq_some hf, by simpa using List.find?_some hf⟩
  · rintro ⟨hb, rfl⟩
    cases hf : sp.buffers.toList.find? fun c => c.offset = b.offset with
    | none => exact absurd (List.find?_eq_none.mp hf b hb) (by simp)
    | some c =>
      have hc : c.offset = b.offset := by simpa using List.find?_some hf
      rw [SortedList.eq_of_key_eq (List.mem_of_find?_eq_some hf) hb hc]

/-- A buffer that reaches over an offset is the one that `read` looks at. -/
theorem Good.candidate_of_mem (h : sp.Good) (hb : b ∈ sp.buffers.toList) (hle : b.offset ≤ off)
    (hlt : off < b.offset + b.length) : sp.candidate off = some b := by
  unfold candidate
  have hfits := h.fits b hb
  rcases hle.lt_or_eq with hbefore | rfl
  · -- Nothing begins between the buffer and the offset.
    cases hprev : sp.buffers.before off with
    | none => exact absurd (SortedList.before_eq_none hprev b hb) (by omega)
    | some prev =>
      obtain ⟨hprev, hprevlt, hall⟩ := SortedList.before_eq_some hprev
      have hsame : prev.offset = b.offset := by
        have := hall b hb hbefore
        by_contra hne
        have := h.apart b hb prev hprev (by omega)
        omega
      obtain rfl := SortedList.eq_of_key_eq hprev hb hsame
      simp only [rangeEnd_of_lt hfits.2.1]
      exact if_pos hlt
  · have hnext : sp.buffers.lowerBound b.offset = some b := by
      obtain ⟨pre, post, hl, hpre, hpost⟩ := sp.buffers.exists_parts b.offset
      rw [SortedList.lowerBound_of_parts hl hpre hpost]
      have hin : b ∈ post := by
        rw [hl, List.mem_append] at hb
        exact hb.resolve_left fun hb => absurd (hpre b hb) (lt_irrefl _)
      cases post with
      | nil => cases hin
      | cons c post =>
        rcases List.mem_cons.mp hin with rfl | hin
        · rfl
        · have := SortedList.lt_of_parts_cons hl hin
          have := hpost c List.mem_cons_self
          omega
    cases hprev : sp.buffers.before b.offset with
    | none => exact hnext
    | some prev =>
      obtain ⟨hprev, hprevlt, -⟩ := SortedList.before_eq_some hprev
      have := h.apart prev hprev b hb hprevlt
      simp only [rangeEnd_of_lt (h.fits prev hprev).2.1]
      rw [if_neg (by omega)]
      exact hnext

/-- What `read` looks at is a buffer. -/
theorem mem_of_candidate (h : sp.candidate off = some b) : b ∈ sp.buffers.toList := by
  have hlower : sp.buffers.lowerBound off = some b → b ∈ sp.buffers.toList :=
    fun h => List.mem_of_find?_eq_some h
  unfold candidate at h
  cases hprev : sp.buffers.before off with
  | none =>
    rw [hprev] at h
    exact hlower h
  | some prev =>
    rw [hprev] at h
    dsimp only at h
    split_ifs at h
    · obtain rfl := Option.some.inj h
      exact (SortedList.before_eq_some hprev).1
    · exact hlower h

end BufferSpace

namespace BufferCache

variable {σ : Type} [DecidableEq σ] {c c' c'' : BufferCache σ} {s : σ} {b b' : Buffer} {n : ℕ}

/-! ## What the lists have -/

/-- A buffer is in a space. -/
def Has (c : BufferCache σ) (s : σ) (b : Buffer) : Prop := b ∈ (c.spaces s).buffers.toList

/-- The spaces are good, and the list has each of their buffers once and no other. -/
structure Sound (c : BufferCache σ) : Prop where
  /-- The spaces. -/
  good : ∀ s, (c.spaces s).Good
  /-- No buffer is in the list twice. -/
  nodup : c.lru.Nodup
  /-- The list has the buffers of the spaces. -/
  mem_lru : ∀ s off, (s, off) ∈ c.lru ↔ ∃ b, c.Has s b ∧ b.offset = off

/-- The bytes of the buffers in the list. -/
def bytes (c : BufferCache σ) : ℕ := (c.lru.map fun p => (c.find p).elim 0 Buffer.length).sum

/-- The bytes of a space's buffers. -/
def spaceBytes (c : BufferCache σ) (s : σ) : ℕ :=
  ((c.spaces s).buffers.toList.map Buffer.length).sum

/-- The counter has `n` bytes more than the buffers. -/
def Counts (c : BufferCache σ) (n : ℕ) : Prop := c.curBytes = UInt64.ofNat (c.bytes + n)

omit [DecidableEq σ] in
@[simp] theorem find_eq_some_iff {p : σ × ℕ} :
    c.find p = some b ↔ c.Has p.1 b ∧ b.offset = p.2 := BufferSpace.find_eq_some_iff

omit [DecidableEq σ] in
/-- The buffers of a space are in the list. -/
theorem Sound.mem_of_has (h : Sound c) (hb : c.Has s b) : (s, b.offset) ∈ c.lru :=
  (h.mem_lru s _).mpr ⟨b, hb, rfl⟩

omit [DecidableEq σ] in
/-- A name in the list has its buffer. -/
theorem Sound.exists_find (h : Sound c) {p : σ × ℕ} (hp : p ∈ c.lru) : ∃ b, c.find p = some b := by
  obtain ⟨b, hb, hoff⟩ := (h.mem_lru p.1 p.2).mp hp
  exact ⟨b, find_eq_some_iff.mpr ⟨hb, hoff⟩⟩

/-- The names of a space in the list are those of its buffers. -/
theorem Sound.lru_perm (h : Sound c) (s : σ) : (c.lru.filter fun p => p.1 = s).Perm
    ((c.spaces s).buffers.toList.map fun b => (s, b.offset)) := by
  have hnames : ((c.spaces s).buffers.toList.map fun b => (s, b.offset)).Nodup := by
    refine List.Pairwise.map _ (fun a b hab => ?_) (c.spaces s).buffers.sorted
    exact fun heq => absurd (Prod.mk.inj heq).2 hab.ne
  rw [List.perm_ext_iff_of_nodup (h.nodup.filter _) hnames]
  rintro ⟨t, off⟩
  rw [List.mem_filter, List.mem_map, h.mem_lru]
  constructor
  · rintro ⟨⟨b, hb, rfl⟩, ht⟩
    obtain rfl : t = s := by simpa using ht
    exact ⟨b, hb, rfl⟩
  · rintro ⟨b, hb, heq⟩
    obtain ⟨rfl, rfl⟩ := Prod.mk.inj heq
    exact ⟨⟨b, hb, rfl⟩, by simp⟩

/-- The bytes of the list are those of one space and those of the others. -/
theorem Sound.bytes_eq (h : Sound c) (s : σ) : c.bytes = c.spaceBytes s +
    ((c.lru.filter fun p => ¬p.1 = s).map fun p => (c.find p).elim 0 Buffer.length).sum := by
  have hmine : ((c.lru.filter fun p => p.1 = s).map fun p => (c.find p).elim 0 Buffer.length).sum =
      c.spaceBytes s := by
    rw [((h.lru_perm s).map _).sum_eq, List.map_map, spaceBytes]
    refine congrArg List.sum (List.map_congr_left fun b hb => ?_)
    have hfind : c.find (s, b.offset) = some b := find_eq_some_iff.mpr ⟨hb, rfl⟩
    rw [Function.comp_apply, hfind]
    rfl
  have hsplit := ((List.filter_append_perm (fun p : σ × ℕ => decide (p.1 = s)) c.lru).map
    fun p => (c.find p).elim 0 Buffer.length).sum_eq
  rw [List.map_append, List.sum_append, hmine] at hsplit
  rw [bytes, ← hsplit]
  simp only [decide_not]

/-- When one space changes, the bytes change by what it has. -/
theorem Sound.bytes_add (h : Sound c) (h' : Sound c') (hsame : ∀ t ≠ s, c'.spaces t = c.spaces t) :
    c'.bytes + c.spaceBytes s = c.bytes + c'.spaceBytes s := by
  have hperm : (c'.lru.filter fun p => ¬p.1 = s).Perm (c.lru.filter fun p => ¬p.1 = s) := by
    rw [List.perm_ext_iff_of_nodup (h'.nodup.filter _) (h.nodup.filter _)]
    rintro ⟨t, off⟩
    simp only [List.mem_filter, h.mem_lru, h'.mem_lru, Has]
    refine and_congr_left fun ht => ?_
    rw [hsame t (by simpa using ht)]
  have hrest : ((c'.lru.filter fun p => ¬p.1 = s).map
      fun p => (c'.find p).elim 0 Buffer.length).sum =
      ((c.lru.filter fun p => ¬p.1 = s).map fun p => (c.find p).elim 0 Buffer.length).sum := by
    rw [(hperm.map _).sum_eq]
    refine congrArg List.sum (List.map_congr_left fun p hp => ?_)
    have hp : ¬p.1 = s := by simpa using (List.mem_filter.mp hp).2
    rw [find, find, hsame _ hp]
  rw [h.bytes_eq s, h'.bytes_eq s, hrest]
  omega

/-! ## A space gets smaller -/

/-- What becomes of the buffers of a space: some go, and others lose bytes at their end. -/
structure Shrinks (f : Buffer → Option Buffer) : Prop where
  /-- A buffer stays where it is. -/
  offset : ∀ b b', f b = some b' → b'.offset = b.offset
  /-- It has no other bytes. -/
  data : ∀ b b', f b = some b' → b'.data = b.data
  /-- It has not more of them. -/
  length : ∀ b b', 0 < b.length → f b = some b' → 0 < b'.length ∧ b'.length ≤ b.length
  /-- No write begins. -/
  writing : ∀ b b', f b = some b' → b'.writing = true → b.writing = true

/-- What the buffers lose that stay. -/
def lost (f : Buffer → Option Buffer) (bs : List Buffer) : ℕ :=
  (bs.map fun b => (f b).elim 0 fun b' => b.length - b'.length).sum

/-- The buffers of the space `s` become what `f` says, and the lists and the counter follow, but for
the bytes that are lost. -/
structure Shrunk (f : Buffer → Option Buffer) (s : σ) (c c' : BufferCache σ) : Prop where
  /-- The other spaces. -/
  spaces : ∀ t ≠ s, c'.spaces t = c.spaces t
  /-- The buffers of this one. -/
  has : ∀ b', c'.Has s b' ↔ ∃ b, c.Has s b ∧ f b = some b'
  /-- Its writes. -/
  writing : ∀ off, off ∈ (c'.spaces s).writing ↔
    off ∈ (c.spaces s).writing ∧ ∃ b', c'.Has s b' ∧ b'.offset = off ∧ b'.writing = true
  /-- No write is there twice. -/
  writing_nodup : (c'.spaces s).writing.Nodup
  /-- The list. -/
  lru_nodup : c'.lru.Nodup
  /-- The names in the list. -/
  mem_lru : ∀ p, p ∈ c'.lru ↔ p ∈ c.lru ∧ (p.1 = s → ∃ b', c'.Has s b' ∧ b'.offset = p.2)
  /-- The counter. -/
  curBytes : c'.curBytes + UInt64.ofNat
    (((c.spaces s).buffers.toList.filter fun b => f b = none).map Buffer.length).sum = c.curBytes
  /-- The limit. -/
  maxBytes : c'.maxBytes = c.maxBytes

/-- A space whose buffers shrink keeps the cache sound. -/
theorem Sound.shrunk (h : Sound c) {f : Buffer → Option Buffer} (hf : Shrinks f)
    (hc : Shrunk f s c c') : Sound c' where
  good t := by
    by_cases ht : t = s
    -- In the space itself the buffers are those of before, shorter.
    · subst ht
      have hgood := h.good t
      constructor
      case fits =>
        intro b' hb'
        obtain ⟨b, hb, hfb⟩ := (hc.has b').mp hb'
        have hfits := hgood.fits b hb
        have hlength := hf.length b b' hfits.1 hfb
        rw [hf.offset b b' hfb, hf.data b b' hfb]
        omega
      case apart =>
        intro a' ha' b' hb' hlt
        obtain ⟨a, ha, hfa⟩ := (hc.has a').mp ha'
        obtain ⟨b, hb, hfb⟩ := (hc.has b').mp hb'
        have hlength := hf.length a a' (hgood.fits a ha).1 hfa
        rw [hf.offset a a' hfa, hf.offset b b' hfb] at hlt ⊢
        have := hgood.apart a ha b hb hlt
        omega
      case nodup => exact hc.writing_nodup
      case mem_writing =>
        intro off
        rw [hc.writing]
        refine and_iff_right_of_imp ?_
        rintro ⟨b', hb', hoff, hwriting⟩
        obtain ⟨b, hb, hfb⟩ := (hc.has b').mp hb'
        exact (hgood.mem_writing off).mpr ⟨b, hb, by rw [← hoff, hf.offset b b' hfb],
          hf.writing b b' hfb hwriting⟩
    · rw [hc.spaces t ht]
      exact h.good t
  nodup := hc.lru_nodup
  mem_lru t off := by
    rw [hc.mem_lru, h.mem_lru]
    by_cases ht : t = s
    · subst ht
      constructor
      · rintro ⟨-, hb'⟩
        exact hb' rfl
      · rintro ⟨b', hb', hoff⟩
        obtain ⟨b, hb, hfb⟩ := (hc.has b').mp hb'
        exact ⟨⟨b, hb, by rw [← hoff, hf.offset b b' hfb]⟩, fun _ => ⟨b', hb', hoff⟩⟩
    · simp [ht, Has, hc.spaces t ht]

/-- What the buffers have is what stays, what goes and what is lost. -/
theorem sum_shrinks {f : Buffer → Option Buffer} (hf : Shrinks f) {bs : List Buffer}
    (hpos : ∀ b ∈ bs, 0 < b.length) : (bs.map Buffer.length).sum =
      ((bs.filterMap f).map Buffer.length).sum +
        ((bs.filter fun b => f b = none).map Buffer.length).sum + lost f bs := by
  induction bs with
  | nil => rfl
  | cons b bs ih =>
    have ih := ih fun c hc => hpos c (List.mem_cons_of_mem _ hc)
    cases hb : f b with
    | none =>
      rw [List.filterMap_cons_none hb, List.filter_cons_of_pos (by simp [hb])]
      simp only [lost, List.map_cons, List.sum_cons, hb, Option.elim_none] at ih ⊢
      omega
    | some b' =>
      have := hf.length b b' (hpos b List.mem_cons_self) hb
      rw [List.filterMap_cons_some hb, List.filter_cons_of_neg (by simp [hb])]
      simp only [lost, List.map_cons, List.sum_cons, hb, Option.elim_some] at ih ⊢
      omega

omit [DecidableEq σ] in
/-- The buffers of the space are those that `f` leaves. -/
theorem Shrunk.buffers_perm {f : Buffer → Option Buffer} (hf : Shrinks f) (hc : Shrunk f s c c') :
    (c'.spaces s).buffers.toList.Perm ((c.spaces s).buffers.toList.filterMap f) := by
  have hnodup : ∀ {l : SortedList Buffer.offset}, l.toList.Nodup := fun {l} =>
    l.sorted.imp fun hab heq => absurd (congrArg Buffer.offset heq) hab.ne
  have hleft : ((c.spaces s).buffers.toList.filterMap f).Nodup := by
    refine List.Pairwise.filterMap f (fun a b hab a' ha' b' hb' => ?_) (c.spaces s).buffers.sorted
    rintro rfl
    have := hf.offset a a' ha'
    have := hf.offset b a' hb'
    omega
  rw [List.perm_ext_iff_of_nodup hnodup hleft]
  intro b'
  rw [List.mem_filterMap]
  exact hc.has b'

/-- The counter keeps what it has too much, and gets the bytes that are lost. -/
theorem Counts.shrunk (hn : c.Counts n) (h : Sound c) {f : Buffer → Option Buffer} (hf : Shrinks f)
    (hc : Shrunk f s c c') : c'.Counts (n + lost f (c.spaces s).buffers.toList) := by
  have hbytes := h.bytes_add (h.shrunk hf hc) hc.spaces
  have hleft : c'.spaceBytes s =
      (((c.spaces s).buffers.toList.filterMap f).map Buffer.length).sum :=
    ((hc.buffers_perm hf).map _).sum_eq
  have hsum := sum_shrinks hf fun b hb => ((h.good s).fits b hb).1
  have hcur := hc.curBytes
  obtain ⟨gone, hgone⟩ : ∃ gone, gone =
    (((c.spaces s).buffers.toList.filter fun b => f b = none).map Buffer.length).sum := ⟨_, rfl⟩
  rw [← hgone] at hcur hsum
  have hnat : c.bytes + n = c'.bytes + (n + lost f (c.spaces s).buffers.toList) + gone := by
    rw [← hleft] at hsum
    change c.spaceBytes s = _ at hsum
    omega
  rw [Counts, hnat, UInt64.ofNat_add] at hn
  rw [hn] at hcur
  exact (UInt64.add_left_inj _).mp hcur

/-! ## What the calls do to a space -/

/-- The buffer at an offset goes. -/
def dropAt (off : ℕ) (b : Buffer) : Option Buffer := if b.offset = off then none else some b

/-- The write of the buffer at an offset is finished. -/
def cleanAt (off : ℕ) (b : Buffer) : Option Buffer :=
  some (if b.offset = off then { b with writing := false } else b)

/-- What is discarded shrinks. -/
theorem shrinks_discardOne (offset stop : ℕ) : Shrinks (discardOne offset stop) := by
  have hcases : ∀ b b', discardOne offset stop b = some b' → b' = b ∨
      (b.offset < offset ∧ offset < b.offset + b.length ∧
        b' = { b with length := offset - b.offset }) := by
    intro b b' h
    unfold discardOne at h
    split_ifs at h with hout hhead
    · exact .inl (Option.some.inj h).symm
    · exact .inr ⟨hhead, by omega, (Option.some.inj h).symm⟩
  constructor
  case offset => exact fun b b' h => by rcases hcases b b' h with rfl | ⟨-, -, rfl⟩ <;> rfl
  case data => exact fun b b' h => by rcases hcases b b' h with rfl | ⟨-, -, rfl⟩ <;> rfl
  case length =>
    intro b b' hpos h
    rcases hcases b b' h with rfl | ⟨h1, h2, rfl⟩
    · exact ⟨hpos, le_rfl⟩
    · dsimp only
      omega
  case writing =>
    exact fun b b' h hw => by rcases hcases b b' h with rfl | ⟨-, -, rfl⟩ <;> exact hw

/-- So does a space that loses the buffer at an offset. -/
theorem shrinks_dropAt (off : ℕ) : Shrinks (dropAt off) := by
  have hsame : ∀ b b', dropAt off b = some b' → b' = b := by
    intro b b' h
    unfold dropAt at h
    split_ifs at h
    exact (Option.some.inj h).symm
  exact ⟨fun b b' h => by rw [hsame b b' h], fun b b' h => by rw [hsame b b' h],
    fun b b' hpos h => by rw [hsame b b' h]; exact ⟨hpos, le_rfl⟩,
    fun b b' h hw => by rw [← hsame b b' h]; exact hw⟩

/-- So does one that loses all buffers. -/
theorem shrinks_none : Shrinks fun _ => none := by
  constructor <;> intros <;> contradiction

/-- A buffer that is made clean keeps its bytes. -/
theorem shrinks_cleanAt (off : ℕ) : Shrinks (cleanAt off) := by
  have hcases : ∀ b b', cleanAt off b = some b' → b' = b ∨ b' = { b with writing := false } := by
    intro b b' h
    have h := Option.some.inj h
    split_ifs at h
    · exact .inr h.symm
    · exact .inl h.symm
  constructor
  case offset => exact fun b b' h => by rcases hcases b b' h with rfl | rfl <;> rfl
  case data => exact fun b b' h => by rcases hcases b b' h with rfl | rfl <;> rfl
  case length =>
    exact fun b b' hpos h => by rcases hcases b b' h with rfl | rfl <;> exact ⟨hpos, le_rfl⟩
  case writing =>
    intro b b' h hw
    rcases hcases b b' h with rfl | rfl
    · exact hw
    · cases hw

/-- `rm` of one buffer after the other. -/
theorem foldl_rm (gone : List Buffer) (c : BufferCache σ) :
    (gone.foldl (fun c b => c.rm s b) c).spaces = c.spaces ∧
      (gone.foldl (fun c b => c.rm s b) c).maxBytes = c.maxBytes ∧
      (gone.foldl (fun c b => c.rm s b) c).lru = c.lru.diff (gone.map fun b => (s, b.offset)) ∧
      (gone.foldl (fun c b => c.rm s b) c).curBytes +
        UInt64.ofNat (gone.map Buffer.length).sum = c.curBytes := by
  induction gone generalizing c with
  | nil => exact ⟨rfl, rfl, rfl, by simp⟩
  | cons b gone ih =>
    obtain ⟨hspaces, hmax, hlru, hcur⟩ := ih (c.rm s b)
    refine ⟨hspaces, hmax, ?_, ?_⟩
    · rw [List.foldl_cons, hlru, List.map_cons, List.diff_cons]
      rfl
    · calc
        _ = (gone.foldl (fun c b => c.rm s b) (c.rm s b)).curBytes +
            UInt64.ofNat (gone.map Buffer.length).sum + UInt64.ofNat b.length := by
          rw [List.map_cons, List.sum_cons, Nat.add_comm b.length, UInt64.ofNat_add,
            UInt64.add_assoc]
          rfl
        _ = c.curBytes := by rw [hcur]; exact UInt64.sub_add_cancel _ _

/-- A space that becomes what `f` says, with the buffers that go taken from the list. -/
theorem Shrunk.of_gone (h : Sound c) {f : Buffer → Option Buffer} (hf : Shrinks f)
    {sp : BufferSpace} (gone : List Buffer)
    (hbuffers : ∀ b', b' ∈ sp.buffers.toList ↔ ∃ b, c.Has s b ∧ f b = some b')
    (hwriting : ∀ off, off ∈ sp.writing ↔ off ∈ (c.spaces s).writing ∧
      ∃ b' ∈ sp.buffers.toList, b'.offset = off ∧ b'.writing = true) (hnodup : sp.writing.Nodup)
    (hgone : gone.Perm ((c.spaces s).buffers.toList.filter fun b => f b = none)) :
    Shrunk f s c (gone.foldl (fun c b => c.rm s b) (c.setSpace s sp)) := by
  obtain ⟨hspaces, hmax, hlru, hcur⟩ := foldl_rm (s := s) gone (c.setSpace s sp)
  have hself : (gone.foldl (fun c b => c.rm s b) (c.setSpace s sp)).spaces s = sp := by
    rw [hspaces]
    exact Function.update_self _ _ _
  have hmem : ∀ b, b ∈ gone ↔ c.Has s b ∧ f b = none := fun b => by
    rw [hgone.mem_iff, List.mem_filter]
    simp [Has]
  constructor
  case spaces =>
    intro t ht
    rw [hspaces]
    exact Function.update_of_ne ht _ _
  case has => simpa only [Has, hself] using hbuffers
  case writing => simpa only [Has, hself] using hwriting
  case writing_nodup => rwa [hself]
  case lru_nodup =>
    rw [hlru]
    exact h.nodup.diff
  case mem_lru =>
    rintro ⟨t, off⟩
    have hlru : _ = c.lru.diff (gone.map fun b => (s, b.offset)) := hlru
    rw [hlru, h.nodup.mem_sdiff_iff]
    refine and_congr_right fun hin => ?_
    simp only [List.mem_map, Prod.mk.injEq, Has, hself]
    constructor
    · rintro hnot rfl
      obtain ⟨b, hb, hoff⟩ := (h.mem_lru t off).mp hin
      cases hfb : f b with
      | none => exact absurd ⟨b, (hmem b).mpr ⟨hb, hfb⟩, rfl, hoff⟩ hnot
      | some b' =>
        exact ⟨b', (hbuffers b').mpr ⟨b, hb, hfb⟩, by rw [hf.offset b b' hfb, hoff]⟩
    · rintro hstays ⟨b, hb, rfl, rfl⟩
      obtain ⟨hb, hfb⟩ := (hmem b).mp hb
      obtain ⟨b', hb', hoff⟩ := hstays rfl
      obtain ⟨a, ha, hfa⟩ := (hbuffers b').mp hb'
      -- The buffer that stays at the offset of one that goes is that one.
      obtain rfl := SortedList.eq_of_key_eq ha hb (by rw [← hf.offset a b' hfa, hoff])
      rw [hfb] at hfa
      cases hfa
  case curBytes => rw [← (hgone.map _).sum_eq]; exact hcur
  case maxBytes => exact hmax

/-- The writes that are left when buffers are taken from `writing_`. -/
theorem mem_foldl_writing {gone : List Buffer} {w : List ℕ} {off : ℕ} :
    off ∈ gone.foldl (fun w b => if b.writing then w.filter (· ≠ b.offset) else w) w ↔
      off ∈ w ∧ ∀ b ∈ gone, b.writing = true → b.offset ≠ off := by
  induction gone generalizing w with
  | nil => simp
  | cons b gone ih =>
    rw [List.foldl_cons, ih]
    split_ifs with hb
    · simp only [List.mem_filter, decide_eq_true_eq, List.forall_mem_cons, hb, ne_eq, true_imp_iff]
      tauto
    · simp only [List.forall_mem_cons, hb, Bool.false_eq_true, false_imp_iff, true_and]

/-- No buffer is listed twice after some are taken out. -/
theorem nodup_foldl_writing {gone : List Buffer} {w : List ℕ} (h : w.Nodup) :
    (gone.foldl (fun w b => if b.writing then w.filter (· ≠ b.offset) else w) w).Nodup := by
  induction gone generalizing w with
  | nil => exact h
  | cons b gone ih =>
    rw [List.foldl_cons]
    split_ifs
    · exact ih (h.filter _)
    · exact ih h

/-- `_discard`. -/
theorem discardRange_shrunk (h : Sound c) {offset length : ℕ} (hfits : offset + length < 2 ^ 32) :
    Shrunk (discardOne offset (offset + length)) s c (c.discardRange s offset length) := by
  have hf := shrinks_discardOne offset (offset + length)
  have hloop := discardLoop_eq offset (offset + length)
    (fun b hb => ((h.good s).fits b hb).2.1) (c.spaces s).buffers.sorted
  have hbuffers : ∀ b', b' ∈ ((c.spaces s).discarded offset (offset + length)).toList ↔
      ∃ b, c.Has s b ∧ discardOne offset (offset + length) b = some b' := by
    intro b'
    show b' ∈ (discardLoop offset (offset + length) (c.spaces s).buffers.toList).1 ↔ _
    rw [hloop, List.mem_filterMap]
    rfl
  unfold discardRange
  dsimp only
  rw [rangeEnd_of_lt hfits]
  refine Shrunk.of_gone h hf _ hbuffers (fun off => ?_) (nodup_foldl_writing (h.good s).nodup)
    (by rw [hloop])
  rw [mem_foldl_writing, hloop]
  refine and_congr_right fun hin => ?_
  obtain ⟨b, hb, rfl, hw⟩ := ((h.good s).mem_writing off).mp hin
  simp only [List.mem_filter, decide_eq_true_eq, and_imp]
  constructor
  · intro hall
    cases hone : discardOne offset (offset + length) b with
    | none => exact absurd rfl (hall b hb hone hw)
    | some b' =>
      refine ⟨b', (hbuffers b').mpr ⟨b, hb, hone⟩, hf.offset b b' hone, ?_⟩
      unfold discardOne at hone
      split_ifs at hone
      · exact Option.some.inj hone ▸ hw
      · exact Option.some.inj hone ▸ hw
  · rintro ⟨b', hb', hoff, -⟩ a ha hnone - heq
    obtain ⟨d, hd, hone⟩ := (hbuffers b').mp hb'
    obtain rfl := SortedList.eq_of_key_eq ha hd (by rw [heq, ← hoff, hf.offset d b' hone])
    rw [hnone] at hone
    cases hone

/-- `clear`. -/
theorem clear_shrunk (h : Sound c) : Shrunk (fun _ => none) s c (c.clear s) := by
  have hnone : ∀ b, b ∉ (SortedList.empty : SortedList Buffer.offset).toList :=
    fun b => List.not_mem_nil
  exact Shrunk.of_gone h shrinks_none _ (fun b' => by simp [hnone]) (fun off => by simp [hnone])
    List.nodup_nil (by simp)

omit [DecidableEq σ] in
/-- What is left when the buffer at an offset goes. -/
theorem mem_remove_iff {off : ℕ} (b' : Buffer) :
    b' ∈ ((c.spaces s).buffers.remove off).toList ↔
      ∃ b, c.Has s b ∧ dropAt off b = some b' := by
  rw [SortedList.mem_remove]
  constructor
  · rintro ⟨hb, hne⟩
    exact ⟨b', hb, if_neg hne⟩
  · rintro ⟨b, hb, hone⟩
    unfold dropAt at hone
    split_ifs at hone with hne
    obtain rfl := Option.some.inj hone
    exact ⟨hb, hne⟩

/-- A buffer goes, from the space, from its writes and from the list. -/
theorem dropped_shrunk (h : Sound c) (hb : c.Has s b) {w : List ℕ}
    (hw : ∀ off, off ∈ w ↔ off ∈ (c.spaces s).writing ∧ off ≠ b.offset) (hnodup : w.Nodup) :
    Shrunk (dropAt b.offset) s c
      ((c.setSpace s
        { buffers := (c.spaces s).buffers.remove b.offset, writing := w }).rm s b) := by
  refine Shrunk.of_gone h (shrinks_dropAt _) [b] mem_remove_iff (fun off => ?_) hnodup ?_
  · rw [hw]
    refine and_congr_right fun hin => ?_
    obtain ⟨a, ha, rfl, hwriting⟩ := ((h.good s).mem_writing off).mp hin
    simp only [SortedList.mem_remove]
    constructor
    · exact fun hne => ⟨a, ⟨ha, hne⟩, rfl, hwriting⟩
    · rintro ⟨d, ⟨-, hne⟩, hoff, -⟩
      exact hoff ▸ hne
  · have hnodup : ((c.spaces s).buffers.toList.filter fun a => dropAt b.offset a = none).Nodup :=
      ((c.spaces s).buffers.sorted.imp fun hab heq =>
        absurd (congrArg Buffer.offset heq) hab.ne).filter _
    rw [List.perm_ext_iff_of_nodup (List.nodup_singleton b) hnodup]
    intro a
    rw [List.mem_singleton, List.mem_filter]
    constructor
    · rintro rfl
      exact ⟨hb, by simp [dropAt]⟩
    · rintro ⟨ha, hnone⟩
      have hoff : a.offset = b.offset := by
        by_contra hne
        simp [dropAt, hne] at hnone
      exact SortedList.eq_of_key_eq ha hb hoff

/-- The last name of a list without doubles. -/
theorem erase_getLast {l : List (σ × ℕ)} {p : σ × ℕ} (h : l.Nodup) (hp : l.getLast? = some p) :
    l.erase p = l.dropLast := by
  obtain ⟨l, rfl⟩ := List.getLast?_eq_some_iff.mp hp
  have hnot : p ∉ l := fun hin =>
    (List.nodup_append.mp h).2.2 p hin p (List.mem_singleton_self p) rfl
  rw [List.erase_append_right _ hnot, List.erase_cons_head, List.append_nil, List.dropLast_concat]

end BufferCache

end CxxLab.Bluestore
