import CxxLab.Common.ObjectKeys

/-!
# Reading a key that may be damaged

`key_decode_object` takes a pointer into the key and moves it by the lengths of what it has read. It
looks at the length of the key only once, before the prefix; behind it, only the zero byte that ends
every `std::string` stops it. A pointer is the list of the bytes from it on, with that zero byte, and
a read where nothing is left is an overrun. `decode_safe_iff` says for which keys there is none and
what is accepted is the key of an object. A key has less than 2 GiB: a length fits an `int`.
-/

namespace CxxLab.Common.GhObject

open Codec

/-- Where decoding stops. -/
inductive Stop where
  /-- A byte behind the terminating zero is read. -/
  | overrun
  /-- An error is returned. -/
  | code (r : ℤ)
  deriving DecidableEq

/-- `decode_escaped`: the string, and the pointer to what ended it. -/
def decodeEscapedAt : Str → Except Stop (Str × Str)
  | [] => .error .overrun
  | c :: p =>
    if c = 0 ∨ c = 0x21 then .ok ([], c :: p)
    else if c = 0x23 ∨ c = 0x7e then
      match p with
      | [] => .error .overrun
      | h :: p =>
        match hexVal h with
        | none => .error (.code (-1))
        | some h =>
          match p with
          | [] => .error .overrun
          | l :: p =>
            match hexVal l with
            | none => .error (.code (-1))
            | some l => (decodeEscapedAt p).map fun r => (((h <<< 4) ||| l) :: r.1, r.2)
    else (decodeEscapedAt p).map fun r => (c :: r.1, r.2)

/-- A call of `decode_escaped`, with the code that is returned if it fails; then `p += r + 1`. -/
def readName (r : ℤ) (p : Str) : Except Stop (Str × Str) :=
  match decodeEscapedAt p with
  | .error .overrun => .error .overrun
  | .error (.code _) => .error (.code r)
  | .ok (s, p) => .ok (s, p.drop 1)

/-- `key_decode_u64`. -/
def keyDecodeU64 (p : Str) : Except Stop (UInt64 × Str) :=
  if p.length < 8 then .error .overrun else .ok (UInt64.ofNat (beNat (p.take 8)), p.drop 8)

/-- The suffix, and what is behind it. -/
def keyDecodeSuffixAt (o : GhObject) : Str → Except Stop GhObject
  | [] => .error .overrun
  | c :: p =>
    if c ≠ onodeKeySuffix then .error (.code (-7))
    else
      match p with
      | [] => .error .overrun
      | c :: _ => if c ≠ 0 then .error (.code (-8)) else .ok o

/-- The end of `key_decode_object`: the numbers behind the name, and the suffix. -/
def keyDecodeTailAt (o : GhObject) (p : Str) : Except Stop GhObject := do
  let (snap, p) ← keyDecodeU64 p
  let (generation, p) ← keyDecodeU64 p
  keyDecodeSuffixAt { o with snap := snap, generation := generation } p

/-- The object that has what `key_decode_prefix` reads. -/
def decodedPrefix (key : Str) : GhObject where
  shardId := key.headD 0 - 0x80
  pool := (UInt64.ofNat (beNat ((key.drop 1).take 8)) - 0x8000000000000000).toInt64
  hash := reverseBits (UInt32.ofNat (beNat ((key.drop 9).take 4)))

/-- The part of `key_decode_object` behind the first two names, `oid->nspace` and `k`. -/
def keyDecodeNameAt (o : GhObject) (k p : Str) : Except Stop GhObject :=
  match p with
  | [] => .error .overrun
  | c :: p =>
    if c = 0x3d then keyDecodeTailAt { o with key := [], oid := k } p
    else if c = 0x3c ∨ c = 0x3e then do
      let (oid, p) ← readName (-5) p
      keyDecodeTailAt { o with key := k, oid := oid } p
    else .error (.code (-6))

/-- `key_decode_object`, with its reads: `c_str` has a zero behind the key. -/
def keyDecodeObjectAt (key : Str) : Except Stop GhObject :=
  if key.length < 13 then .error (.code (-1))
  else do
    let (nspace, p) ← readName (-2) ((key ++ [0]).drop 13)
    let (k, p) ← readName (-3) p
    keyDecodeNameAt { decodedPrefix key with nspace := nspace } k p

/-! ## What the decoder meets -/

/-- A name in a key. -/
structure NamePart where
  /-- Its bytes in the key. -/
  text : Str
  /-- The name that they stand for. -/
  name : Str
  /-- The byte that ends it. -/
  stop : UInt8
  deriving DecidableEq

/-- What a key has from some place on. -/
inductive Scan where
  /-- An escape without two hexadecimal digits. -/
  | malformed
  /-- No byte ends the name. -/
  | unended
  /-- A name, and what is behind it. -/
  | ended (n : NamePart) (rest : Str)
  deriving DecidableEq

/-- A name begins earlier. -/
def Scan.cons (text : Str) (c : UInt8) : Scan → Scan
  | .ended n rest => .ended { n with text := text ++ n.text, name := c :: n.name } rest
  | s => s

/-- The name at the beginning of a part of a key: it is ended by '!' or a zero byte. -/
def scanName : Str → Scan
  | [] => .unended
  | c :: p =>
    if c = 0 ∨ c = 0x21 then .ended ⟨[], [], c⟩ p
    else if c = 0x23 ∨ c = 0x7e then
      match p with
      | h :: l :: p =>
        match hexVal h, hexVal l with
        | some x, some y => (scanName p).cons [c, h, l] ((x <<< 4) ||| y)
        | _, _ => .malformed
      | _ => .malformed
    else (scanName p).cons [c] c

/-- The name is as `append_escaped` writes it. -/
def NamePart.Exact (n : NamePart) : Prop := n.text = n.name.flatMap escapeByte ∧ n.stop = 0x21

instance (n : NamePart) : Decidable n.Exact := inferInstanceAs (Decidable (_ ∧ _))

/-- A name is refused, or it is ended in the key and what follows it is sound. -/
def NameSound (p : Str) (next : NamePart → Str → Prop) : Prop :=
  match scanName p with
  | .malformed => True
  | .unended => False
  | .ended n rest => next n rest

/-- Two numbers follow; where the suffix follows and then nothing or a zero byte, the names are
exact and it was nothing. -/
def TailSound (exact : Prop) (p : Str) : Prop :=
  16 ≤ p.length ∧
    (p[16]? = some onodeKeySuffix → p.getD 17 0 = 0 → exact ∧ p.length = 17)

/-- What follows the first two names. With a key that is there, and is not the name itself, the mark
says how the two compare. -/
def MarkSound (nspace k : NamePart) : Str → Prop
  | [] => True
  | c :: p =>
    if c = 0x3d then TailSound (nspace.Exact ∧ k.Exact) p
    else if c = 0x3c ∨ c = 0x3e then NameSound p fun oid p =>
      TailSound (nspace.Exact ∧ k.Exact ∧ oid.Exact ∧ k.name ≠ [] ∧ k.name ≠ oid.name ∧
        (c = 0x3e ↔ oid.name.nums < k.name.nums)) p
    else True

/-- The keys that are read safely. -/
def KeySound (key : Str) : Prop :=
  key.length < 13 ∨ NameSound (key.drop 13) fun nspace p => NameSound p fun k p =>
    MarkSound nspace k p

/-- What the decoder is to do with a key. -/
structure ReadSafely (key : Str) : Prop where
  /-- It does not read behind the terminating zero. -/
  inside : keyDecodeObjectAt key ≠ .error .overrun
  /-- What is not the key of an object is refused with a negative value. -/
  refused : (∀ o, keyEncodeObject o ≠ key) → ∃ r < 0, keyDecodeObjectAt key = .error (.code r)
  /-- The key of what is accepted is the key. -/
  exact : ∀ o, keyDecodeObjectAt key = .ok o → keyEncodeObject o = key

/-! ## One name -/

/-- An escape in `decode_escaped`, behind its first character. -/
def escapeAt (p : Str) : Except Stop (Str × Str) :=
  match p with
  | [] => .error .overrun
  | h :: p =>
    match hexVal h with
    | none => .error (.code (-1))
    | some h =>
      match p with
      | [] => .error .overrun
      | l :: p =>
        match hexVal l with
        | none => .error (.code (-1))
        | some l => (decodeEscapedAt p).map fun r => (((h <<< 4) ||| l) :: r.1, r.2)

/-- The loop of `decode_escaped`, byte by byte. -/
theorem decodeEscapedAt_cons (c : UInt8) (p : Str) : decodeEscapedAt (c :: p) =
    if c = 0 ∨ c = 0x21 then .ok ([], c :: p)
    else if c = 0x23 ∨ c = 0x7e then escapeAt p
    else (decodeEscapedAt p).map fun r => (c :: r.1, r.2) := decodeEscapedAt.eq_def (c :: p)

/-- With the terminating zero behind it, no name is read too far. -/
theorem decodeEscapedAt_append (q : Str) : decodeEscapedAt (q ++ [0]) =
    match unescape q with
    | none => .error (.code (-1))
    | some r => .ok (r.1, r.2 ++ [0]) := by
  have hzero : hexVal 0 = none := by decide
  induction q using unescape.induct with
  | case1 => rfl
  | case2 c p hstop =>
    rw [List.cons_append, decodeEscapedAt_cons, if_pos hstop, unescape.eq_def]
    dsimp only
    rw [if_pos hstop]
    rfl
  | case3 c hstop hesc h l p ih =>
    rw [List.cons_append, decodeEscapedAt_cons, if_neg hstop, if_pos hesc, unescape,
      if_neg hstop, if_pos hesc]
    unfold escapeAt
    cases hh : hexVal h with
    | none => simp [hh]
    | some x =>
      cases hl : hexVal l with
      | none => simp [hh, hl]
      | some y =>
        simp only [List.cons_append, hh, hl, ih]
        cases unescape p <;> rfl
  | case4 c p hstop hesc hshort =>
    rw [List.cons_append, decodeEscapedAt_cons, if_neg hstop, if_pos hesc, unescape.eq_def]
    dsimp only
    rw [if_neg hstop, if_pos hesc]
    unfold escapeAt
    rcases p with _ | ⟨h, _ | ⟨l, p⟩⟩
    · simp [hzero]
    · cases hh : hexVal h <;> simp [hh, hzero]
    · exact absurd rfl (hshort h l p)
  | case5 c p hstop hesc ih =>
    rw [List.cons_append, decodeEscapedAt_cons, if_neg hstop, if_neg hesc, unescape.eq_def]
    dsimp only
    rw [if_neg hstop, if_neg hesc, ih]
    cases unescape p <;> rfl

/-- What the loop of `decode_escaped` makes of a name. -/
def Scan.decoded : Scan → Option (Str × Str) → Prop
  | .malformed, r => r = none
  | .unended, r => ∃ s, r = some (s, [])
  | .ended n rest, r => r = some (n.name, n.stop :: rest)

/-- A byte in front of what was scanned. -/
theorem Scan.decoded_cons {s : Scan} {r : Option (Str × Str)} (h : s.decoded r) (text : Str)
    (c : UInt8) : (s.cons text c).decoded (r.map fun r => (c :: r.1, r.2)) := by
  cases s with
  | malformed => exact congrArg _ h
  | unended =>
    obtain ⟨t, rfl⟩ := h
    exact ⟨c :: t, rfl⟩
  | ended n rest => exact congrArg (Option.map _) h

/-- A name that is scanned is what `decode_escaped` reads. -/
theorem scanName_decoded (q : Str) : (scanName q).decoded (unescape q) := by
  induction q using unescape.induct with
  | case1 => exact ⟨[], rfl⟩
  | case2 c p hstop =>
    rw [scanName.eq_def, unescape.eq_def]
    dsimp only
    rw [if_pos hstop, if_pos hstop]
    rfl
  | case3 c hstop hesc h l p ih =>
    rw [scanName, if_neg hstop, if_pos hesc, unescape, if_neg hstop, if_pos hesc]
    cases hh : hexVal h with
    | none => rfl
    | some x =>
      cases hl : hexVal l with
      | none => rfl
      | some y =>
        have hcons := Scan.decoded_cons ih [c, h, l] ((x <<< 4) ||| y)
        rw [Option.map_eq_bind] at hcons
        exact hcons
  | case4 c p hstop hesc hshort =>
    rw [scanName.eq_def, unescape.eq_def]
    dsimp only
    rw [if_neg hstop, if_pos hesc, if_neg hstop, if_pos hesc]
    rcases p with _ | ⟨h, _ | ⟨l, p⟩⟩
    · rfl
    · rfl
    · exact absurd rfl (hshort h l p)
  | case5 c p hstop hesc ih =>
    rw [scanName.eq_def, unescape.eq_def]
    dsimp only
    rw [if_neg hstop, if_neg hesc, if_neg hstop, if_neg hesc]
    exact Scan.decoded_cons ih [c] c

/-- The text of a name is where it was. -/
theorem scanName_text {q : Str} {n : NamePart} {rest : Str} (h : scanName q = .ended n rest) :
    q = n.text ++ n.stop :: rest := by
  have hcons : ∀ {p text : Str} {c : UInt8} {n : NamePart},
      (∀ m, scanName p = .ended m rest → p = m.text ++ m.stop :: rest) →
      (scanName p).cons text c = .ended n rest → text ++ p = n.text ++ n.stop :: rest := by
    intro p text c n ih h
    cases hp : scanName p with
    | malformed =>
      rw [hp] at h
      cases h
    | unended =>
      rw [hp] at h
      cases h
    | ended m rest' =>
      rw [hp] at h
      obtain ⟨rfl, rfl⟩ := Scan.ended.inj h
      rw [ih m hp, List.append_assoc]
  -- By the rounds of the reader.
  induction q using unescape.induct generalizing n with
  | case1 => cases h
  | case2 c p hstop =>
    rw [scanName.eq_def] at h
    dsimp only at h
    rw [if_pos hstop] at h
    obtain ⟨rfl, rfl⟩ := Scan.ended.inj h
    rfl
  | case3 c hstop hesc h' l p ih =>
    rw [scanName, if_neg hstop, if_pos hesc] at h
    cases hh : hexVal h' with
    | none =>
      rw [hh] at h
      cases h
    | some x =>
      cases hl : hexVal l with
      | none =>
        rw [hh, hl] at h
        cases h
      | some y =>
        rw [hh, hl] at h
        exact hcons (fun m hm => ih hm) h
  | case4 c p hstop hesc hshort =>
    rw [scanName.eq_def] at h
    dsimp only at h
    rw [if_neg hstop, if_pos hesc] at h
    rcases p with _ | ⟨h', _ | ⟨l, p⟩⟩
    · cases h
    · cases h
    · exact absurd rfl (hshort h' l p)
  | case5 c p hstop hesc ih =>
    rw [scanName.eq_def] at h
    dsimp only at h
    rw [if_neg hstop, if_neg hesc] at h
    exact hcons (fun m hm => ih hm) h

/-- What was escaped is found. -/
theorem scanName_appendEscaped (s rest : Str) :
    scanName (appendEscaped s ++ rest) = .ended ⟨s.flatMap escapeByte, s, 0x21⟩ rest := by
  unfold appendEscaped
  rw [List.append_assoc]
  induction s with
  | nil =>
    rw [List.flatMap_nil, List.nil_append, List.singleton_append, scanName.eq_def]
    rfl
  | cons c s ih =>
    obtain ⟨h1, h2, h3⟩ := hexVal_hexDigit c
    rw [List.flatMap_cons, List.append_assoc]
    generalize s.flatMap escapeByte = t at ih ⊢
    generalize t ++ ([0x21] ++ rest) = q at ih ⊢
    unfold escapeByte
    split_ifs with hl hh
    · simp [scanName, h1, h2, h3, ih, Scan.cons]
    · simp [scanName, h1, h2, h3, ih, Scan.cons]
    · obtain ⟨n0, n1, n2, n3⟩ := plain_of_not (by simpa using hl) (by simpa using hh)
      rw [List.singleton_append, scanName.eq_def]
      simp [n0, n1, n2, n3, ih, Scan.cons]

/-- A part of a key begins as an escaped name does only where its first name is exact. -/
theorem appendEscaped_append_iff {p rest : Str} {n : NamePart} (h : scanName p = .ended n rest)
    (s x : Str) : appendEscaped s ++ x = p ↔ s = n.name ∧ n.Exact ∧ x = rest := by
  constructor
  · intro heq
    have hscan := scanName_appendEscaped s x
    rw [heq, h] at hscan
    obtain ⟨rfl, rfl⟩ := Scan.ended.inj hscan
    exact ⟨rfl, ⟨rfl, rfl⟩, rfl⟩
  · rintro ⟨rfl, ⟨htext, hstop⟩, rfl⟩
    rw [scanName_text h, htext, hstop, appendEscaped, List.append_assoc]
    rfl

/-! ## The whole key -/

/-- Nothing is read too far, and the key of what is accepted is `key`. -/
def Kept (key : Str) (x : Except Stop GhObject) : Prop :=
  x ≠ .error .overrun ∧ ∀ o, x = .ok o → keyEncodeObject o = key

/-- A key that is refused is kept. -/
theorem kept_code (key : Str) (r : ℤ) : Kept key (.error (.code r)) :=
  ⟨by simp, by simp⟩

/-- An object that is read is kept when its key is the key. -/
theorem kept_ok {key : Str} {o : GhObject} : Kept key (.ok o) ↔ keyEncodeObject o = key :=
  ⟨fun h => h.2 o rfl, fun h => ⟨by simp, fun _ h' => (Except.ok.inj h') ▸ h⟩⟩

/-- A read behind the key is not kept. -/
theorem not_kept_overrun (key : Str) : ¬ Kept key (.error .overrun) := fun h => h.1 rfl

/-- What is done with a name and what is behind it. -/
theorem kept_readName {key p : Str} {r : ℤ} {f : Str × Str → Except Stop GhObject}
    {next : NamePart → Str → Prop} (hopen : ∀ s, ¬ Kept key (f (s, [])))
    (hended : ∀ n rest, scanName p = .ended n rest →
      (Kept key (f (n.name, rest ++ [0])) ↔ next n rest)) :
    Kept key (readName r (p ++ [0]) >>= f) ↔ NameSound p next := by
  have hdecoded := scanName_decoded p
  unfold readName NameSound
  rw [decodeEscapedAt_append]
  cases hscan : scanName p with
  | malformed =>
    rw [hscan] at hdecoded
    rw [show unescape p = none from hdecoded]
    exact iff_of_true (kept_code key r) trivial
  | unended =>
    rw [hscan] at hdecoded
    obtain ⟨s, hs⟩ := hdecoded
    rw [hs]
    exact iff_of_false (hopen s) id
  | ended n rest =>
    rw [hscan] at hdecoded
    rw [show unescape p = some (n.name, n.stop :: rest) from hdecoded]
    exact hended n rest hscan

/-- The numbers that the tail of a key has. -/
def withNumbers (o : GhObject) (p : Str) : GhObject :=
  { o with
    snap := UInt64.ofNat (beNat (p.take 8))
    generation := UInt64.ofNat (beNat ((p.drop 8).take 8)) }

/-- The terminating zero is not in the numbers. -/
theorem withNumbers_append (o : GhObject) {p : Str} (h : 16 ≤ p.length) :
    o.withNumbers (p ++ [0]) = o.withNumbers p := by
  unfold withNumbers
  rw [List.take_append_of_le_length (by omega), List.drop_append_of_le_length (by omega),
    List.take_append_of_le_length (by rw [List.length_drop]; omega)]

/-- What is done with the suffix. -/
theorem kept_keyDecodeSuffixAt {key q : Str} {o : GhObject} {exact : Prop}
    (hkey : q.head? = some onodeKeySuffix → (keyEncodeObject o = key ↔ exact ∧ q.length = 1)) :
    Kept key (keyDecodeSuffixAt o (q ++ [0])) ↔
      (q.head? = some onodeKeySuffix → q.getD 1 0 = 0 → exact ∧ q.length = 1) := by
  cases q with
  | nil => exact iff_of_true (kept_code key _) fun h => absurd h (by simp)
  | cons c q =>
    rw [List.head?_cons, Option.some.injEq] at hkey ⊢
    unfold keyDecodeSuffixAt
    rw [List.cons_append]
    dsimp only
    split_ifs with hc
    · exact iff_of_true (kept_code key _) fun h => absurd h hc
    · have hc : c = onodeKeySuffix := not_not.mp hc
      cases q with
      | nil => exact kept_ok.trans ((hkey hc).trans ⟨fun h _ _ => h, fun h => h hc rfl⟩)
      | cons d q =>
        rw [List.cons_append]
        dsimp only
        rw [List.getD_cons_succ, List.getD_cons_zero]
        split_ifs with hd
        · exact iff_of_true (kept_code key _) fun _ h => absurd h hd
        · exact kept_ok.trans ((hkey hc).trans ⟨fun h _ _ => h, fun h => h hc (not_not.mp hd)⟩)

/-- The two numbers are read together. -/
theorem keyDecodeTailAt_eq (o : GhObject) (p : Str) : keyDecodeTailAt o p =
    if p.length < 16 then .error .overrun
    else keyDecodeSuffixAt (o.withNumbers p) (p.drop 16) := by
  have hlen : (p.drop 8).length = p.length - 8 := List.length_drop
  unfold keyDecodeTailAt keyDecodeU64
  rcases Nat.lt_or_ge p.length 8 with h8 | h8
  · rw [if_pos h8, if_pos (by omega)]
    rfl
  · rw [if_neg (by omega)]
    simp only [bind, Except.bind]
    rcases Nat.lt_or_ge p.length 16 with h16 | h16
    · rw [if_pos (by omega), if_pos h16]
    · rw [if_neg (by omega), if_neg (by omega), List.drop_drop]
      rfl

/-- What is done with the tail of a key. -/
theorem kept_keyDecodeTailAt {key p : Str} {o : GhObject} {exact : Prop}
    (hkey : 16 ≤ p.length → p[16]? = some onodeKeySuffix →
      (keyEncodeObject (o.withNumbers p) = key ↔ exact ∧ p.length = 17)) :
    Kept key (keyDecodeTailAt o (p ++ [0])) ↔ TailSound exact p := by
  have hlen : (p ++ [0]).length = p.length + 1 := by simp
  have hhead : (p.drop 16).head? = p[16]? := List.head?_drop
  have hnext : (p.drop 16).getD 1 0 = p.getD 17 0 := by
    rw [List.getD_eq_getElem?_getD, List.getElem?_drop, List.getD_eq_getElem?_getD]
  have hend : (p.drop 16).length = 1 ↔ p.length = 17 := by
    rw [List.length_drop]
    omega
  unfold TailSound
  rw [keyDecodeTailAt_eq]
  rcases Nat.lt_or_ge p.length 15 with hshort | hlong
  · rw [if_pos (by omega)]
    exact iff_of_false (not_kept_overrun key) fun h => absurd h.1 (by omega)
  rw [if_neg (by omega)]
  rcases Nat.lt_or_ge p.length 16 with hshort | hlong
  · -- The terminating zero is the last byte of the second number.
    have hnil : (p ++ [0]).drop 16 = [] := List.drop_eq_nil_of_le (by omega)
    rw [hnil]
    exact iff_of_false (not_kept_overrun key) fun h => absurd h.1 (by omega)
  · rw [List.drop_append_of_le_length hlong, withNumbers_append o hlong, kept_keyDecodeSuffixAt, hhead, hnext, hend]
    · exact ⟨fun h => ⟨hlong, h⟩, fun h => h.2⟩
    · rw [hhead, hend]
      exact hkey hlong

/-! ## Without an overrun -/

/-- A result with its reads and one without them: the same, unless there was an overrun. -/
def Agrees (x : Except Stop GhObject) (y : Except ℤ GhObject) : Prop :=
  x = .error .overrun ∨ (∃ o, x = .ok o ∧ y = .ok o) ∨ ∃ r, x = .error (.code r) ∧ y = .error r

/-- In less than 2 GiB no count leaves the `int`. -/
theorem decodeEscaped_eq_unescape {p : Str} (h : p.length < 2 ^ 31 - 1) :
    decodeEscaped p = unescape p := by
  have hdecoded := scanName_decoded p
  unfold decodeEscaped
  cases hread : unescape p with
  | none => rfl
  | some q =>
    have hsuffix : p.drop (p.length - q.2.length) = q.2 := by
      rw [hread] at hdecoded
      cases hscan : scanName p with
      | malformed =>
        rw [hscan] at hdecoded
        cases hdecoded
      | unended =>
        rw [hscan] at hdecoded
        obtain ⟨s, hs⟩ := hdecoded
        rw [Option.some.inj hs]
        exact List.drop_length
      | ended n rest =>
        rw [hscan] at hdecoded
        have htext := scanName_text hscan
        rw [Option.some.inj hdecoded]
        dsimp only
        rw [htext, List.length_append, Nat.add_sub_cancel, List.drop_left]
    obtain ⟨hiff, heq⟩ := int32_ofNat_inRange (p.length - q.2.length)
    have hmod : (p.length - q.2.length) % 2 ^ 32 = p.length - q.2.length :=
      Nat.mod_eq_of_lt (by omega)
    simp only [Option.bind_some, hiff]
    rw [if_pos (by omega), heq (by omega), hmod, hsuffix]

/-- The two readers of a name agree where neither runs over the end. -/
theorem agrees_readName {r : ℤ} {p : Str} (h : p.length < 2 ^ 31 - 1)
    {f : Str × Str → Except Stop GhObject} {g : Str → Str → Except ℤ GhObject} (hopen : ∀ s, f (s, []) = .error .overrun)
    (hended : ∀ s rest, rest.length < p.length → Agrees (f (s, rest ++ [0])) (g s rest)) :
    Agrees (readName r (p ++ [0]) >>= f)
      (match decodeEscaped p with
        | none => .error r
        | some (s, p) => g s (p.drop 1)) := by
  have hdecoded := scanName_decoded p
  rw [decodeEscaped_eq_unescape h]
  unfold readName
  rw [decodeEscapedAt_append]
  cases hscan : scanName p with
  | malformed =>
    rw [hscan] at hdecoded
    rw [show unescape p = none from hdecoded]
    exact .inr (.inr ⟨r, rfl, rfl⟩)
  | unended =>
    rw [hscan] at hdecoded
    obtain ⟨s, hs⟩ := hdecoded
    rw [hs]
    exact .inl (hopen s)
  | ended n rest =>
    rw [hscan] at hdecoded
    rw [show unescape p = some (n.name, n.stop :: rest) from hdecoded]
    refine hended n.name rest ?_
    rw [scanName_text hscan, List.length_append, List.length_cons]
    omega

/-- The two readers of the numbers and the suffix agree. -/
theorem agrees_keyDecodeTailAt (o : GhObject) (p : Str) :
    Agrees (keyDecodeTailAt o (p ++ [0])) (keyDecodeTail o p) := by
  have hlen : (p ++ [0]).length = p.length + 1 := by simp
  rw [keyDecodeTailAt_eq]
  rcases Nat.lt_or_ge p.length 16 with hshort | hlong
  · left
    split_ifs
    · rfl
    · rw [List.drop_eq_nil_of_le (by omega)]
      rfl
  · rw [if_neg (by omega), List.drop_append_of_le_length hlong, withNumbers_append o hlong]
    unfold keyDecodeTail
    cases p.drop 16 with
    | nil => exact .inr (.inr ⟨-7, rfl, rfl⟩)
    | cons c q =>
      unfold keyDecodeSuffixAt
      rw [List.cons_append]
      dsimp only
      split_ifs with hc hd
      · exact .inr (.inr ⟨-7, rfl, rfl⟩)
      · cases q with
        | nil => exact absurd rfl hd
        | cons d q =>
          rw [List.cons_append]
          dsimp only
          rw [if_pos (by simpa using hd)]
          exact .inr (.inr ⟨-8, rfl, rfl⟩)
      · cases q with
        | nil => exact .inr (.inl ⟨_, rfl, rfl⟩)
        | cons d q =>
          rw [List.cons_append]
          dsimp only
          rw [if_neg (by simpa using hd)]
          exact .inr (.inl ⟨_, rfl, rfl⟩)

/-- `keyDecodeName` behind the key. -/
def keyDecodeMark (o : GhObject) (k p : Str) : Except ℤ GhObject :=
  if p.headD 0 = 0x3d then keyDecodeTail { o with key := [], oid := k } (p.drop 1)
  else if p.headD 0 = 0x3c ∨ p.headD 0 = 0x3e then
    match decodeEscaped (p.drop 1) with
    | none => .error (-5)
    | some (oid, p) => keyDecodeTail { o with key := k, oid := oid } (p.drop 1)
  else .error (-6)

/-- Reading the names: the key, and what its mark says follows. -/
theorem keyDecodeName_eq (o : GhObject) (p : Str) : keyDecodeName o p =
    match decodeEscaped p with
    | none => .error (-3)
    | some (k, p) => keyDecodeMark o k (p.drop 1) := by
  unfold keyDecodeName keyDecodeMark
  cases decodeEscaped p with
  | none => rfl
  | some r =>
    have hdrop : (r.2.drop 1).drop 1 = r.2.drop 2 := List.drop_drop
    dsimp only
    exact hdrop ▸ rfl

/-- The two readers of the names agree. -/
theorem agrees_keyDecodeNameAt (o : GhObject) {p : Str} (h : p.length < 2 ^ 31 - 1) :
    Agrees (readName (-3) (p ++ [0]) >>= fun r => keyDecodeNameAt o r.1 r.2)
      (keyDecodeName o p) := by
  rw [keyDecodeName_eq]
  refine agrees_readName h (f := fun r => keyDecodeNameAt o r.1 r.2) (g := keyDecodeMark o)
    (fun _ => rfl) fun k p hp => ?_
  unfold keyDecodeMark keyDecodeNameAt
  cases p with
  | nil => exact .inr (.inr ⟨-6, rfl, rfl⟩)
  | cons c p =>
    rw [List.cons_append]
    have hhead : (c :: p).headD 0 = c := rfl
    dsimp only
    rw [hhead]
    by_cases heq : c = 0x3d
    · rw [if_pos heq, if_pos heq]
      exact agrees_keyDecodeTailAt _ p
    by_cases hmark : c = 0x3c ∨ c = 0x3e
    · rw [if_neg heq, if_pos hmark, if_neg heq, if_pos hmark]
      rw [List.length_cons] at hp
      exact agrees_readName (by omega)
        (f := fun r => keyDecodeTailAt { o with key := k, oid := r.1 } r.2) (fun _ => rfl)
        fun oid p _ => agrees_keyDecodeTailAt _ p
    · rw [if_neg heq, if_neg hmark, if_neg heq, if_neg hmark]
      exact .inr (.inr ⟨-6, rfl, rfl⟩)

/-- Where the decoder does not read too far, it does what `keyDecodeObject` does. -/
theorem keyDecodeObjectAt_agrees {key : Str} (h : key.length < 2 ^ 31) :
    Agrees (keyDecodeObjectAt key) (keyDecodeObject key) := by
  unfold keyDecodeObjectAt keyDecodeObject
  split_ifs with hshort
  · exact .inr (.inr ⟨-1, rfl, rfl⟩)
  · rw [List.drop_append_of_le_length (not_lt.mp hshort)]
    have hlen : (key.drop 13).length < 2 ^ 31 - 1 := by
      rw [List.length_drop]
      omega
    exact agrees_readName hlen (g := fun nspace p =>
      keyDecodeName { decodedPrefix key with nspace := nspace } p) (fun _ => rfl)
      fun nspace p hp => agrees_keyDecodeNameAt _ (hp.trans hlen)

/-! ## The encoding of what was read -/

/-- Bytes that are read as a number and written again. -/
theorem beBytes_beNat (s : Str) : beBytes s.length (beNat s) = s := by
  unfold beBytes beNat
  rw [← List.length_reverse, leBytes_leNat, List.reverse_reverse]

/-- A number that was read is written as it was. -/
theorem keyEncodeU64_beNat {s : Str} (h : s.length = 8) :
    keyEncodeU64 (UInt64.ofNat (beNat s)) = s := by
  have hlt : beNat s < UInt64.size := by
    have hle := leNat_lt s.reverse
    rw [List.length_reverse, h] at hle
    exact hle
  rw [keyEncodeU64, UInt64.toNat_ofNat_of_lt' hlt, ← h, beBytes_beNat]

/-- A number that was read is written as it was. -/
theorem keyEncodeU32_beNat {s : Str} (h : s.length = 4) :
    keyEncodeU32 (UInt32.ofNat (beNat s)) = s := by
  have hlt : beNat s < UInt32.size := by
    have hle := leNat_lt s.reverse
    rw [List.length_reverse, h] at hle
    exact hle
  rw [keyEncodeU32, UInt32.toNat_ofNat_of_lt' hlt, ← h, beBytes_beNat]

/-- The prefix that was read is written again. -/
theorem keyEncodePrefix_decodedPrefix {key : Str} (h : 13 ≤ key.length) {o : GhObject}
    (hshard : o.shardId = (decodedPrefix key).shardId) (hpool : o.pool = (decodedPrefix key).pool)
    (hhash : o.hash = (decodedPrefix key).hash) : keyEncodePrefix o = key.take 13 := by
  obtain ⟨c, p, rfl⟩ : ∃ c p, key = c :: p := List.exists_cons_of_length_pos (by omega)
  have hp : 12 ≤ p.length := by simpa using h
  have h1 : o.shardId + 0x80 = c := by
    rw [hshard]
    exact UInt8.sub_add_cancel _ _
  have h2 : o.pool.toUInt64 + 0x8000000000000000 = UInt64.ofNat (beNat (p.take 8)) := by
    rw [hpool]
    show (UInt64.ofNat (beNat (p.take 8)) - 0x8000000000000000) + 0x8000000000000000 = _
    exact UInt64.sub_add_cancel _ _
  have h3 : o.getBitwiseKeyU32 = UInt32.ofNat (beNat ((p.drop 8).take 4)) := by
    unfold getBitwiseKeyU32
    rw [hhash]
    exact reverseBits_reverseBits _
  unfold keyEncodePrefix
  rw [h1, h2, h3, keyEncodeU64_beNat (by rw [List.length_take]; omega),
    keyEncodeU32_beNat (by rw [List.length_take, List.length_drop]; omega), List.cons_append,
    List.take_succ_cons, ← List.take_add]

/-- The numbers that were read are written again. -/
theorem encodedNumbers_withNumbers (o : GhObject) {p : Str}
    (hc : p[16]? = some onodeKeySuffix) :
    encodedNumbers (o.withNumbers p) = p ↔ p.length = 17 := by
  have hlen : (encodedNumbers (o.withNumbers p)).length = 17 := by simp [encodedNumbers]
  refine ⟨fun heq => heq ▸ hlen, fun h17 => ?_⟩
  have htail : (p.drop 8).drop 8 = [onodeKeySuffix] := by
    rw [List.drop_drop, List.drop_eq_getElem_cons (by omega), List.drop_eq_nil_of_le (by omega)]
    exact congrArg (· :: []) (List.getElem?_eq_some_iff.mp hc).2
  unfold encodedNumbers withNumbers
  dsimp only
  rw [keyEncodeU64_beNat (by rw [List.length_take]; omega),
    keyEncodeU64_beNat (by rw [List.length_take, List.length_drop]; omega), ← htail,
    List.append_assoc, List.take_append_drop, List.take_append_drop]

/-- The parts of the encoding of an object, from the namespace on. -/
theorem keyEncodeObject_eq_iff {key q : Str} {n : NamePart} (h : 13 ≤ key.length)
    (hn : scanName (key.drop 13) = .ended n q) {o : GhObject}
    (hfront : keyEncodePrefix o = key.take 13) (hnspace : o.nspace = n.name) :
    keyEncodeObject o = key ↔ n.Exact ∧ keyEncodeName o ++ encodedNumbers o = q := by
  have hparts : keyEncodeObject o =
      key.take 13 ++ (appendEscaped o.nspace ++ (keyEncodeName o ++ encodedNumbers o)) := by
    rw [GhObject.keyEncodeObject_eq, hfront]
  have hkey : keyEncodeObject o = key ↔
      appendEscaped o.nspace ++ (keyEncodeName o ++ encodedNumbers o) = key.drop 13 := by
    rw [hparts]
    constructor
    · intro heq
      rw [← heq, List.drop_left' (by rw [List.length_take]; omega)]
    · intro heq
      rw [heq, List.take_append_drop]
  rw [hkey, appendEscaped_append_iff hn]
  exact ⟨fun h => h.2, fun h => ⟨hnspace, h⟩⟩

/-- The name and the numbers of an object, where the first name in them is known. -/
theorem keyEncodeName_eq_iff {q p : Str} {k : NamePart} {c : UInt8}
    (hk : scanName q = .ended k (c :: p)) (o : GhObject) :
    keyEncodeName o ++ encodedNumbers o = q ↔
      o.getKey = k.name ∧ k.Exact ∧ o.mark = c ∧ o.markedName ++ encodedNumbers o = p := by
  rw [keyEncodeName_eq, List.append_assoc, List.cons_append, appendEscaped_append_iff hk,
    List.cons_eq_cons]

/-- The key of an object that has only a name. -/
theorem keyEncodeName_eq_iff_of_key_nil {q p : Str} {k : NamePart}
    (hk : scanName q = .ended k (0x3d :: p)) {o : GhObject} (hkey : o.key = [])
    (hoid : o.oid = k.name) :
    keyEncodeName o ++ encodedNumbers o = q ↔ k.Exact ∧ encodedNumbers o = p := by
  have hget : o.getKey = o.oid := if_pos hkey
  have hmark : o.mark = 0x3d := if_pos hget
  have hname : o.markedName = [] := if_pos hget
  rw [keyEncodeName_eq_iff hk, hmark, hname, List.nil_append, hget]
  exact ⟨fun h => ⟨h.2.1, h.2.2.2⟩, fun h => ⟨hoid, h.1, rfl, h.2⟩⟩

/-- The key of an object that has a key and a name. -/
theorem keyEncodeName_eq_iff_of_marked {q p rest : Str} {k m : NamePart} {c : UInt8}
    (hk : scanName q = .ended k (c :: p)) (hm : scanName p = .ended m rest)
    (hc : c = 0x3c ∨ c = 0x3e) {o : GhObject} (hkey : o.key = k.name) (hoid : o.oid = m.name) :
    keyEncodeName o ++ encodedNumbers o = q ↔
      (k.Exact ∧ m.Exact ∧ k.name ≠ [] ∧ k.name ≠ m.name ∧
        (c = 0x3e ↔ m.name.nums < k.name.nums)) ∧ encodedNumbers o = rest := by
  rw [keyEncodeName_eq_iff hk]
  by_cases hboth : k.name ≠ [] ∧ k.name ≠ m.name
  · have hget : o.getKey = k.name := by
      unfold getKey
      rw [if_neg (by rw [hkey]; exact hboth.1), hkey]
    have hne : o.getKey ≠ o.oid := by
      rw [hget, hoid]
      exact hboth.2
    have hname : o.markedName = appendEscaped m.name := by
      unfold markedName
      rw [if_neg hne, hoid]
    have hmark : o.mark = c ↔ (c = 0x3e ↔ m.name.nums < k.name.nums) := by
      unfold mark
      rw [if_neg hne, hget, hoid]
      rcases hc with rfl | rfl <;> split_ifs with hlt <;> simp [hlt]
    rw [hget, hmark, hname, appendEscaped_append_iff hm]
    exact ⟨fun ⟨_, he, hlt, _, he', hn⟩ => ⟨⟨he, he', hboth.1, hboth.2, hlt⟩, hn⟩,
      fun ⟨⟨he, he', _, _, hlt⟩, hn⟩ => ⟨rfl, he, hlt, rfl, he', hn⟩⟩
  · -- The name is left out of the key of such an object.
    have hget : o.getKey = o.oid := by
      unfold getKey
      split_ifs with hnil
      · rfl
      · rw [hkey, hoid]
        exact not_not.mp fun hne => hboth ⟨hkey ▸ hnil, hne⟩
    have hmark : o.mark = 0x3d := if_pos hget
    refine iff_of_false (fun h => ?_) fun h => hboth ⟨h.1.2.2.1, h.1.2.2.2.1⟩
    have hc' : (0x3d : UInt8) = c := hmark.symm.trans h.2.2.1
    rcases hc with rfl | rfl
    · exact absurd hc' (by decide)
    · exact absurd hc' (by decide)

/-- What is done with a key behind its first two names. -/
theorem kept_keyDecodeNameAt {key q p : Str} {n k : NamePart} (h : 13 ≤ key.length)
    (hn : scanName (key.drop 13) = .ended n q) (hk : scanName q = .ended k p) :
    Kept key (keyDecodeNameAt { decodedPrefix key with nspace := n.name } k.name (p ++ [0])) ↔
      MarkSound n k p := by
  have hfront : ∀ o : GhObject, o.shardId = (decodedPrefix key).shardId →
      o.pool = (decodedPrefix key).pool → o.hash = (decodedPrefix key).hash →
      keyEncodePrefix o = key.take 13 := fun o => keyEncodePrefix_decodedPrefix h
  unfold MarkSound keyDecodeNameAt
  cases p with
  | nil => exact iff_of_true (kept_code key _) trivial
  | cons c p =>
    rw [List.cons_append]
    dsimp only
    split_ifs with heq hmark
    · -- A name alone.
      subst heq
      refine kept_keyDecodeTailAt fun _ hc => ?_
      refine (keyEncodeObject_eq_iff h hn (o := withNumbers _ p) (hfront _ rfl rfl rfl) rfl).trans ?_
      rw [keyEncodeName_eq_iff_of_key_nil (o := withNumbers _ p) hk rfl rfl,
        encodedNumbers_withNumbers _ hc, and_assoc]
    · -- A key and a name.
      refine kept_readName (fun s => not_kept_overrun key) fun m rest hm => ?_
      refine kept_keyDecodeTailAt fun _ hc => ?_
      refine (keyEncodeObject_eq_iff h hn (o := withNumbers _ rest) (hfront _ rfl rfl rfl)
        rfl).trans ?_
      rw [keyEncodeName_eq_iff_of_marked (o := withNumbers _ rest) hk hm hmark rfl rfl,
        encodedNumbers_withNumbers _ hc, ← and_assoc]
    · exact iff_of_true (kept_code key _) trivial

/-! ## The codes -/

/-- An error that is returned is a negative value. -/
def Negative {α : Type} (x : Except Stop α) : Prop := ∀ r, x = .error (.code r) → r < 0

/-- Success is no error. -/
theorem negative_ok {α : Type} (a : α) : Negative (.ok a) := fun _ h => nomatch h

/-- A read behind the key has no code. -/
theorem negative_overrun {α : Type} : Negative (.error .overrun : Except Stop α) :=
  fun _ h => nomatch h

/-- A negative code. -/
theorem negative_code {α : Type} {r : ℤ} (h : r < 0) :
    Negative (.error (.code r) : Except Stop α) := fun s hs => by
  obtain rfl : r = s := by simpa using hs
  exact h

/-- Two steps with negative codes. -/
theorem negative_bind {α β : Type} {x : Except Stop α} {f : α → Except Stop β} (hx : Negative x)
    (hf : ∀ a, Negative (f a)) : Negative (x >>= f) := by
  cases x with
  | ok a => exact hf a
  | error e =>
    intro r hr
    obtain rfl : e = .code r := Except.error.inj hr
    exact hx r rfl

/-- Reading a name has the code that it is given. -/
theorem negative_readName {r : ℤ} (h : r < 0) (p : Str) : Negative (readName r p) := by
  unfold readName
  split
  · exact negative_overrun
  · exact negative_code h
  · exact negative_ok _

/-- The codes of the numbers and the suffix are negative. -/
theorem negative_keyDecodeTailAt (o : GhObject) (p : Str) : Negative (keyDecodeTailAt o p) := by
  rw [keyDecodeTailAt_eq]
  split_ifs
  · exact negative_overrun
  · unfold keyDecodeSuffixAt
    split
    · exact negative_overrun
    · split_ifs
      · exact negative_code (by decide)
      · split
        · exact negative_overrun
        · split_ifs
          · exact negative_code (by decide)
          · exact negative_ok _

/-- The codes of the names are negative. -/
theorem negative_keyDecodeNameAt (o : GhObject) (k p : Str) :
    Negative (keyDecodeNameAt o k p) := by
  cases p with
  | nil => exact negative_overrun
  | cons c p =>
    unfold keyDecodeNameAt
    dsimp only
    split_ifs
    · exact negative_keyDecodeTailAt _ _
    · exact negative_bind (negative_readName (by decide) _) fun _ => negative_keyDecodeTailAt _ _
    · exact negative_code (by decide)

/-- Every error that is returned is a negative value. -/
theorem negative_keyDecodeObjectAt (key : Str) : Negative (keyDecodeObjectAt key) := by
  unfold keyDecodeObjectAt
  split_ifs
  · exact negative_code (by decide)
  · exact negative_bind (negative_readName (by decide) _) fun _ =>
      negative_bind (negative_readName (by decide) _) fun _ => negative_keyDecodeNameAt _ _ _

/-- The keys that are read safely. -/
theorem decode_safe_iff (key : Str) : ReadSafely key ↔ KeySound key := by
  have hkept : ReadSafely key ↔ Kept key (keyDecodeObjectAt key) := by
    refine ⟨fun h => ⟨h.inside, h.exact⟩, fun h => ⟨h.1, fun hnone => ?_, h.2⟩⟩
    cases hres : keyDecodeObjectAt key with
    | ok o => exact absurd (h.2 o hres) (hnone o)
    | error e =>
      cases e with
      | overrun => exact absurd hres h.1
      | code r => exact ⟨r, negative_keyDecodeObjectAt key r hres, rfl⟩
  rw [hkept]
  unfold keyDecodeObjectAt KeySound
  split_ifs with hshort
  · exact iff_of_true (kept_code key _) (.inl hshort)
  · have h13 := not_lt.mp hshort
    rw [List.drop_append_of_le_length h13, kept_readName, or_iff_right hshort]
    · exact fun s => not_kept_overrun key
    · intro n q hn
      rw [kept_readName]
      · exact fun s => not_kept_overrun key
      · exact fun k p hk => kept_keyDecodeNameAt h13 hn hk

/-- The bytes of a prefix. -/
def plainPrefix : Str := [0x80, 0x7f, 0xff, 0xff, 0xff, 0xff, 0xff, 0xff, 0xff, 0, 0, 0, 1]

/-- Behind a key of only a prefix the decoder goes on; and it accepts an escape with an upper-case
digit, which no object has in its key. -/
theorem prefix_overruns : ¬ ReadSafely plainPrefix ∧
    ¬ ReadSafely (plainPrefix ++ [0x23, 0x31, 0x46, 0x21, 0x61, 0x21, 0x3d,
      0, 0, 0, 0, 0, 0, 0, 7, 0, 0, 0, 0, 0, 0, 0, 9, 0x6f]) := by
  refine ⟨fun h => h.inside (by decide +kernel), fun h => ?_⟩
  have hkey := h.exact { decodedPrefix plainPrefix with
    nspace := [0x1f], oid := [0x61], snap := 7, generation := 9 } (by decide +kernel)
  exact absurd hkey (by decide +kernel)

end CxxLab.Common.GhObject
