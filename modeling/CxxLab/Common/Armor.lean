import Mathlib

/-!
# Armor

`common/armor.cc`: bytes as text of 64 characters, four for three bytes, and back. A destination is
the memory that its pointer points into, with the pointer; the functions write through
`set_str_val`, which stops at the end of the destination. The numbers of characters are an `int`,
and a sum of more than 31 bits is not defined.

What `armor_linebreak` writes is read back by `unarmor`, in all widths of a line
(`armor_roundTrips`), as long as its number of characters is an `int`.
-/

namespace CxxLab.Common.Armor

/-- `pem_key`. -/
def pemKey : List UInt8 :=
  "ABCDEFGHIJKLMNOPQRSTUVWXYZabcdefghijklmnopqrstuvwxyz0123456789+/".toList.map Char.toUInt8

/-- `EINVAL`. -/
def einval : ℤ := 22

/-- `ERANGE`. -/
def erange : ℤ := 34

/-- `encode_bits`. -/
def encodeBits (c : ℕ) : UInt8 := pemKey.getD c 0

/-- `decode_bits`. -/
def decodeBits (c : UInt8) : ℤ :=
  if 'A'.toUInt8 ≤ c ∧ c ≤ 'Z'.toUInt8 then c.toNat - 'A'.toNat
  else if 'a'.toUInt8 ≤ c ∧ c ≤ 'z'.toUInt8 then c.toNat - 'a'.toNat + 26
  else if '0'.toUInt8 ≤ c ∧ c ≤ '9'.toUInt8 then c.toNat - '0'.toNat + 52
  else if c = '+'.toUInt8 ∨ c = '-'.toUInt8 then 62
  else if c = '/'.toUInt8 ∨ c = '_'.toUInt8 then 63
  else if c = '='.toUInt8 then 0
  else -einval

/-- A padding character. -/
def pad : UInt8 := '='.toUInt8

/-- A line break. -/
def newline : UInt8 := '\n'.toUInt8

/-- A pointer to a destination: the memory and the place in it. -/
structure Dst where
  /-- The memory. -/
  mem : ℕ → UInt8
  /-- The place. -/
  pos : ℕ

/-- `**pdst = c` and `(*pdst)++`. -/
def Dst.put (d : Dst) (c : UInt8) : Dst := ⟨Function.update d.mem d.pos c, d.pos + 1⟩

/-- Several `SET_DST`: one that does not fit returns from the function, with what is written by
then. -/
def setDst (dstEnd : ℕ) : List UInt8 → Dst → Except Dst Dst
  | [], d => .ok d
  | c :: cs, d => if d.pos < dstEnd then setDst dstEnd cs (d.put c) else .error d

/-- The largest `int`. -/
def intMax : ℕ := 2 ^ 31 - 1

/-- The sum of two `int`s, if it is one. -/
def addInt (a b : ℕ) : Option ℕ := if a + b ≤ intMax then some (a + b) else none

/-- The rest of the loop body of `armor_linebreak` after the bytes are taken: the characters, the
counts and the line break; then the loop goes on. -/
def armorGroup (dstEnd width : ℕ) (cs : List UInt8) (olen line : ℕ) (d : Dst)
    (next : ℕ → ℕ → Dst → Option (ℤ × Dst)) : Option (ℤ × Dst) :=
  match setDst dstEnd cs d with
  | .error d => some (-erange, d)
  | .ok d => do
    let olen ← addInt olen 4
    let line ← addInt line 4
    if width ≠ 0 ∧ line = width then
      match setDst dstEnd [newline] d with
      | .error d => some (-erange, d)
      | .ok d =>
        let olen ← addInt olen 1
        next olen 0 d
    else next olen line d

/-- The characters for a single byte. -/
def chars1 (a : UInt8) : List UInt8 :=
  [encodeBits (a.toNat >>> 2), encodeBits ((a.toNat &&& 3) <<< 4), pad, pad]

/-- The characters for two bytes. -/
def chars2 (a b : UInt8) : List UInt8 :=
  [encodeBits (a.toNat >>> 2), encodeBits ((a.toNat &&& 3) <<< 4 ||| b.toNat >>> 4),
    encodeBits ((b.toNat &&& 15) <<< 2), pad]

/-- The characters for three bytes. -/
def chars3 (a b c : UInt8) : List UInt8 :=
  [encodeBits (a.toNat >>> 2), encodeBits ((a.toNat &&& 3) <<< 4 ||| b.toNat >>> 4),
    encodeBits ((b.toNat &&& 15) <<< 2 ||| c.toNat >>> 6), encodeBits (c.toNat &&& 63)]

/-- The loop of `armor_linebreak`. -/
def armorLoop (dstEnd width : ℕ) : List UInt8 → ℕ → ℕ → Dst → Option (ℤ × Dst)
  | [], olen, _, d => some (olen, d)
  | [a], olen, line, d =>
    armorGroup dstEnd width (chars1 a) olen line d fun olen _ d => some (olen, d)
  | [a, b], olen, line, d =>
    armorGroup dstEnd width (chars2 a b) olen line d fun olen _ d => some (olen, d)
  | a :: b :: c :: src, olen, line, d =>
    armorGroup dstEnd width (chars3 a b c) olen line d (armorLoop dstEnd width src)

/-- `armor_linebreak`. Nothing: the result is not defined. -/
def armorLinebreak (d : Dst) (dstEnd : ℕ) (src : List UInt8) (width : ℕ) : Option (ℤ × Dst) :=
  armorLoop dstEnd width src 0 0 d

/-- `armor`. -/
def armor (d : Dst) (dstEnd : ℕ) (src : List UInt8) : Option (ℤ × Dst) :=
  armorLinebreak d dstEnd src 0

/-- The loop of `unarmor`. -/
def unarmorLoop (dstEnd : ℕ) : List UInt8 → ℕ → Dst → Option (ℤ × Dst)
  | [], olen, d => some (olen, d)
  | s0 :: src, olen, d =>
    if s0 = newline then unarmorLoop dstEnd src olen d
    else
      match src with
      | s1 :: s2 :: s3 :: src =>
        let (a, b, c, e) := (decodeBits s0, decodeBits s1, decodeBits s2, decodeBits s3)
        if a < 0 ∨ b < 0 ∨ c < 0 ∨ e < 0 then some (-einval, d)
        else
          match setDst dstEnd [.ofNat (a.toNat <<< 2 ||| b.toNat >>> 4)] d with
          | .error d => some (-erange, d)
          | .ok d =>
            if s2 = pad then (addInt olen 1).map fun n : ℕ => ((n : ℤ), d)
            else
              match setDst dstEnd [.ofNat ((b.toNat &&& 15) <<< 4 ||| c.toNat >>> 2)] d with
              | .error d => some (-erange, d)
              | .ok d =>
                if s3 = pad then (addInt olen 2).map fun n : ℕ => ((n : ℤ), d)
                else
                  match setDst dstEnd [.ofNat ((c.toNat &&& 3) <<< 6 ||| e.toNat)] d with
                  | .error d => some (-erange, d)
                  | .ok d => do
                    let olen ← addInt olen 3
                    unarmorLoop dstEnd src olen d
      | _ => some (-einval, d)

/-- `unarmor`. -/
def unarmor (d : Dst) (dstEnd : ℕ) (src : List UInt8) : Option (ℤ × Dst) :=
  unarmorLoop dstEnd src 0 d

/-! ## Writing -/

namespace Dst

/-- Bytes one after the other. -/
def write (d : Dst) (bs : List UInt8) : Dst := bs.foldl put d

/-- Nothing is written. -/
@[simp] theorem write_nil (d : Dst) : d.write [] = d := rfl

/-- The first byte is written first. -/
@[simp] theorem write_cons (d : Dst) (b : UInt8) (bs : List UInt8) :
    d.write (b :: bs) = (d.put b).write bs := rfl

/-- Two strings are written one after the other. -/
theorem write_append (d : Dst) (as bs : List UInt8) :
    d.write (as ++ bs) = (d.write as).write bs := List.foldl_append

/-- A byte moves the pointer by one. -/
@[simp] theorem pos_put (d : Dst) (b : UInt8) : (d.put b).pos = d.pos + 1 := rfl

/-- A string moves the pointer by its length. -/
@[simp] theorem pos_write (d : Dst) (bs : List UInt8) : (d.write bs).pos = d.pos + bs.length := by
  induction bs generalizing d with
  | nil => rfl
  | cons b bs ih =>
    rw [write_cons, ih, pos_put, List.length_cons]
    omega

end Dst

/-- The call returns the range error, after it wrote what there was room for. -/
def Stops (dstEnd : ℕ) (d : Dst) (out : List UInt8) (res : Option (ℤ × Dst)) : Prop :=
  ∃ part, part <+: out ∧ d.pos + part.length ≤ dstEnd ∧ res = some (-erange, d.write part)

/-- Bytes with room are written. -/
theorem setDst_fits {dstEnd : ℕ} {cs : List UInt8} {d : Dst} (h : d.pos + cs.length ≤ dstEnd) :
    setDst dstEnd cs d = .ok (d.write cs) := by
  induction cs generalizing d with
  | nil => rfl
  | cons c cs ih =>
    rw [List.length_cons] at h
    rw [setDst, if_pos (by omega), ih (by rw [Dst.pos_put]; omega), Dst.write_cons]

/-- Bytes without room are written as far as it goes. -/
theorem setDst_short {dstEnd : ℕ} {cs : List UInt8} {d : Dst} (h : dstEnd < d.pos + cs.length)
    (hd : d.pos ≤ dstEnd) : ∃ part, part <+: cs ∧ d.pos + part.length ≤ dstEnd ∧
      setDst dstEnd cs d = .error (d.write part) := by
  induction cs generalizing d with
  | nil => exact absurd h (by simpa using hd)
  | cons c cs ih =>
    rw [List.length_cons] at h
    rw [setDst]
    split_ifs with hroom
    · obtain ⟨part, hpart, hin, heq⟩ := ih (d := d.put c) (by rw [Dst.pos_put]; omega) hroom
      refine ⟨c :: part, List.cons_prefix_cons.mpr ⟨rfl, hpart⟩, ?_, heq⟩
      rw [Dst.pos_put] at hin
      rw [List.length_cons]
      omega
    · exact ⟨[], List.nil_prefix, hd, rfl⟩

/-- The call writes `out` and returns the count `total`, if that is an `int`; if there is not enough
room, it stops. -/
structure Emits (dstEnd : ℕ) (d : Dst) (total : ℕ) (out : List UInt8) (res : Option (ℤ × Dst)) :
    Prop where
  fits : d.pos + out.length ≤ dstEnd →
    res = if total ≤ intMax then some ((total : ℤ), d.write out) else none
  short : dstEnd < d.pos + out.length → total ≤ intMax → Stops dstEnd d out res

namespace Emits

variable {dstEnd total : ℕ} {d : Dst} {out : List UInt8}

/-- Nothing more. -/
theorem nil (htotal : total ≤ intMax) (hd : d.pos ≤ dstEnd) :
    Emits dstEnd d total [] (some (total, d)) where
  fits _ := by rw [if_pos htotal, Dst.write_nil]
  short h := absurd h (by simpa using hd)

/-- Some characters, and what comes after them. -/
theorem setDst (cs : List UInt8) (hd : d.pos ≤ dstEnd) {next : Dst → Option (ℤ × Dst)}
    (h : d.pos + cs.length ≤ dstEnd →
      Emits dstEnd (d.write cs) total out (next (d.write cs))) :
    Emits dstEnd d total (cs ++ out)
      (match Armor.setDst dstEnd cs d with
      | .error d => some (-erange, d)
      | .ok d => next d) := by
  by_cases hcs : d.pos + cs.length ≤ dstEnd
  · have hnext := h hcs
    rw [setDst_fits hcs]
    constructor
    · intro hfits
      rw [List.length_append] at hfits
      rw [Dst.write_append]
      exact hnext.fits (by rw [Dst.pos_write]; omega)
    · intro hshort htotal
      rw [List.length_append] at hshort
      obtain ⟨part, hpart, hin, heq⟩ := hnext.short (by rw [Dst.pos_write]; omega) htotal
      refine ⟨cs ++ part, List.prefix_append_right_inj cs |>.mpr hpart, ?_, ?_⟩
      · rw [Dst.pos_write] at hin
        rw [List.length_append]
        omega
      · rw [Dst.write_append]
        exact heq
  · obtain ⟨part, hpart, hin, heq⟩ := setDst_short (not_le.mp hcs) hd
    rw [heq]
    refine ⟨fun hfits => ?_, fun _ _ => ⟨part, hpart.trans (List.prefix_append _ _), hin, rfl⟩⟩
    rw [List.length_append] at hfits
    omega

/-- A sum on the way to the count. -/
theorem addInt {olen n : ℕ} (hle : olen + n ≤ total) {next : ℕ → Option (ℤ × Dst)}
    (h : olen + n ≤ intMax → Emits dstEnd d total out (next (olen + n))) :
    Emits dstEnd d total out (do let m ← Armor.addInt olen n; next m) := by
  unfold Armor.addInt
  split_ifs with hint
  · exact h hint
  · constructor
    · intro _
      rw [if_neg (by omega)]
      rfl
    · intro _ htotal
      omega

end Emits

/-! ## The text -/

/-- The line break after some characters, and how long the line is behind it. -/
def lineBreak (width line : ℕ) : List UInt8 × ℕ :=
  if width ≠ 0 ∧ line = width then ([newline], 0) else ([], line)

/-- The text of some bytes, from a place in a line on. -/
def text (width : ℕ) : List UInt8 → ℕ → List UInt8
  | [], _ => []
  | [a], line => chars1 a ++ (lineBreak width (line + 4)).1
  | [a, b], line => chars2 a b ++ (lineBreak width (line + 4)).1
  | a :: b :: c :: src, line =>
    chars3 a b c ++
      ((lineBreak width (line + 4)).1 ++ text width src (lineBreak width (line + 4)).2)

/-- A group writes its four characters, with a line break where the line is full, and goes on. -/
theorem armorGroup_emits {dstEnd width olen line : ℕ} {d : Dst} {cs out : List UInt8}
    (hcs : cs.length = 4) (hline : line ≤ olen) (hd : d.pos ≤ dstEnd)
    {next : ℕ → ℕ → Dst → Option (ℤ × Dst)}
    (h : ∀ olen' d', (lineBreak width (line + 4)).2 ≤ olen' → olen' ≤ intMax → d'.pos ≤ dstEnd →
      Emits dstEnd d' (olen' + out.length) out (next olen' (lineBreak width (line + 4)).2 d')) :
    Emits dstEnd d (olen + (cs ++ ((lineBreak width (line + 4)).1 ++ out)).length)
      (cs ++ ((lineBreak width (line + 4)).1 ++ out))
      (armorGroup dstEnd width cs olen line d next) := by
  have hlength : (cs ++ ((lineBreak width (line + 4)).1 ++ out)).length =
      4 + (lineBreak width (line + 4)).1.length + out.length := by
    simp only [List.length_append, hcs]
    omega
  rw [hlength]
  refine Emits.setDst cs hd fun hroom => Emits.addInt (by omega) fun holen => ?_
  have hlineInt : addInt line 4 = some (line + 4) := if_pos (by omega)
  rw [hlineInt, Option.bind_eq_bind, Option.bind_some]
  rw [← Dst.pos_write] at hroom
  unfold lineBreak at h ⊢
  split_ifs at h ⊢ with hbreak
  · refine Emits.setDst [newline] hroom fun hroom' => Emits.addInt ?_ fun holen' => ?_
    · rw [List.length_singleton]
      omega
    · have := h (olen + 4 + 1) _ (Nat.zero_le _) holen' (by rwa [← Dst.pos_write] at hroom')
      simpa [Nat.add_assoc] using this
  · have := h (olen + 4) _ (by dsimp only; omega) holen hroom
    simpa [Nat.add_assoc] using this

/-- A last group of fewer than three bytes. -/
theorem armorGroup_last {dstEnd width olen line : ℕ} {d : Dst} {cs : List UInt8}
    (hcs : cs.length = 4) (hline : line ≤ olen) (hd : d.pos ≤ dstEnd) :
    Emits dstEnd d (olen + (cs ++ (lineBreak width (line + 4)).1).length)
      (cs ++ (lineBreak width (line + 4)).1)
      (armorGroup dstEnd width cs olen line d fun olen _ d => some (olen, d)) := by
  have h : Emits dstEnd d (olen + (cs ++ ((lineBreak width (line + 4)).1 ++ [])).length)
      (cs ++ ((lineBreak width (line + 4)).1 ++ []))
      (armorGroup dstEnd width cs olen line d fun olen _ d => some (olen, d)) :=
    armorGroup_emits hcs hline hd fun olen' d' _ holen' hd' => Emits.nil holen' hd'
  simpa using h

/-- The loop writes the text and counts it. -/
theorem armorLoop_emits {dstEnd width olen line : ℕ} {d : Dst} {src : List UInt8}
    (hline : line ≤ olen) (holen : olen ≤ intMax) (hd : d.pos ≤ dstEnd) :
    Emits dstEnd d (olen + (text width src line).length) (text width src line)
      (armorLoop dstEnd width src olen line d) := by
  induction src, line using text.induct width generalizing olen d with
  | case1 => exact Emits.nil holen hd
  | case2 => exact armorGroup_last rfl hline hd
  | case3 => exact armorGroup_last rfl hline hd
  | case4 a b c src line ih =>
    exact armorGroup_emits rfl hline hd fun olen' d' hline' holen' hd' => ih hline' holen' hd'

/-- The number of characters without line breaks. -/
theorem length_text_of_not_dvd {width line : ℕ} {src : List UInt8} (hw : width = 0 ∨ ¬4 ∣ width)
    (hline : 4 ∣ line) : (text width src line).length = 4 * ((src.length + 2) / 3) := by
  have hnone : ∀ {line}, 4 ∣ line → lineBreak width (line + 4) = ([], line + 4) := by
    intro line hline
    refine if_neg ?_
    rintro ⟨h0, rfl⟩
    have := hw.resolve_left h0
    omega
  induction src, line using text.induct width with
  | case1 => rfl
  | case2 a line => simp [text, hnone hline, chars1]
  | case3 a b line => simp [text, hnone hline, chars2]
  | case4 a b c src line ih =>
    rw [hnone hline] at ih
    simp only [text, hnone hline, List.length_append, List.length_nil, ih (by dsimp only; omega),
      List.length_cons, chars3]
    omega

/-- A line of `m` groups ends behind the last of them. -/
theorem lineBreak_groups {m k : ℕ} (hm : 0 < m) : lineBreak (4 * m) (4 * k + 4) =
    if k + 1 = m then ([newline], 4 * 0) else ([], 4 * (k + 1)) := by
  unfold lineBreak
  split_ifs with h1 h2 h2
  · rfl
  · exact absurd (by omega) h2
  · exact absurd ⟨by omega, by omega⟩ h1
  · rfl

/-- The break behind a group counts a line that is full. -/
theorem length_lineBreak {m k : ℕ} (hk : k < m) :
    (lineBreak (4 * m) (4 * k + 4)).1.length = (k + 1) / m := by
  rw [lineBreak_groups (by omega)]
  split_ifs with hbreak
  · rw [hbreak, Nat.div_self (by omega)]
    rfl
  · rw [Nat.div_eq_of_lt (by omega)]
    rfl

/-- The number of characters with line breaks, from behind `k` groups of a line of `m` on. -/
theorem length_text_of_dvd {m k : ℕ} {src : List UInt8} (hk : k < m) :
    (text (4 * m) src (4 * k)).length =
      4 * ((src.length + 2) / 3) + (k + (src.length + 2) / 3) / m := by
  generalize hline : 4 * k = line
  induction src, line using text.induct (4 * m) generalizing k with
  | case1 => simp [text, Nat.div_eq_of_lt hk]
  | case2 a line => simp [text, ← hline, length_lineBreak hk, chars1, Nat.add_comm 4]
  | case3 a b line => simp [text, ← hline, length_lineBreak hk, chars2, Nat.add_comm 4]
  | case4 a b c src line ih =>
    subst hline
    have hgroups : (src.length + 1 + 1 + 1 + 2) / 3 = (src.length + 2) / 3 + 1 := by omega
    simp only [text, List.length_append, length_lineBreak hk, chars3, List.length_cons,
      List.length_nil, hgroups]
    rw [lineBreak_groups (by omega)] at ih ⊢
    generalize (src.length + 2) / 3 = g at ih ⊢
    split_ifs at ih ⊢ with hbreak
    · rw [ih (k := 0) (by omega) rfl, hbreak, Nat.div_self (by omega),
        show k + (g + 1) = g + m by omega, Nat.add_div_right _ (by omega), Nat.zero_add g]
      omega
    · rw [ih (k := k + 1) (by omega) rfl, Nat.div_eq_of_lt (show k + 1 < m by omega),
        show k + (g + 1) = k + 1 + g by omega]
      omega

/-- The number of characters of the text of `n` bytes: four for each group of three, and a break for
each full line, if a line is a number of groups. -/
def textLength (n width : ℕ) : ℕ :=
  4 * ((n + 2) / 3) + if width ≠ 0 ∧ 4 ∣ width then (n + 2) / 3 / (width / 4) else 0

/-- The text has the length that was computed. -/
theorem length_text (src : List UInt8) (width : ℕ) :
    (text width src 0).length = textLength src.length width := by
  unfold textLength
  split_ifs with hbreaks
  · obtain ⟨h0, m, rfl⟩ := hbreaks
    rw [Nat.mul_div_cancel_left m (by omega), ← Nat.zero_add ((src.length + 2) / 3 / m)]
    simpa using length_text_of_dvd (k := 0) (show 0 < m by omega)
  · exact length_text_of_not_dvd (by tauto) (dvd_zero 4)

/-! ## Reading it back -/

/-- Every value of six bits is read back from its character, which is no padding and no line
break. -/
theorem decodeBits_encodeBits : ∀ v < 64, decodeBits (encodeBits v) = v ∧
    encodeBits v ≠ pad ∧ encodeBits v ≠ newline := by
  decide +kernel

/-- Bits side by side. -/
theorem join_eq {x y i : ℕ} (hy : y < 2 ^ i) : x <<< i ||| y = x * 2 ^ i + y := by
  rw [← Nat.shiftLeft_add_eq_or_of_lt hy, Nat.shiftLeft_eq]

/-- The upper six bits of a byte. -/
theorem upper_lt (a : UInt8) : a.toNat >>> 2 < 64 := by
  have := a.toNat_lt
  rw [Nat.shiftRight_eq_div_pow]
  omega

/-- The two bits of a byte and the four of the next one. -/
theorem mid2_eq (a b : UInt8) :
    (a.toNat &&& 3) <<< 4 ||| b.toNat >>> 4 = a.toNat % 4 * 16 + b.toNat / 16 := by
  have := b.toNat_lt
  rw [Nat.and_two_pow_sub_one_eq_mod _ 2, Nat.shiftRight_eq_div_pow, join_eq (by omega)]
  rfl

/-- The four bits of a byte and the two of the next one. -/
theorem mid4_eq (b c : UInt8) :
    (b.toNat &&& 15) <<< 2 ||| c.toNat >>> 6 = b.toNat % 16 * 4 + c.toNat / 64 := by
  have := c.toNat_lt
  rw [Nat.and_two_pow_sub_one_eq_mod _ 4, Nat.shiftRight_eq_div_pow, join_eq (by omega)]
  rfl

/-- The first byte from its two parts. -/
theorem first_eq (a b : UInt8) : UInt8.ofNat ((a.toNat >>> 2) <<< 2 |||
    ((a.toNat &&& 3) <<< 4 ||| b.toNat >>> 4) >>> 4) = a := by
  have ha := a.toNat_lt
  have hb := b.toNat_lt
  rw [mid2_eq, Nat.shiftRight_eq_div_pow, Nat.shiftRight_eq_div_pow, join_eq (by omega)]
  convert UInt8.ofNat_toNat (x := a) using 2
  omega

/-- The second byte from its two parts. -/
theorem second_eq (a b c : UInt8) : UInt8.ofNat
    ((((a.toNat &&& 3) <<< 4 ||| b.toNat >>> 4) &&& 15) <<< 4 |||
      ((b.toNat &&& 15) <<< 2 ||| c.toNat >>> 6) >>> 2) = b := by
  have hb := b.toNat_lt
  have hc := c.toNat_lt
  rw [mid2_eq, mid4_eq, Nat.and_two_pow_sub_one_eq_mod _ 4, Nat.shiftRight_eq_div_pow,
    join_eq (by omega)]
  convert UInt8.ofNat_toNat (x := b) using 2
  omega

/-- The third byte from its two parts. -/
theorem third_eq (b c : UInt8) : UInt8.ofNat
    ((((b.toNat &&& 15) <<< 2 ||| c.toNat >>> 6) &&& 3) <<< 6 ||| (c.toNat &&& 63)) = c := by
  have hc := c.toNat_lt
  rw [mid4_eq, Nat.and_two_pow_sub_one_eq_mod _ 2, Nat.and_two_pow_sub_one_eq_mod _ 6,
    join_eq (by omega)]
  convert UInt8.ofNat_toNat (x := c) using 2
  omega

/-- Four characters of which the first two are no padding. -/
theorem unarmorLoop_group {dstEnd olen v0 v1 : ℕ} {s2 s3 : UInt8} {rest : List UInt8} {d : Dst}
    (h0 : v0 < 64) (h1 : v1 < 64) (h2 : 0 ≤ decodeBits s2) (h3 : 0 ≤ decodeBits s3) :
    unarmorLoop dstEnd (encodeBits v0 :: encodeBits v1 :: s2 :: s3 :: rest) olen d =
      match setDst dstEnd [.ofNat (v0 <<< 2 ||| v1 >>> 4)] d with
      | .error d => some (-erange, d)
      | .ok d =>
        if s2 = pad then (addInt olen 1).map fun n : ℕ => ((n : ℤ), d)
        else
          match setDst dstEnd [.ofNat ((v1 &&& 15) <<< 4 ||| (decodeBits s2).toNat >>> 2)] d with
          | .error d => some (-erange, d)
          | .ok d =>
            if s3 = pad then (addInt olen 2).map fun n : ℕ => ((n : ℤ), d)
            else
              match setDst dstEnd
                [.ofNat (((decodeBits s2).toNat &&& 3) <<< 6 ||| (decodeBits s3).toNat)] d with
              | .error d => some (-erange, d)
              | .ok d => addInt olen 3 >>= fun olen => unarmorLoop dstEnd rest olen d := by
  obtain ⟨hv0, -, hn⟩ := decodeBits_encodeBits v0 h0
  obtain ⟨hv1, -, -⟩ := decodeBits_encodeBits v1 h1
  rw [unarmorLoop, if_neg hn, hv0, hv1, if_neg (by omega), Int.toNat_natCast, Int.toNat_natCast]

/-- The padding character stands for no bits. -/
theorem decodeBits_pad : decodeBits pad = 0 := by decide +kernel

/-- A count at the end. -/
theorem Emits.count {dstEnd olen n : ℕ} {d : Dst} (hd : d.pos ≤ dstEnd) :
    Emits dstEnd d (olen + n) [] ((Armor.addInt olen n).map fun n : ℕ => ((n : ℤ), d)) where
  fits _ := by
    unfold Armor.addInt
    split_ifs
    · rfl
    · rfl
  short h := absurd h (by simpa using hd)

/-- The text of one byte. -/
theorem unarmorLoop_chars1 {dstEnd olen : ℕ} {a : UInt8} {rest : List UInt8} {d : Dst}
    (hd : d.pos ≤ dstEnd) :
    Emits dstEnd d (olen + 1) [a] (unarmorLoop dstEnd (chars1 a ++ rest) olen d) := by
  have hmid := mid2_eq a 0
  have hfirst := first_eq a 0
  rw [UInt8.toNat_zero, Nat.zero_shiftRight, Nat.or_zero] at hmid hfirst
  rw [chars1, List.cons_append, List.cons_append, List.cons_append, List.cons_append,
    unarmorLoop_group (upper_lt a) (by rw [hmid]; omega) decodeBits_pad.ge decodeBits_pad.ge,
    hfirst]
  refine Emits.setDst [a] hd fun hroom => ?_
  rw [if_pos rfl]
  exact Emits.count (by rwa [Dst.pos_write])

/-- The text of two bytes. -/
theorem unarmorLoop_chars2 {dstEnd olen : ℕ} {a b : UInt8} {rest : List UInt8} {d : Dst}
    (hd : d.pos ≤ dstEnd) :
    Emits dstEnd d (olen + 2) [a, b] (unarmorLoop dstEnd (chars2 a b ++ rest) olen d) := by
  have hb := b.toNat_lt
  have hmid := mid4_eq b 0
  have hsecond := second_eq a b 0
  rw [UInt8.toNat_zero, Nat.zero_shiftRight, Nat.or_zero] at hmid hsecond
  obtain ⟨h2, hpad, -⟩ := decodeBits_encodeBits ((b.toNat &&& 15) <<< 2) (by rw [hmid]; omega)
  rw [chars2, List.cons_append, List.cons_append, List.cons_append, List.cons_append,
    unarmorLoop_group (upper_lt a) (by rw [mid2_eq]; omega) (by rw [h2]; omega)
      decodeBits_pad.ge, h2, Int.toNat_natCast, first_eq, hsecond]
  refine Emits.setDst [a] hd fun hroom => ?_
  rw [← Dst.pos_write] at hroom
  rw [if_neg hpad]
  refine Emits.setDst [b] hroom fun hroom' => ?_
  rw [if_pos rfl]
  exact Emits.count (by rwa [Dst.pos_write])

/-- The text of three bytes, and what comes after it. -/
theorem unarmorLoop_chars3 {dstEnd olen total : ℕ} {a b c : UInt8} {out rest : List UInt8} {d : Dst}
    (hd : d.pos ≤ dstEnd) (htotal : olen + 3 ≤ total)
    (h : ∀ d', olen + 3 ≤ intMax → d'.pos ≤ dstEnd →
      Emits dstEnd d' total out (unarmorLoop dstEnd rest (olen + 3) d')) :
    Emits dstEnd d total (a :: b :: c :: out)
      (unarmorLoop dstEnd (chars3 a b c ++ rest) olen d) := by
  have hb := b.toNat_lt
  have hc := c.toNat_lt
  have hlow : c.toNat &&& 63 < 64 := by
    rw [Nat.and_two_pow_sub_one_eq_mod _ 6]
    omega
  obtain ⟨h2, hpad2, -⟩ := decodeBits_encodeBits
    ((b.toNat &&& 15) <<< 2 ||| c.toNat >>> 6) (by rw [mid4_eq]; omega)
  obtain ⟨h3, hpad3, -⟩ := decodeBits_encodeBits (c.toNat &&& 63) hlow
  rw [chars3, List.cons_append, List.cons_append, List.cons_append, List.cons_append,
    unarmorLoop_group (upper_lt a) (by rw [mid2_eq]; omega) (by rw [h2]; omega)
      (by rw [h3]; omega), h2, h3, Int.toNat_natCast, Int.toNat_natCast, first_eq, second_eq,
    third_eq]
  refine Emits.setDst [a] hd fun hroom => ?_
  rw [← Dst.pos_write] at hroom
  rw [if_neg hpad2]
  refine Emits.setDst [b] hroom fun hroom => ?_
  rw [← Dst.pos_write] at hroom
  rw [if_neg hpad3]
  refine Emits.setDst [c] hroom fun hroom => ?_
  rw [← Dst.pos_write] at hroom
  exact Emits.addInt htotal fun holen => h _ holen hroom

/-- A line break is skipped. -/
theorem unarmorLoop_lineBreak {dstEnd olen width line : ℕ} {rest : List UInt8} {d : Dst} :
    unarmorLoop dstEnd ((lineBreak width line).1 ++ rest) olen d =
      unarmorLoop dstEnd rest olen d := by
  unfold lineBreak
  split_ifs
  · rw [List.singleton_append, unarmorLoop.eq_def]
    exact if_pos rfl
  · rfl

/-- The loop reads the text back. -/
theorem unarmorLoop_text {dstEnd width line olen : ℕ} {d : Dst} {src : List UInt8}
    (holen : olen ≤ intMax) (hd : d.pos ≤ dstEnd) :
    Emits dstEnd d (olen + src.length) src (unarmorLoop dstEnd (text width src line) olen d) := by
  induction src, line using text.induct width generalizing olen d with
  | case1 => exact Emits.nil holen hd
  | case2 a line => exact unarmorLoop_chars1 hd
  | case3 a b line => exact unarmorLoop_chars2 hd
  | case4 a b c src line ih =>
    rw [text]
    refine unarmorLoop_chars3 hd (by simp only [List.length_cons]; omega) fun d' holen' hd' => ?_
    rw [unarmorLoop_lineBreak, show olen + (a :: b :: c :: src).length = olen + 3 + src.length by
      simp only [List.length_cons]; omega]
    exact ih holen' hd'

/-! ## The round trip -/

/-- With a destination that is large enough the call writes `out`, returns its length and leaves
everything else as it was; if the destination is too small, it returns the range error, and writes
nothing behind its end. -/
def Writes (f : Dst → ℕ → Option (ℤ × Dst)) (out : List UInt8) : Prop :=
  ∀ d dstEnd, d.pos ≤ dstEnd →
    (d.pos + out.length ≤ dstEnd → f d dstEnd = some ((out.length : ℤ), d.write out)) ∧
      (dstEnd < d.pos + out.length → Stops dstEnd d out (f d dstEnd))

/-- There is a text of the bytes that is what `armor_linebreak` writes, and from which `unarmor`
writes the bytes. -/
def RoundTrips (src : List UInt8) (width : ℕ) : Prop :=
  ∃ out, Writes (fun d dstEnd => armorLinebreak d dstEnd src width) out ∧
    Writes (fun d dstEnd => unarmor d dstEnd out) src

/-- What emits an `int` number of characters writes them. -/
theorem writes_of_emits {f : Dst → ℕ → Option (ℤ × Dst)} {out : List UInt8}
    (hout : out.length ≤ intMax)
    (h : ∀ d dstEnd, d.pos ≤ dstEnd → Emits dstEnd d out.length out (f d dstEnd)) :
    Writes f out := by
  intro d dstEnd hd
  refine ⟨fun hfits => ?_, fun hshort => (h d dstEnd hd).short hshort hout⟩
  rw [(h d dstEnd hd).fits hfits, if_pos hout]

/-- `armor` writes the text, or as much of it as has room. -/
theorem armorLinebreak_emits (src : List UInt8) (width : ℕ) {d : Dst} {dstEnd : ℕ}
    (hd : d.pos ≤ dstEnd) : Emits dstEnd d (text width src 0).length (text width src 0)
      (armorLinebreak d dstEnd src width) := by
  have h : Emits dstEnd d (0 + (text width src 0).length) (text width src 0)
      (armorLoop dstEnd width src 0 0 d) := armorLoop_emits le_rfl (Nat.zero_le _) hd
  rwa [Nat.zero_add] at h

/-- `unarmor` of a text writes the bytes, or as many of them as have room. -/
theorem unarmor_emits {src : List UInt8} {width : ℕ} {d : Dst} {dstEnd : ℕ}
    (hd : d.pos ≤ dstEnd) :
    Emits dstEnd d src.length src (unarmor d dstEnd (text width src 0)) := by
  have h : Emits dstEnd d (0 + src.length) src (unarmorLoop dstEnd (text width src 0) 0 d) :=
    unarmorLoop_text (Nat.zero_le _) hd
  rwa [Nat.zero_add] at h

/-- A text that is written has a count that is an `int`. -/
theorem RoundTrips.textLength_le {src : List UInt8} {width : ℕ} (h : RoundTrips src width) :
    textLength src.length width ≤ intMax := by
  obtain ⟨out, harmor, -⟩ := h
  by_contra hbig
  -- A destination in which both texts have room.
  let dstEnd := out.length + (text width src 0).length
  have hout := (harmor ⟨fun _ => 0, 0⟩ dstEnd (Nat.zero_le _)).1 (by dsimp only [dstEnd]; omega)
  have htext := (armorLinebreak_emits src width (d := ⟨fun _ => 0, 0⟩)
    (Nat.zero_le dstEnd)).fits (by dsimp only [dstEnd]; omega)
  rw [length_text, if_neg hbig] at htext
  exact Option.some_ne_none _ (hout.symm.trans htext)

/-- Bytes come back from their text if, and only if, the number of its characters is an `int`. -/
theorem armor_roundTrips (src : List UInt8) (width : ℕ) :
    RoundTrips src width ↔ textLength src.length width ≤ intMax := by
  refine ⟨RoundTrips.textLength_le, fun hint => ⟨text width src 0, ?_, ?_⟩⟩
  · refine writes_of_emits ?_ fun d dstEnd hd => armorLinebreak_emits src width hd
    rwa [length_text]
  · refine writes_of_emits ?_ fun d dstEnd hd => unarmor_emits hd
    have hle : src.length ≤ textLength src.length width := by
      unfold textLength
      omega
    exact hle.trans hint

/-- The text of `3 * 2 ^ 29` bytes has `2 ^ 31` characters. -/
theorem zeros_not_counted : ¬RoundTrips (List.replicate (3 * 2 ^ 29) 0) 0 := by
  intro h
  have hle := h.textLength_le
  rw [List.length_replicate, textLength, if_neg (by simp), intMax] at hle
  omega

end CxxLab.Common.Armor
