import CxxLab.Kv.StoresAgree

/-!
# Transactions of the store in memory

What a transaction is to do with the contents of a store (`results`), and what `MemDB` does.
`submit_transaction` works on the map itself and stops at a merge without an operator, so what comes
before such a merge stays (`submitTransaction_atomic_iff`). The removals go over ranges of bytes,
and these have the keys of their prefix only (`inRange_encodeKey`).
-/

namespace CxxLab.Kv

open Common

/-! ## The keys of a prefix -/

/-- A full key has the prefix, a zero byte and the key. -/
theorem nums_encodeKey (pfx key : Str) : (encodeKey pfx key).nums = pfx.nums ++ 0 :: key.nums :=
  List.map_append

/-- Full keys of one prefix are in the order of their keys. -/
theorem encodeKey_lt_iff (pfx a b : Str) :
    (encodeKey pfx a).nums < (encodeKey pfx b).nums ↔ a.nums < b.nums := by
  rw [nums_encodeKey, nums_encodeKey]
  induction pfx.nums with
  | nil => simp
  | cons c l ih => simpa using ih

/-- Full keys of one prefix are in the order of their keys. -/
theorem encodeKey_le_iff (pfx a b : Str) :
    (encodeKey pfx a).nums ≤ (encodeKey pfx b).nums ↔ a.nums ≤ b.nums := by
  rw [← not_lt, encodeKey_lt_iff, not_lt]

/-- The keys from the first one of a prefix to its end are those with the prefix and a zero byte. -/
theorem inRange_pfx (pfx k : Str) :
    InRange (encodeKey pfx []) (endOfKeys pfx) k ↔ ∃ key, k = encodeKey pfx key := by
  rw [← take_eq_iff, eq_comm, ← List.prefix_iff_eq_take]
  constructor
  · rintro ⟨key, rfl⟩
    exact ⟨key, by simp [encodeKey]⟩
  · rintro ⟨key, rfl⟩
    exact ⟨key, by simp [encodeKey]⟩

/-- A range of keys of a prefix has keys of that prefix only. -/
theorem inRange_encodeKey (pfx start stop k : Str) :
    InRange (encodeKey pfx start) (encodeKey pfx stop) k ↔
      ∃ key, k = encodeKey pfx key ∧ start.nums ≤ key.nums ∧ key.nums < stop.nums := by
  constructor
  · rintro ⟨hlo, hhi⟩
    have hfirst : (encodeKey pfx []).nums ≤ (encodeKey pfx start).nums :=
      (encodeKey_le_iff pfx [] start).mpr (not_lt.mp (List.not_lt_nil _))
    have hlast := ((inRange_pfx pfx (encodeKey pfx stop)).mpr ⟨stop, rfl⟩).2
    obtain ⟨key, rfl⟩ := (inRange_pfx pfx k).mp ⟨hfirst.trans hlo, hhi.trans hlast⟩
    exact ⟨key, rfl, (encodeKey_le_iff pfx start key).mp hlo, (encodeKey_lt_iff pfx key stop).mp hhi⟩
  · rintro ⟨key, rfl, hlo, hhi⟩
    exact ⟨(encodeKey_le_iff pfx start key).mpr hlo, (encodeKey_lt_iff pfx key stop).mpr hhi⟩

/-! ## What a transaction is to do -/

/-- What a store holds. -/
abbrev Contents := Str → Option Str

/-- What the map holds. -/
def MemDB.contents (m : MemDB) : Contents := fun k => SortedMap.lookup m k

namespace Op

open Classical in
/-- What the operation makes of the contents; nothing for a merge without an operator, or one that
fails. A removal takes keys of its own prefix. -/
noncomputable def result (mops : MergeOps) (c : Contents) : Op → Option Contents
  | .set pfx key bl => some (Function.update c (encodeKey pfx key) (some bl))
  | .rmkey pfx key => some (Function.update c (encodeKey pfx key) none)
  | .rmkeysByPrefix pfx => some fun k => if ∃ key, k = encodeKey pfx key then none else c k
  | .rmRangeKeys pfx start stop => some fun k =>
      if ∃ key, k = encodeKey pfx key ∧ start.nums ≤ key.nums ∧ key.nums < stop.nums then none
      else c k
  | .merge pfx key value =>
      (mops.find pfx).bind fun mop =>
        (mergeOne mop (c (encodeKey pfx key)) value).map fun new =>
          Function.update c (encodeKey pfx key) (some new)

/-- A merge on a prefix for which no operator is registered. -/
def Unregistered (mops : MergeOps) (op : Op) : Prop :=
  ∃ pfx key value, op = .merge pfx key value ∧ mops.find pfx = none

end Op

/-- What a transaction makes of the contents: all operations, in order. -/
noncomputable def results (mops : MergeOps) : Contents → List Op → Option Contents
  | c, [] => some c
  | c, op :: ops => (op.result mops c).bind fun c' => results mops c' ops

/-! ## What `MemDB` does -/

namespace MemDB

variable {mops : MergeOps} {m m' : MemDB} {op : Op} {ops : List Op} {c : Contents}

/-- The value that was set is stored, and nothing else changes. -/
theorem contents_set (fullKey v : Str) :
    contents (m.set (fullKey, v)) = Function.update m.contents fullKey (some v) := by
  funext k
  rw [contents, SortedMap.lookup_set nums_injective, Function.update_apply]
  rfl

/-- An operation does what it is to do, or it is a merge that is refused, or one that fails. -/
theorem apply_cases (mops : MergeOps) (m : MemDB) (op : Op) :
    (∃ m', m.apply mops op = some (0, m') ∧ op.result mops m.contents = some m'.contents) ∨
      (op.Unregistered mops ∧ m.apply mops op = some (-22, m)) ∨
      (¬ op.Unregistered mops ∧ m.apply mops op = none ∧ op.result mops m.contents = none) := by
  classical
  -- One case for each operation; only a merge can fail.
  cases op with
  | set pfx key bl => exact .inl ⟨_, rfl, congrArg some (contents_set _ _).symm⟩
  | rmkey pfx key =>
    refine .inl ⟨_, rfl, congrArg some (funext fun k => ?_)⟩
    rw [contents, rmkey, SortedMap.lookup_remove nums_injective, Function.update_apply]
    rfl
  | rmkeysByPrefix pfx =>
    refine .inl ⟨_, rfl, congrArg some (funext fun k => ?_)⟩
    exact (if_congr (inRange_pfx pfx k).symm rfl rfl).trans (lookup_rmkeysByPrefix pfx k).symm
  | rmRangeKeys pfx start stop =>
    refine .inl ⟨_, rfl, congrArg some (funext fun k => ?_)⟩
    exact (if_congr (inRange_encodeKey pfx start stop k).symm rfl rfl).trans
      (lookup_rmRangeKeys pfx start stop k).symm
  | merge pfx key value =>
    cases hfind : mops.find pfx with
    | none =>
      refine .inr (.inl ⟨⟨pfx, key, value, rfl, hfind⟩, ?_⟩)
      show m.merge mops pfx (encodeKey pfx key) value = _
      unfold merge
      rw [hfind]
    | some mop =>
      have happly : m.apply mops (.merge pfx key value) = _ :=
        Building.merge_eq hfind m (encodeKey pfx key) value
      have hresult : Op.result mops m.contents (.merge pfx key value) =
          (mergeOne mop (m.contents (encodeKey pfx key)) value).map fun new =>
            Function.update m.contents (encodeKey pfx key) (some new) := by
        rw [Op.result, hfind]
        rfl
      rw [happly, hresult]
      cases hmerge : mergeOne mop (SortedMap.lookup m (encodeKey pfx key)) value with
      | none =>
        refine .inr (.inr ⟨?_, rfl, congrArg (Option.map _) hmerge⟩)
        rintro ⟨pfx', key', value', heq, hnone⟩
        cases heq
        rw [hfind] at hnone
        cases hnone
      | some new =>
        refine .inl ⟨_, rfl, (congrArg (Option.map _) hmerge).trans ?_⟩
        rw [contents_set]
        rfl

/-- What `submit_transaction` ends with is the result of all operations, or an error with the
contents `c`. -/
def Ends (mops : MergeOps) (m : MemDB) (ops : List Op) (c : Contents) : Prop :=
  ∃ r m', m.submitTransaction mops ops = some (r, m') ∧
    (r = 0 ∧ results mops m.contents ops = some m'.contents ∨ r < 0 ∧ m'.contents = c)

/-- There is a result of all operations, or a merge without an operator comes after operations that
leave the contents `c`. -/
def Met (mops : MergeOps) (start : Contents) (ops : List Op) (c : Contents) : Prop :=
  results mops start ops ≠ none ∨
    ∃ before op after, ops = before ++ op :: after ∧ op.Unregistered mops ∧
      results mops start before = some c

/-- A merge without an operator has no result. -/
theorem result_of_unregistered (h : op.Unregistered mops) : op.result mops c = none := by
  obtain ⟨pfx, key, value, rfl, hnone⟩ := h
  rw [Op.result, hnone]
  rfl

/-- A merge without an operator, or operations up to one behind the first. -/
theorem met_cons_iff {start : Contents} : Met mops start (op :: ops) c ↔
    (op.Unregistered mops ∧ start = c) ∨
      ∃ next, op.result mops start = some next ∧ Met mops next ops c := by
  unfold Met
  constructor
  · rintro (h | ⟨before, op', after, heq, hop, hbefore⟩)
    · rw [results] at h
      cases hres : op.result mops start with
      | none => exact absurd (by rw [hres]; rfl) h
      | some next => exact .inr ⟨next, rfl, .inl (by rwa [hres] at h)⟩
    · cases before with
      | nil =>
        cases heq
        exact .inl ⟨hop, Option.some.inj hbefore⟩
      | cons op₁ before =>
        cases heq
        obtain ⟨next, hnext, hbefore⟩ := Option.bind_eq_some_iff.mp hbefore
        exact .inr ⟨next, hnext, .inr ⟨before, op', after, rfl, hop, hbefore⟩⟩
  · rintro (⟨hop, rfl⟩ | ⟨next, hnext, h | ⟨before, op', after, rfl, hop, hbefore⟩⟩)
    · exact .inr ⟨[], op, ops, rfl, hop, rfl⟩
    · refine .inl ?_
      rw [results, hnext]
      exact h
    · refine .inr ⟨op :: before, op', after, rfl, hop, ?_⟩
      rw [results, hnext]
      exact hbefore

/-- A transaction comes to its end exactly when each of its operations can be done in its turn. -/
theorem ends_iff : Ends mops m ops c ↔ Met mops m.contents ops c := by
  induction ops generalizing m with
  | nil =>
    exact iff_of_true ⟨0, m, rfl, .inl ⟨rfl, rfl⟩⟩ (.inl (Option.some_ne_none _))
  | cons op ops ih =>
    rw [met_cons_iff]
    have hsubmit : m.submitTransaction mops (op :: ops) = (m.apply mops op).bind fun p =>
        if p.1 < 0 then some p else p.2.submitTransaction mops ops := by
      rw [MemDB.submitTransaction]
      cases m.apply mops op <;> rfl
    rcases apply_cases mops m op with ⟨m₁, happly, hres⟩ | ⟨hop, happly⟩ | ⟨hop, happly, hres⟩
    · have hop : ¬ op.Unregistered mops := fun h => by
        rw [result_of_unregistered h] at hres
        cases hres
      have hrest : Ends mops m (op :: ops) c ↔ Ends mops m₁ ops c := by
        unfold Ends
        rw [hsubmit, happly, results, hres]
        rfl
      rw [hrest, ih]
      constructor
      · exact fun h => .inr ⟨_, hres, h⟩
      · rintro (h | ⟨next, hnext, h⟩)
        · exact absurd h.1 hop
        · rw [hres] at hnext
          cases hnext
          exact h
    · -- The map stays as it is, with what the operations before have done.
      have hres := result_of_unregistered (c := m.contents) hop
      have hsub : m.submitTransaction mops (op :: ops) = some (-22, m) := by
        rw [hsubmit, happly, Option.bind_some, if_pos (by norm_num)]
      constructor
      · rintro ⟨r, m', h, hcase⟩
        obtain ⟨rfl, rfl⟩ := Prod.mk.inj (Option.some.inj (hsub.symm.trans h))
        exact .inl ⟨hop, hcase.elim (fun h => absurd h.1 (by decide)) And.right⟩
      · rintro (⟨-, rfl⟩ | ⟨next, hnext, -⟩)
        · exact ⟨-22, m, hsub, .inr ⟨by decide, rfl⟩⟩
        · rw [hres] at hnext
          cases hnext
    · have hsub : m.submitTransaction mops (op :: ops) = none := by
        rw [hsubmit, happly, Option.bind_none]
      refine iff_of_false ?_ ?_
      · rintro ⟨r, m', h, -⟩
        rw [hsub] at h
        cases h
      · rintro (⟨h, -⟩ | ⟨next, hnext, -⟩)
        · exact hop h
        · rw [hres] at hnext
          cases hnext

/-- The transaction is applied whole and returns 0, or it returns an error and changes nothing. -/
def Atomic (mops : MergeOps) (m : MemDB) (ops : List Op) : Prop :=
  ∃ r m', m.submitTransaction mops ops = some (r, m') ∧
    (r = 0 ∧ results mops m.contents ops = some m'.contents ∨ r < 0 ∧ m'.contents = m.contents)

/-- A transaction is atomic exactly when no operation of it is refused or fails, or what comes
before the merge that is refused leaves the contents as they were. -/
theorem submitTransaction_atomic_iff (mops : MergeOps) (m : MemDB) (ops : List Op) :
    Atomic mops m ops ↔
      results mops m.contents ops ≠ none ∨
        ∃ before op after, ops = before ++ op :: after ∧ op.Unregistered mops ∧
          results mops m.contents before = some m.contents :=
  ends_iff

/-- A key is set, and a merge on another prefix is refused: the key stays. -/
theorem set_stays : ¬ Atomic [] SortedList.empty [.set [80] [97] [1], .merge [81] [97] [1]] := by
  rintro ⟨r, m', h, hcase⟩
  obtain ⟨rfl, rfl⟩ := Prod.mk.inj (Option.some.inj h)
  rcases hcase with ⟨h0, -⟩ | ⟨-, hsame⟩
  · cases h0
  · exact absurd (congrFun hsame (encodeKey [80] [97])) (by decide)

end MemDB

end CxxLab.Kv
