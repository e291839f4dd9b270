import Mathlib.Data.Nat.Notation

/-!
# Tiers, locations and return values

The data types of `btier/btier_types.h` that the journal, the extent map and the engine share.
-/

namespace CxxLab.Btier

/-- What a call returns: 0 or a negative error number. -/
inductive Status where
  | ok
  | enoent
  | enospc
  | eio
  deriving DecidableEq, Repr

/-- `Tier`. A byte read from a device may be no tier at all. -/
inductive Tier where
  | fast
  | slow
  | invalid (code : UInt8)
  deriving DecidableEq, Repr

/-- The value of a tier. -/
def Tier.code : Tier → UInt8
  | .fast => 0
  | .slow => 1
  | .invalid c => c

/-- The cast of a byte to a tier. -/
def Tier.ofCode (c : UInt8) : Tier :=
  match c.toNat with
  | 0 => .fast
  | 1 => .slow
  | _ => .invalid c

/-- `KeyLocation`: where the value of a key is. -/
structure KeyLocation where
  /-- The extent. -/
  extentId : UInt64 := 0
  /-- The offset in the extent. -/
  offset : UInt32 := 0
  /-- The length of the value. -/
  length : UInt32 := 0
  deriving DecidableEq, Repr

/-- `DiskLocation`: where an extent is. -/
structure DiskLocation where
  /-- The offset on the device. -/
  offset : UInt64 := 0
  /-- The length of the extent. -/
  length : UInt32 := 0
  /-- The device. -/
  tier : Tier := .fast
  deriving DecidableEq, Repr

end CxxLab.Btier
