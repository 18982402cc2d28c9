import Mathlib.Data.Int.Notation
import Mathlib.Data.Nat.Notation

/-!
# The volume of the set-top box

`hktv_get_volume_level` writes the volumes of the sources into a string, and
`hktv_set_volume_level` reads such a string into a copy of the setting, in which a source keeps its
volume if its number is left out. Whether the mixer is set is decided by a sum over the indices of
the sources that have changed. A string is given by the characters before its end.
-/

set_option autoImplicit false
set_option relaxedAutoImplicit false

namespace Katmai.Holktv

/-- `VOLUME_LEVEL_SOURCE` -/
abbrev volumeLevelSource : ℕ :=
  7

/-- `src` of `struct volume_level_t` -/
abbrev VolumeLevel := Vector Int32 volumeLevelSource

/-- `"%d"` -/
def printInt (v : Int32) : List Char :=
  if v.toInt < 0 then '-' :: Nat.toDigits 10 v.toInt.natAbs else Nat.toDigits 10 v.toInt.natAbs

/-- `hktv_get_volume_level` -/
def getVolumeLevel (vol : VolumeLevel) : List Char :=
  [','].intercalate (vol.toList.map printInt)

/-- The variables `vol`, `j`, `v` and `s` of `hktv_set_volume_level`. -/
structure VolumeScan where
  vol : VolumeLevel
  j : ℕ
  v : Int32
  s : Bool

/-- `if (s != 0) vol.src[j] = v;` -/
def VolumeScan.put (scan : VolumeScan) : VolumeLevel :=
  if scan.s then scan.vol.setIfInBounds scan.j scan.v else scan.vol

/-- `if ((s != 0) && (j < 7)) vol.src[j] = v;` -/
def VolumeScan.putLast (scan : VolumeScan) : VolumeLevel :=
  if scan.j < 7 then scan.put else scan.vol

/-- The first loop, with the characters that are still to come, unless the function returns `0`. -/
def scanVolume : VolumeScan → List Char → Option VolumeScan
  | scan, [] => some scan
  | scan, c :: rest =>
    if c = ',' then
      let next := { vol := scan.put, j := scan.j + 1, v := 0, s := false }
      if next.j ≥ 7 then some next else scanVolume next rest
    else if '0' ≤ c ∧ c ≤ '9' then
      scanVolume { scan with v := scan.v * 10 + Int32.ofNat (c.toNat - '0'.toNat), s := true } rest
    else none

/-- `changed`, after the second loop. -/
def sumChanged (vol setting : VolumeLevel) : ℕ :=
  (List.range volumeLevelSource).foldl
    (fun changed i ↦ if vol[i]? ≠ setting[i]? then changed + i else changed) 0

/-- What `hktv_set_volume_level` returns, the setting behind it and whether
`set_system_volume` was called. -/
structure VolumeResult where
  rc : ℤ
  setting : VolumeLevel
  updated : Bool
  deriving DecidableEq

/-- `hktv_set_volume_level` -/
def setVolumeLevel (setting : VolumeLevel) (str : List Char) : VolumeResult :=
  match scanVolume { vol := setting, j := 0, v := 0, s := false } str with
  | none => { rc := 0, setting := setting, updated := false }
  | some scan =>
    { rc := 1, setting := scan.putLast, updated := sumChanged scan.putLast setting ≠ 0 }

end Katmai.Holktv
