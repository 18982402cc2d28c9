import Katmai.Foundation.Words
import Katmai.Holktv.StbVolume

/-!
# Volume strings

The string of a setting restores that setting, and a string with another character than digits and
commas in its first seven fields is refused (`TakesEffect`). The mixer should be set whenever the
volume of a source changes. The sum that decides about it counts a change of source `0` as nothing,
so that the law fails if no other volume changes (`takesEffect_iff`).
-/

set_option autoImplicit false
set_option relaxedAutoImplicit false

namespace Katmai.Holktv

open Foundation

/-! ### The law -/

/-- The fields before the seventh comma. -/
def volumeFields (str : List Char) : List (List Char) :=
  (str.splitOn ',').take 7

def isVolumeDigit (c : Char) : Bool :=
  '0' ≤ c ∧ c ≤ '9'

/-- The number in a field. -/
def fieldValue (field : List Char) : Int32 :=
  Int32.ofNat (Nat.ofDigitChars 10 field 0)

/-- A character before the seventh comma is no digit and no comma. -/
def Refused (str : List Char) : Prop :=
  ∃ field ∈ volumeFields str, ∃ c ∈ field, isVolumeDigit c = false

instance (str : List Char) : Decidable (Refused str) :=
  haveI : DecidablePred fun field : List Char ↦ ∃ c ∈ field, isVolumeDigit c = false :=
    fun field ↦ List.decidableBEx _ field
  List.decidableBEx _ (volumeFields str)

/-- The string has a number for a source that is not its volume. -/
def Changes (setting : VolumeLevel) (str : List Char) (k : ℕ) : Prop :=
  ∃ field, (volumeFields str)[k]? = some field ∧ field ≠ [] ∧ setting[k]? ≠ some (fieldValue field)

/-- The string restores the setting that it is written for, is refused as a whole, or sets the mixer
if it changes the setting. -/
structure TakesEffect (setting : VolumeLevel) (str : List Char) : Prop where
  restores : ∀ written : VolumeLevel, (∀ v ∈ written, 0 ≤ v.toInt) → str = getVolumeLevel written →
    (setVolumeLevel setting str).setting = written
  refused : Refused str →
    setVolumeLevel setting str = { rc := 0, setting := setting, updated := false }
  updated : ¬Refused str →
    ((setVolumeLevel setting str).updated = true ↔
      (setVolumeLevel setting str).setting ≠ setting)

/-! ### Fields -/

variable {setting vol : VolumeLevel} {str field rest : List Char} {fields : List (List Char)}
  {scan : VolumeScan} {c : Char} {j k n : ℕ}

theorem scanVolume_comma (scan : VolumeScan) (rest : List Char) :
    scanVolume scan (',' :: rest) =
      if scan.j + 1 ≥ 7 then some { vol := scan.put, j := scan.j + 1, v := 0, s := false }
      else scanVolume { vol := scan.put, j := scan.j + 1, v := 0, s := false } rest := by
  rw [scanVolume, if_pos rfl]

theorem scanVolume_digit (hc : isVolumeDigit c = true) (scan : VolumeScan) (rest : List Char) :
    scanVolume scan (c :: rest) =
      scanVolume { scan with v := scan.v * 10 + Int32.ofNat (c.toNat - '0'.toNat), s := true }
        rest := by
  have hne : c ≠ ',' := by
    rintro rfl
    exact absurd hc (by decide)
  rw [scanVolume, if_neg hne, if_pos (of_decide_eq_true hc)]

/-- A field of digits is read. -/
theorem scanVolume_field (hfield : ∀ c ∈ field, isVolumeDigit c = true) (vol : VolumeLevel)
    (j n : ℕ) (s : Bool) (rest : List Char) :
    scanVolume { vol := vol, j := j, v := Int32.ofNat n, s := s } (field ++ rest) =
      scanVolume { vol := vol, j := j, v := Int32.ofNat (Nat.ofDigitChars 10 field n)
                   s := s || !field.isEmpty } rest := by
  induction field generalizing n s with
  | nil => simp
  | cons c field ih =>
    obtain ⟨hc, hfield⟩ := List.forall_mem_cons.mp hfield
    have hvalue : Int32.ofNat n * 10 + Int32.ofNat (c.toNat - '0'.toNat) =
        Int32.ofNat (10 * n + (c.toNat - '0'.toNat)) := by
      rw [Int32.ofNat_add, Int32.ofNat_mul, Int32.mul_comm]
      rfl
    rw [List.cons_append, scanVolume_digit hc]
    dsimp only
    rw [hvalue, ih hfield, Nat.ofDigitChars_cons]
    simp

/-- A field with another character ends the scan. -/
theorem scanVolume_bad (hcomma : ',' ∉ field) (hbad : ∃ c ∈ field, isVolumeDigit c = false)
    (scan : VolumeScan) (rest : List Char) : scanVolume scan (field ++ rest) = none := by
  induction field generalizing scan with
  | nil =>
    obtain ⟨c, hc, -⟩ := hbad
    cases hc
  | cons c field ih =>
    rw [List.mem_cons, not_or] at hcomma
    rw [List.cons_append]
    cases hc : isVolumeDigit c with
    | true =>
      rw [scanVolume_digit hc]
      obtain ⟨d, hd, hbad⟩ := hbad
      rcases List.mem_cons.mp hd with rfl | hd
      · rw [hc] at hbad
        cases hbad
      · exact ih hcomma.2 ⟨d, hd, hbad⟩ _
    | false => rw [scanVolume, if_neg (Ne.symm hcomma.1), if_neg (of_decide_eq_false hc)]

/-- The setting with the fields put into it from source `j` on. -/
def putFields : ℕ → VolumeLevel → List (List Char) → VolumeLevel
  | _, vol, [] => vol
  | j, vol, field :: rest =>
    putFields (j + 1) (if field = [] then vol else vol.setIfInBounds j (fieldValue field)) rest

/-- A field that is read is put into the setting. -/
theorem put_field (j : ℕ) (vol : VolumeLevel) (field : List Char) :
    VolumeScan.put { vol := vol, j := j, v := fieldValue field, s := false || !field.isEmpty } =
      if field = [] then vol else vol.setIfInBounds j (fieldValue field) := by
  cases field <;> rfl

/-- The scan of a field with digits only and of the comma behind it. -/
theorem scanVolume_field_comma (hdigits : ∀ c ∈ field, isVolumeDigit c = true)
    (vol : VolumeLevel) (j : ℕ) (rest : List Char) :
    scanVolume { vol := vol, j := j, v := 0, s := false } (field ++ ',' :: rest) =
      let vol := if field = [] then vol else vol.setIfInBounds j (fieldValue field)
      if j + 1 ≥ 7 then some { vol := vol, j := j + 1, v := 0, s := false }
      else scanVolume { vol := vol, j := j + 1, v := 0, s := false } rest := by
  refine (scanVolume_field hdigits vol j 0 false (',' :: rest)).trans ?_
  rw [scanVolume_comma]
  dsimp only
  rw [← fieldValue, put_field]

/-- The scan of the last field of a string. -/
theorem scanVolume_lastField (hj : j < 7) (hcomma : ',' ∉ field) (vol : VolumeLevel) :
    ((∃ c ∈ field, isVolumeDigit c = false) ∧
        scanVolume { vol := vol, j := j, v := 0, s := false } field = none) ∨
      ((∀ c ∈ field, isVolumeDigit c = true) ∧
        ∃ scan, scanVolume { vol := vol, j := j, v := 0, s := false } field = some scan ∧
          scan.putLast = putFields j vol [field]) := by
  by_cases hdigits : ∀ c ∈ field, isVolumeDigit c = true
  · have hscan := scanVolume_field hdigits vol j 0 false []
    rw [List.append_nil] at hscan
    refine .inr ⟨hdigits, _, hscan, ?_⟩
    rw [VolumeScan.putLast, if_pos hj]
    exact put_field j vol field
  · simp only [not_forall, Bool.not_eq_true, exists_prop] at hdigits
    have hnone := scanVolume_bad hcomma hdigits { vol := vol, j := j, v := 0, s := false } []
    rw [List.append_nil] at hnone
    exact .inl ⟨hdigits, hnone⟩

/-- The scan from source `j` on puts in the fields, or one of them has another character. -/
theorem scanVolume_fields (hj : j < 7) (vol : VolumeLevel) (str : List Char) :
    ((∃ field ∈ (str.splitOn ',').take (7 - j), ∃ c ∈ field, isVolumeDigit c = false) ∧
        scanVolume { vol := vol, j := j, v := 0, s := false } str = none) ∨
      ((∀ field ∈ (str.splitOn ',').take (7 - j), ∀ c ∈ field, isVolumeDigit c = true) ∧
        ∃ scan, scanVolume { vol := vol, j := j, v := 0, s := false } str = some scan ∧
          scan.putLast = putFields j vol ((str.splitOn ',').take (7 - j))) := by
  induction hn : 7 - j generalizing j vol str with
  | zero => omega
  | succ n ih =>
    rcases blank_or_exists (· != ',') str with hall | ⟨field, c, rest, rfl, hfield, hc⟩
    · have hcomma : ',' ∉ str := fun hmem ↦ absurd (hall _ hmem) (by decide)
      rw [List.splitOn_eq_singleton hcomma, List.take_succ_cons, List.take_nil]
      rcases scanVolume_lastField hj hcomma vol with ⟨hbad, hnone⟩ | ⟨hdigits, hscan⟩
      · exact .inl ⟨⟨str, List.mem_singleton_self str, hbad⟩, hnone⟩
      · exact .inr ⟨List.forall_mem_singleton.mpr hdigits, hscan⟩
    · have hcomma : ',' ∉ field := fun hmem ↦ absurd (hfield _ hmem) (by decide)
      obtain rfl : c = ',' := by simpa using hc
      rw [List.splitOn_append_cons_self_of_not_mem hcomma, List.take_succ_cons]
      by_cases hdigits : ∀ c ∈ field, isVolumeDigit c = true
      · rw [scanVolume_field_comma hdigits]
        dsimp only
        by_cases hend : j + 1 ≥ 7
        · rw [if_pos hend]
          obtain rfl : n = 0 := by omega
          refine .inr ⟨?_, _, rfl, ?_⟩
          · rw [List.take_zero]
            exact List.forall_mem_singleton.mpr hdigits
          · rw [VolumeScan.putLast, if_neg (Nat.not_lt.mpr hend)]
            rfl
        · rw [if_neg hend]
          rcases ih (Nat.lt_of_not_le hend) _ rest (by omega) with
            ⟨⟨bad, hmem, hbad⟩, hnone⟩ | ⟨hall, scan, hrun, hput⟩
          · exact .inl ⟨⟨bad, List.mem_cons_of_mem _ hmem, hbad⟩, hnone⟩
          · exact .inr ⟨List.forall_mem_cons.mpr ⟨hdigits, hall⟩, scan, hrun, hput⟩
      · simp only [not_forall, Bool.not_eq_true, exists_prop] at hdigits
        exact .inl ⟨⟨field, List.mem_cons_self, hdigits⟩, scanVolume_bad hcomma hdigits _ _⟩

/-- The volume of a source with a field, which may be left out. -/
def fieldAt (old : Option Int32) (field : Option (List Char)) : Option Int32 :=
  match field with
  | some field => if field = [] then old else some (fieldValue field)
  | none => old

/-- What becomes of a source. -/
theorem getElem?_putFields (hlength : j + fields.length ≤ 7) (vol : VolumeLevel) (k : ℕ) :
    (putFields j vol fields)[k]? =
      if j ≤ k then fieldAt vol[k]? fields[k - j]? else vol[k]? := by
  induction fields generalizing j vol with
  | nil =>
    rw [putFields, List.getElem?_nil]
    split_ifs <;> rfl
  | cons field fields ih =>
    rw [List.length_cons] at hlength
    rw [putFields, ih (by omega)]
    rcases Nat.lt_trichotomy k j with hk | rfl | hk
    · rw [if_neg (show ¬j + 1 ≤ k by omega), if_neg (show ¬j ≤ k by omega)]
      split_ifs
      · rfl
      · rw [Vector.getElem?_setIfInBounds_ne (by omega)]
    · rw [if_neg (show ¬k + 1 ≤ k by omega), if_pos (Nat.le_refl k), Nat.sub_self,
        List.getElem?_cons_zero, fieldAt]
      split_ifs
      · rfl
      · rw [Vector.getElem?_setIfInBounds_self_of_lt (show k < 7 by omega)]
    · have hsub : k - j = k - (j + 1) + 1 := by omega
      rw [if_pos (show j + 1 ≤ k by omega), if_pos (show j ≤ k by omega), hsub,
        List.getElem?_cons_succ]
      split_ifs
      · rfl
      · rw [Vector.getElem?_setIfInBounds_ne (by omega)]

/-- What a string that is accepted does. -/
theorem setVolumeLevel_cases (setting : VolumeLevel) (str : List Char) :
    (Refused str ∧ setVolumeLevel setting str = { rc := 0, setting := setting, updated := false }) ∨
      (¬Refused str ∧ setVolumeLevel setting str =
        { rc := 1, setting := putFields 0 setting (volumeFields str)
          updated := sumChanged (putFields 0 setting (volumeFields str)) setting ≠ 0 }) := by
  rcases scanVolume_fields (j := 0) (by omega) setting str with
    ⟨hbad, hnone⟩ | ⟨hall, scan, hrun, hput⟩
  · refine .inl ⟨hbad, ?_⟩
    rw [setVolumeLevel, hnone]
  · refine .inr ⟨?_, ?_⟩
    · rintro ⟨field, hmem, c, hc, hbad⟩
      rw [hall field hmem c hc] at hbad
      cases hbad
    · rw [setVolumeLevel, hrun]
      dsimp only
      rw [hput]
      rfl

/-! ### Changes -/

theorem length_volumeFields (str : List Char) : (volumeFields str).length ≤ 7 :=
  List.length_take_le 7 _

/-- A source changes if its field has another number. -/
theorem putFields_ne_iff (setting : VolumeLevel) (str : List Char) (k : ℕ) :
    (putFields 0 setting (volumeFields str))[k]? ≠ setting[k]? ↔ Changes setting str k := by
  have hlength := length_volumeFields str
  rw [getElem?_putFields (by omega), if_pos (Nat.zero_le k), Nat.sub_zero, Changes]
  cases hfield : (volumeFields str)[k]? with
  | none => simp [fieldAt]
  | some field =>
    by_cases hempty : field = []
    · simp [fieldAt, hempty]
    · simp [fieldAt, hempty, eq_comm]

/-- A sum over some of the indices. -/
theorem foldl_index_ne_zero_iff (p : ℕ → Prop) [DecidablePred p] (indices : List ℕ) (sum : ℕ) :
    indices.foldl (fun sum i ↦ if p i then sum + i else sum) sum ≠ 0 ↔
      sum ≠ 0 ∨ ∃ i ∈ indices, p i ∧ i ≠ 0 := by
  induction indices generalizing sum with
  | nil => simp
  | cons i indices ih =>
    have hfirst : (if p i then sum + i else sum) ≠ 0 ↔ sum ≠ 0 ∨ p i ∧ i ≠ 0 := by
      by_cases hp : p i
      · rw [if_pos hp]
        simp only [hp, true_and]
        omega
      · rw [if_neg hp]
        simp only [hp, false_and, or_false]
    simp only [List.foldl_cons, ih, hfirst, List.mem_cons, or_and_right, exists_or,
      exists_eq_left, or_assoc]

/-- The sum is zero if nothing has changed but source `0`. -/
theorem sumChanged_ne_zero_iff (vol setting : VolumeLevel) :
    sumChanged vol setting ≠ 0 ↔ ∃ k, 1 ≤ k ∧ k < 7 ∧ vol[k]? ≠ setting[k]? := by
  rw [sumChanged, foldl_index_ne_zero_iff fun i ↦ vol[i]? ≠ setting[i]?]
  simp only [ne_eq, not_true_eq_false, false_or, List.mem_range]
  constructor
  · rintro ⟨k, hk, hne, hzero⟩
    exact ⟨k, Nat.one_le_iff_ne_zero.mpr hzero, hk, hne⟩
  · rintro ⟨k, hone, hk, hne⟩
    exact ⟨k, hk, hne, Nat.one_le_iff_ne_zero.mp hone⟩

/-- The setting is another one if a source has changed. -/
theorem ne_iff_exists_source (vol setting : VolumeLevel) :
    vol ≠ setting ↔ ∃ k < 7, vol[k]? ≠ setting[k]? := by
  rw [← not_iff_not, not_not, not_exists]
  constructor
  · rintro rfl k ⟨-, hne⟩
    exact hne rfl
  · intro hall
    refine Vector.ext fun k hk ↦ ?_
    have hsame : vol[k]? = setting[k]? := by
      by_contra hne
      exact hall k ⟨hk, hne⟩
    rw [Vector.getElem?_eq_getElem hk, Vector.getElem?_eq_getElem hk] at hsame
    exact Option.some.inj hsame

/-! ### The round trip -/

theorem printInt_of_nonneg {v : Int32} (hv : 0 ≤ v.toInt) :
    printInt v = Nat.toDigits 10 v.toInt.natAbs := by
  rw [printInt, if_neg (by omega)]

theorem isVolumeDigit_of_mem {v : Int32} (hv : 0 ≤ v.toInt) (hc : c ∈ printInt v) :
    isVolumeDigit c = true := by
  rw [printInt_of_nonneg hv] at hc
  have hdigit : c.isDigit = true := Nat.isDigit_of_mem_toDigits (by omega) (by omega) hc
  rw [Char.isDigit, Bool.and_eq_true] at hdigit
  exact decide_eq_true ⟨of_decide_eq_true hdigit.1, of_decide_eq_true hdigit.2⟩

theorem fieldValue_printInt {v : Int32} (hv : 0 ≤ v.toInt) : fieldValue (printInt v) = v := by
  rw [printInt_of_nonneg hv, fieldValue, Nat.ofDigitChars_ten_toDigits, ← Int32.ofInt_eq_ofNat,
    Int.natAbs_of_nonneg hv, Int32.ofInt_toInt]

/-- The fields of the string of a setting are the numbers of the sources. -/
theorem volumeFields_getVolumeLevel {written : VolumeLevel}
    (hwritten : ∀ v ∈ written, 0 ≤ v.toInt) :
    volumeFields (getVolumeLevel written) = written.toList.map printInt := by
  have hcomma : ∀ field ∈ written.toList.map printInt, ',' ∉ field := by
    intro field hfield hmem
    obtain ⟨v, hv, rfl⟩ := List.mem_map.mp hfield
    exact absurd (isVolumeDigit_of_mem (hwritten v (Vector.mem_toList_iff.mp hv)) hmem) (by decide)
  have hlength : (written.toList.map printInt).length = 7 := by
    rw [List.length_map, Vector.length_toList]
  rw [volumeFields, getVolumeLevel, List.splitOn_intercalate _ hcomma, ← hlength, List.take_length]
  intro hnil
  rw [hnil] at hlength
  cases hlength

/-- The string of a setting restores it. -/
theorem setVolumeLevel_getVolumeLevel (setting : VolumeLevel) {written : VolumeLevel}
    (hwritten : ∀ v ∈ written, 0 ≤ v.toInt) :
    (setVolumeLevel setting (getVolumeLevel written)).setting = written := by
  have hfields := volumeFields_getVolumeLevel hwritten
  rcases setVolumeLevel_cases setting (getVolumeLevel written) with ⟨hrefused, -⟩ | ⟨-, hset⟩
  · obtain ⟨field, hmem, c, hc, hbad⟩ := hrefused
    rw [hfields] at hmem
    obtain ⟨v, hv, rfl⟩ := List.mem_map.mp hmem
    rw [isVolumeDigit_of_mem (hwritten v (Vector.mem_toList_iff.mp hv)) hc] at hbad
    cases hbad
  · have hlength := length_volumeFields (getVolumeLevel written)
    rw [hset]
    refine Vector.ext fun k hk ↦ ?_
    have hat : (putFields 0 setting (volumeFields (getVolumeLevel written)))[k]? = written[k]? := by
      have hv : 0 ≤ written[k].toInt := hwritten _ (Vector.getElem_mem hk)
      have hne : printInt written[k] ≠ [] := by
        rw [printInt_of_nonneg hv]
        exact Nat.toDigits_ne_nil
      have hget : written[k]? = some written[k] := Vector.getElem?_eq_getElem hk
      rw [getElem?_putFields (by omega), if_pos (Nat.zero_le k), Nat.sub_zero, hfields,
        List.getElem?_map, Vector.getElem?_toList, hget, Option.map_some, fieldAt, if_neg hne,
        fieldValue_printInt hv]
    rw [Vector.getElem?_eq_getElem hk, Vector.getElem?_eq_getElem hk] at hat
    exact Option.some.inj hat

/-! ### All strings -/

/-- A string takes effect as it should if and only if it is refused or not only source `0` is given
another volume. -/
theorem takesEffect_iff (setting : VolumeLevel) (str : List Char) :
    TakesEffect setting str ↔
      (Refused str ∨ ¬(Changes setting str 0 ∧ ∀ k, 1 ≤ k → k < 7 → ¬Changes setting str k)) := by
  have hrestores (written : VolumeLevel) (hwritten : ∀ v ∈ written, 0 ≤ v.toInt)
      (hstr : str = getVolumeLevel written) : (setVolumeLevel setting str).setting = written := by
    rw [hstr]
    exact setVolumeLevel_getVolumeLevel setting hwritten
  rcases setVolumeLevel_cases setting str with ⟨hrefused, hset⟩ | ⟨hnot, hset⟩
  · exact iff_of_true ⟨hrestores, fun _ ↦ hset, fun h ↦ absurd hrefused h⟩ (.inl hrefused)
  · have hsource (k : ℕ) := putFields_ne_iff setting str k
    have hupdated : (setVolumeLevel setting str).updated = true ↔
        ∃ k, 1 ≤ k ∧ k < 7 ∧ Changes setting str k := by
      rw [hset, decide_eq_true_iff, sumChanged_ne_zero_iff]
      simp only [hsource]
    have hsetting : (setVolumeLevel setting str).setting ≠ setting ↔
        Changes setting str 0 ∨ ∃ k, 1 ≤ k ∧ k < 7 ∧ Changes setting str k := by
      rw [hset, ne_iff_exists_source]
      simp only [hsource]
      constructor
      · rintro ⟨k, hk, hchanges⟩
        rcases Nat.eq_zero_or_pos k with rfl | hpos
        · exact .inl hchanges
        · exact .inr ⟨k, hpos, hk, hchanges⟩
      · rintro (hchanges | ⟨k, -, hk, hchanges⟩)
        · exact ⟨0, by omega, hchanges⟩
        · exact ⟨k, hk, hchanges⟩
    constructor
    · intro heffect
      refine .inr ?_
      rintro ⟨hfirst, hothers⟩
      have hcalled := (heffect.updated hnot).mpr (hsetting.mpr (.inl hfirst))
      obtain ⟨k, hone, hk, hchanges⟩ := hupdated.mp hcalled
      exact hothers k hone hk hchanges
    · intro hcondition
      refine ⟨hrestores, fun h ↦ absurd h hnot, fun _ ↦ ?_⟩
      rw [hupdated, hsetting]
      constructor
      · exact .inr
      · rintro (hfirst | hothers)
        · by_contra hnone
          refine (hcondition.resolve_left hnot) ⟨hfirst, fun k hone hk hchanges ↦ ?_⟩
          exact hnone ⟨k, hone, hk, hchanges⟩
        · exact hothers

/-- A louder source `0` is stored, but the mixer is not set. -/
theorem not_takesEffect_first : ¬TakesEffect #v[0, 0, 0, 0, 0, 0, 0] "50".toList := by
  intro heffect
  have hset : setVolumeLevel #v[0, 0, 0, 0, 0, 0, 0] "50".toList =
      { rc := 1, setting := #v[50, 0, 0, 0, 0, 0, 0], updated := false } := by decide
  have hupdated := heffect.updated (by decide)
  rw [hset] at hupdated
  exact absurd (hupdated.mpr (by decide)) Bool.false_ne_true

end Katmai.Holktv
