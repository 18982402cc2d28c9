import Katmai.Mactable.MacTable

/-!
# Asking for the address of an entry

`mctblVerify` looks at the first line of the output of `arp` that matches and whose second group is
not too long. What it should make of an entry is `verifiedEntry`: it takes over an address of six
bytes, and leaves the entry alone where the text is none. The group may be any text of digits and
colons, and where `macstr_pack` returns `NULL` for it, the comparison reads through that pointer
(`mctblVerify_tolerates_iff`).
-/

set_option autoImplicit false
set_option relaxedAutoImplicit false

namespace Katmai.Mactable

open Foundation

/-- The first text of usable length in the lines. -/
def firstUsable (lines : List (List Char)) : Option (List Char) :=
  (lines.filterMap usableText).head?

/-- The address in a text: its first six bytes, if there are so many. -/
def addressIn (macstr : List Char) : Option (List (BitVec 8)) :=
  readBytes 6 none macstr

/-- The entry and the mark of a change behind a tolerant look at the lines. -/
def verifiedEntry (e : IpmacTable) (haveChanged : Bool) (lines : List (List Char)) :
    IpmacTable × Bool :=
  match (firstUsable lines).bind addressIn with
  | some mac => ({ e with mac := mac, verified := true }, haveChanged || mac != e.mac)
  | none => (e, haveChanged)

/-- The table behind a tolerant look at the output for an entry. -/
def verifiedTable (output : List Char) (self : MacTable) (n : ℤ) : MacTable :=
  match if n < 0 then none else self.ipmac[n.toNat]? with
  | some e =>
    if e.inuse then
      { self with
        ipmac := self.ipmac.set n.toNat
          (verifiedEntry e self.haveChanged (fgetsLines 512 output)).1
        haveChanged := (verifiedEntry e self.haveChanged (fgetsLines 512 output)).2 }
    else self
  | none => self

/-- The function ends without a fault, and has made of the table what it should. -/
def Tolerates (output : List Char) (self : MacTable) (n : ℤ) : Prop :=
  mctblVerify (some output) self n = .ok (verifiedTable output self n)

/-- The first text of usable length is an address. -/
def UsableIsAddress (lines : List (List Char)) : Prop :=
  ∀ macstr, firstUsable lines = some macstr → (addressIn macstr).isSome

variable {line macstr : List Char} {lines : List (List Char)} {e : IpmacTable} {haveChanged : Bool}

theorem firstUsable_cons_none (hline : usableText line = none) :
    firstUsable (line :: lines) = firstUsable lines := by
  rw [firstUsable, List.filterMap_cons_none hline, firstUsable]

theorem firstUsable_cons_some (hline : usableText line = some macstr) :
    firstUsable (line :: lines) = some macstr := by
  rw [firstUsable, List.filterMap_cons_some hline, List.head?_cons]

theorem verifyLines_cons_none (hline : usableText line = none) :
    verifyLines e haveChanged (line :: lines) = verifyLines e haveChanged lines := by
  rw [verifyLines, hline]

theorem verifyLines_cons_null (hline : usableText line = some macstr)
    (hmac : packedAddress macstr = none) :
    verifyLines e haveChanged (line :: lines) = .error .nullPointer := by
  rw [verifyLines, hline]
  simp only [hmac]

theorem verifyLines_cons_address {mac : List (BitVec 8)} (hline : usableText line = some macstr)
    (hmac : packedAddress macstr = some mac) :
    verifyLines e haveChanged (line :: lines) =
      .ok ({ e with mac := mac, verified := true }, haveChanged || mac != e.mac) := by
  rw [verifyLines, hline]
  simp only [hmac]
  by_cases heq : mac = e.mac
  · subst heq
    rw [if_neg (not_not.mpr rfl), bne_self_eq_false, Bool.or_false]
  · rw [if_pos heq, bne_iff_ne.mpr heq, Bool.or_true]

/-- The loop, by the first text of usable length. -/
theorem verifyLines_cases (e : IpmacTable) (haveChanged : Bool) (lines : List (List Char)) :
    verifyLines e haveChanged lines = .ok (verifiedEntry e haveChanged lines) ∧
        UsableIsAddress lines ∨
      verifyLines e haveChanged lines = .error .nullPointer ∧ ¬UsableIsAddress lines := by
  induction lines with
  | nil => exact .inl ⟨rfl, fun macstr h ↦ absurd h (by simp [firstUsable])⟩
  | cons line lines ih =>
    cases hline : usableText line with
    | none =>
      rw [verifyLines_cons_none hline, verifiedEntry, UsableIsAddress, firstUsable_cons_none hline]
      exact ih
    | some macstr =>
      have hfirst : firstUsable (line :: lines) = some macstr := firstUsable_cons_some hline
      cases hmac : packedAddress macstr with
      | none =>
        refine .inr ⟨verifyLines_cons_null hline hmac, fun husable ↦ ?_⟩
        have hsome := husable macstr hfirst
        rw [addressIn, ← packedAddress_eq, hmac] at hsome
        exact Bool.false_ne_true hsome
      | some mac =>
        have haddress : addressIn macstr = some mac := (packedAddress_eq macstr).symm.trans hmac
        refine .inl ⟨?_, fun other hother ↦ ?_⟩
        · rw [verifyLines_cons_address hline hmac, verifiedEntry, hfirst, Option.bind_some,
            haddress]
        · rw [Option.some.inj (hother.symm.trans hfirst), haddress]
          rfl

/-- For every table and entry and everything that `arp` prints: the entry is handled as it should
if and only if it is none in use, or the first text of usable length is an address. -/
theorem mctblVerify_tolerates_iff (output : List Char) (self : MacTable) (n : ℤ) :
    Tolerates output self n ↔
      ((∃ e, 0 ≤ n ∧ self.ipmac[n.toNat]? = some e ∧ e.inuse = true) →
        UsableIsAddress (fgetsLines 512 output)) := by
  unfold Tolerates mctblVerify verifiedTable
  by_cases hneg : n < 0
  · rw [if_pos hneg, if_pos hneg]
    exact iff_of_true rfl fun ⟨e, hpos, _⟩ ↦ absurd hneg (Int.not_lt.mpr hpos)
  rw [if_neg hneg, if_neg hneg]
  cases he : self.ipmac[n.toNat]? with
  | none => exact iff_of_true rfl fun ⟨e, _, hsome, _⟩ ↦ by cases hsome
  | some e =>
    cases huse : e.inuse with
    | false =>
      refine iff_of_true (by simp [huse]) ?_
      rintro ⟨e', -, hsome, huse'⟩
      rw [← Option.some.inj hsome, huse] at huse'
      exact absurd huse' Bool.false_ne_true
    | true =>
      have hcond : (∃ e', 0 ≤ n ∧ some e = some e' ∧ e'.inuse = true) :=
        ⟨e, Int.not_lt.mp hneg, rfl, huse⟩
      simp only [huse, Bool.not_true, Bool.false_eq_true, if_false, if_true]
      rcases verifyLines_cases e self.haveChanged (fgetsLines 512 output) with
        ⟨hok, husable⟩ | ⟨herror, hnot⟩
      · rw [hok]
        exact iff_of_true rfl fun _ ↦ husable
      · rw [herror]
        exact iff_of_false (fun h ↦ by cases h) fun h ↦ hnot (h hcond)

/-- A table with one entry. -/
def oneEntry : MacTable where
  usecnt := 1
  haveChanged := false
  ipmac := [{ ip := 1, mac := List.replicate 6 0, inuse := true, verified := false, idx := -1 }]

/-- A line with an address of two groups. -/
theorem not_tolerates_twoGroups :
    ¬Tolerates ['(', '1', ')', ' ', 'a', 't', ' ', '0', ':', '1', ' ', '\n'] oneEntry 0 := by
  unfold Tolerates
  decide

end Katmai.Mactable
