import Katmai.Regexlib.MatchStrings

/-!
# Strings of the last match

After a match the object should show the text of the groups of this match, and a block should be
released at most once (`Lawful`). `rlExec` writes the groups that take part and leaves the others as
they are (`rlVar_execGroups`), and behind `rlCleanup` the pointer to the released array is still
there (`Sound.cleanup`). What is asked of the calls is `Harmless`: no group without a text takes
over an older one, and nothing is cleaned up twice (`lastMatch_iff`).
-/

set_option autoImplicit false
set_option relaxedAutoImplicit false

namespace Katmai.Regexlib

open Foundation

variable {self : RegexlibT} {posix : Posix} {str : List Char} {memory : Memory} {call : Call}
  {groups : ℕ → Option (ℕ × ℕ)}

/-! ### What a call should do -/

/-- The call shows the groups of its match, and no block is released twice. -/
def Lawful (posix : Posix) (self : RegexlibT) : Call → Prop
  | .exec str =>
    (∀ groups, 0 < (rlExec posix self str).1 → posix.regexec self.preg str = some groups →
      ∀ i : ℕ, i < (rlExec posix self str).1 →
        rlVar (rlExec posix self str).2 i = (groups i).map (groupText str)) ∧
      (rlExec posix self str).2.released.Nodup
  | .regex str memory => (rlRegex posix self str memory).2.released.Nodup
  | .cleanup => (rlCleanup self).released.Nodup

/-- There is no array, or it was not cleaned up. -/
def Uncleaned (self : RegexlibT) : Prop :=
  self.mstr = none ∨ self.mstrlen ≠ 0

/-- Nothing is cleaned up twice, and a group that takes no part in the match has no text. -/
def Harmless (posix : Posix) (self : RegexlibT) : Call → Prop
  | .exec str => ∀ groups, self.havePreg = true → posix.regexec self.preg str = some groups →
    ∀ i < self.mstrlen, groups i = none → rlVar self i = none
  | .regex str memory => Uncleaned self ∧
    (memory = .noPmatch → posix.regcomp str ≠ none → self.mstr = none)
  | .cleanup => Uncleaned self

/-! ### Cleaning up once and twice -/

theorem mem_owned_of_mstr {id : ℕ} (hid : self.mstr = some id) : id ∈ owned self := by
  simp [owned, hid]

theorem Sound.mstrlen_eq_zero (hsound : Sound self) (hmstr : self.mstr = none) :
    self.mstrlen = 0 :=
  hsound.shape.elim (fun hready ↦ absurd hmstr hready.mstr) fun hidle ↦ hidle.1.mstrlen

theorem Sound.idle (hsound : Sound self) : Idle (rlCleanup self) :=
  idle_rlCleanup hsound.mstrlen_eq_zero

theorem Sound.cleanup (hsound : Sound self) (huncleaned : Uncleaned self) :
    Sound (rlCleanup self) := by
  rcases hsound.shape with hready | ⟨hidle, -⟩
  · constructor
    · exact released_rlCleanup self ▸ hready.nodup
    · intro id hid
      rw [released_rlCleanup, List.mem_append] at hid
      rw [next_rlCleanup]
      exact hid.elim (hsound.released_lt id) (hready.owned_lt id)
    · refine .inr ⟨hsound.idle, fun id hid ↦ ?_⟩
      rw [mstr_rlCleanup] at hid
      rw [released_rlCleanup]
      exact List.mem_append_right _ (mem_owned_of_mstr hid)
  · have hmstr : self.mstr = none := huncleaned.resolve_right fun h ↦ h hidle.mstrlen
    have hreleased : (rlCleanup self).released = self.released := by
      rw [released_rlCleanup, hidle.owned_eq, hmstr]
      exact List.append_nil _
    constructor
    · exact hreleased ▸ hsound.released_nodup
    · rw [hreleased, next_rlCleanup]
      exact hsound.released_lt
    · refine .inr ⟨hsound.idle, fun id hid ↦ ?_⟩
      rw [mstr_rlCleanup, hmstr] at hid
      cases hid

theorem Sound.cleanup_twice (hsound : Sound self) (hnot : ¬Uncleaned self) :
    ¬(rlCleanup self).released.Nodup := by
  obtain ⟨hmstr, hlen⟩ := not_or.mp hnot
  rcases hsound.shape with hready | ⟨hidle, hgone⟩
  · exact absurd (hready.mstrlen.symm.trans (not_not.mp hlen)) (Nat.succ_ne_zero _)
  · obtain ⟨id, hid⟩ := Option.ne_none_iff_exists'.mp hmstr
    rw [released_rlCleanup, hidle.owned_eq, hid]
    intro hnodup
    exact (List.nodup_append.mp hnodup).2.2 id (hgone id hid) id List.mem_cons_self rfl

/-! ### Compiling a pattern -/

/-- A cleaned object with another pattern, without a block for the matches. -/
theorem Sound.noPmatch (hsound : Sound self) (hidle : Idle self) (nsub : ℕ) (str : List Char) :
    Sound { self with preg := str, nsub := nsub, pmatch := none } where
  released_nodup := hsound.released_nodup
  released_lt := hsound.released_lt
  shape := by
    refine .inr ⟨⟨hidle.regex, rfl, hidle.havePreg, hidle.mstrlen⟩, fun id hid ↦ ?_⟩
    rcases hsound.shape with hready | ⟨-, hgone⟩
    · exact absurd (hready.havePreg.symm.trans hidle.havePreg) Bool.noConfusion
    · exact hgone id hid

/-- A cleaned object with a new block for the matches only. -/
theorem Sound.noMstr (hsound : Sound self) (hidle : Idle self) (nsub : ℕ) (str : List Char) :
    Sound (rlCleanup { self with
      preg := str, nsub := nsub, pmatch := some self.next, mstr := none,
      next := self.next + 1 }) := by
  have hreleased : (rlCleanup { self with
      preg := str, nsub := nsub, pmatch := some self.next, mstr := none,
      next := self.next + 1 }).released = self.released ++ [self.next] := by
    simp [released_rlCleanup, owned, hidle.regex]
  constructor
  · rw [hreleased]
    refine List.nodup_append.mpr ⟨hsound.released_nodup, List.nodup_singleton _, ?_⟩
    intro id hid other hother
    rw [List.mem_singleton.mp hother]
    exact Nat.ne_of_lt (hsound.released_lt id hid)
  · intro id hid
    rw [hreleased, List.mem_append, List.mem_singleton] at hid
    rw [next_rlCleanup]
    rcases hid with hid | rfl
    · exact Nat.lt_succ_of_lt (hsound.released_lt id hid)
    · exact Nat.lt_succ_self _
  · refine .inr ⟨idle_rlCleanup fun _ ↦ hidle.mstrlen, fun id hid ↦ ?_⟩
    rw [mstr_rlCleanup] at hid
    cases hid

/-- A cleaned object with a compiled pattern and new blocks. -/
theorem Sound.compiled (hsound : Sound self) (nsub : ℕ) (str : List Char) :
    Sound { self with
      preg := str, nsub := nsub, pmatch := some self.next, mstr := some (self.next + 1)
      mstrlen := nsub + 1, strings := List.replicate (nsub + 1) none
      regex := some (self.next + 2), havePreg := true, next := self.next + 3 } := by
  have howned : owned { self with
      preg := str, nsub := nsub, pmatch := some self.next, mstr := some (self.next + 1)
      mstrlen := nsub + 1, strings := List.replicate (nsub + 1) none
      regex := some (self.next + 2), havePreg := true, next := self.next + 3 } =
        [self.next + 1, self.next + 2, self.next] := by
    simp [owned, stringIds]
  have hmem {id : ℕ} (hid : id ∈ [self.next + 1, self.next + 2, self.next]) :
      self.next ≤ id ∧ id < self.next + 3 := by
    simp only [List.mem_cons, List.not_mem_nil, or_false] at hid
    omega
  refine ⟨hsound.released_nodup, fun id hid ↦ ?_,
    .inl ⟨rfl, Option.some_ne_none _, rfl, ?_, ?_, ?_⟩⟩
  · exact Nat.lt_add_right 3 (hsound.released_lt id hid)
  · exact List.length_replicate
  · rw [howned]
    refine List.nodup_append.mpr ⟨hsound.released_nodup, by simp, fun id hid other hother ↦ ?_⟩
    exact Nat.ne_of_lt (Nat.lt_of_lt_of_le (hsound.released_lt id hid) (hmem hother).1)
  · rw [howned]
    exact fun id hid ↦ (hmem hid).2

theorem Sound.regex (hsound : Sound self) (hharmless : Harmless posix self (.regex str memory)) :
    Sound (rlRegex posix self str memory).2 := by
  have hclean := hsound.cleanup hharmless.1
  rw [rlRegex]
  cases hcomp : posix.regcomp str with
  | none => exact hclean
  | some nsub =>
    cases memory with
    | noPmatch =>
      have hmstr : self.mstr = none := hharmless.2 rfl (by rw [hcomp]; exact Option.some_ne_none _)
      exact (hclean.noPmatch hsound.idle nsub str).cleanup
        (.inl ((mstr_rlCleanup self).trans hmstr))
    | noMstr => exact hclean.noMstr hsound.idle nsub str
    | enough => exact hclean.compiled nsub str

theorem prefix_rlCleanup (self : RegexlibT) : self.released <+: (rlCleanup self).released :=
  ⟨owned self, (released_rlCleanup self).symm⟩

/-- What the first cleaning up released stays released. -/
theorem released_rlRegex (posix : Posix) (self : RegexlibT) (str : List Char) (memory : Memory) :
    (rlCleanup self).released <+: (rlRegex posix self str memory).2.released := by
  rw [rlRegex]
  cases posix.regcomp str with
  | none => exact List.prefix_rfl
  | some nsub =>
    cases memory with
    | noPmatch =>
      exact prefix_rlCleanup { rlCleanup self with preg := str, nsub := nsub, pmatch := none }
    | noMstr =>
      exact prefix_rlCleanup { rlCleanup self with
        preg := str, nsub := nsub, pmatch := some (rlCleanup self).next, mstr := none
        next := (rlCleanup self).next + 1 }
    | enough => exact List.prefix_rfl

theorem Sound.regex_twice (hsound : Sound self)
    (hnot : ¬Harmless posix self (.regex str memory)) :
    ¬(rlRegex posix self str memory).2.released.Nodup := by
  intro hnodup
  have huncleaned : Uncleaned self := by
    by_contra hcleaned
    exact hsound.cleanup_twice hcleaned (hnodup.sublist (released_rlRegex _ _ _ _).sublist)
  -- The second cleaning up is the one behind a failed allocation.
  refine hnot ⟨huncleaned, fun hmemory hcomp ↦ ?_⟩
  obtain ⟨nsub, hnsub⟩ := Option.ne_none_iff_exists'.mp hcomp
  have hclean := hsound.cleanup huncleaned
  subst hmemory
  rw [rlRegex, hnsub] at hnodup
  by_contra hmstr
  refine (hclean.noPmatch hsound.idle nsub str).cleanup_twice ?_ hnodup
  rintro (hnone | hlen)
  · exact hmstr ((mstr_rlCleanup self).symm.trans hnone)
  · exact hlen hsound.idle.mstrlen

/-! ### Matching -/

variable {group : ℕ × ℕ} {i j n : ℕ}

/-- A new string takes the place of the one that was there. -/
theorem stringIds_set {strings : List (Option MatchString)} (hi : i < strings.length)
    (new : MatchString) :
    ∃ kept, (stringIds (strings.set i (some new))).Perm (new.id :: kept) ∧
      kept.Sublist (stringIds strings) := by
  induction strings generalizing i with
  | nil => exact absurd hi (Nat.not_lt_zero i)
  | cons entry strings ih =>
    cases i with
    | zero =>
      refine ⟨stringIds strings, .refl _, ?_⟩
      cases entry with
      | none => exact List.Sublist.refl _
      | some old => exact List.sublist_cons_self _ _
    | succ i =>
      obtain ⟨kept, hperm, hsub⟩ := ih (Nat.lt_of_succ_lt_succ hi)
      cases entry with
      | none => exact ⟨kept, hperm, hsub⟩
      | some old =>
        exact ⟨old.id :: kept, (hperm.cons old.id).trans (List.Perm.swap _ _ _), hsub.cons_cons _⟩

theorem owned_of_mstr {id : ℕ} (hid : self.mstr = some id)
    (hlength : self.strings.length = self.mstrlen) :
    owned self = stringIds self.strings ++ (id :: (self.regex.toList ++ self.pmatch.toList)) := by
  rw [owned, hid, ← hlength, List.take_length, Option.elim_some, List.append_assoc,
    List.singleton_append]

/-- A string that is stored is the object's own, as all others are. -/
theorem Ready.storeGroup (hready : Ready self) (hi : i < self.mstrlen)
    (hlt : ∀ id ∈ self.released, id < self.next) : Ready (storeGroup str i group self) := by
  obtain ⟨id, hid⟩ := Option.ne_none_iff_exists'.mp hready.mstr
  have hlength : (Regexlib.storeGroup str i group self).strings.length = self.mstrlen :=
    (List.length_set ..).trans hready.length_strings
  obtain ⟨kept, hperm, hsub⟩ := stringIds_set
    (show i < self.strings.length from hready.length_strings ▸ hi)
    { id := self.next, text := groupText str group }
  have howned := owned_of_mstr hid hready.length_strings
  have hsub' : (kept ++ (id :: (self.regex.toList ++ self.pmatch.toList))).Sublist (owned self) :=
    howned ▸ hsub.append (List.Sublist.refl _)
  have howned' : (owned (Regexlib.storeGroup str i group self)).Perm
      (self.next :: (kept ++ (id :: (self.regex.toList ++ self.pmatch.toList)))) := by
    rw [owned_of_mstr (show (Regexlib.storeGroup str i group self).mstr = some id from hid) hlength]
    exact hperm.append_right _
  refine ⟨hready.havePreg, hready.mstr, hready.mstrlen, hlength, ?_, fun other hother ↦ ?_⟩
  · refine ((howned'.append_left self.released).trans List.perm_middle).nodup_iff.mpr ?_
    refine List.nodup_cons.mpr ⟨fun hmem ↦ ?_, ?_⟩
    · rcases List.mem_append.mp hmem with hmem | hmem
      · exact Nat.lt_irrefl _ (hlt _ hmem)
      · exact Nat.lt_irrefl _ (hready.owned_lt _ (hsub'.subset hmem))
    · exact hready.nodup.sublist ((List.Sublist.refl _).append hsub')
  · rcases List.mem_cons.mp (howned'.mem_iff.mp hother) with rfl | hmem
    · exact Nat.lt_succ_self _
    · exact Nat.lt_succ_of_lt (hready.owned_lt _ (hsub'.subset hmem))

theorem rlVar_of_ready (hmstr : self.mstr ≠ none) (hj : j < self.mstrlen) :
    rlVar self j = (self.strings[j]?.join).map MatchString.text := by
  rw [rlVar, if_neg (by omega), if_neg hmstr, Int.toNat_natCast]

theorem Ready.rlVar_storeGroup (hready : Ready self) (hi : i < self.mstrlen)
    (hj : j < self.mstrlen) :
    rlVar (Regexlib.storeGroup str i group self) j =
      if j = i then some (groupText str group) else rlVar self j := by
  have hmstr : (Regexlib.storeGroup str i group self).mstr ≠ none := hready.mstr
  rw [rlVar_of_ready hmstr hj,
    rlVar_of_ready hready.mstr hj, Regexlib.storeGroup, List.getElem?_set]
  have hlt : i < self.strings.length := hready.length_strings ▸ hi
  by_cases heq : j = i
  · rw [if_pos heq.symm, if_pos hlt, if_pos heq]
    rfl
  · rw [if_neg (fun h ↦ heq h.symm), if_neg heq]

/-- The loop keeps all but the strings, and they show the groups that take part. -/
structure Shows (str : List Char) (groups : ℕ → Option (ℕ × ℕ)) (n i : ℕ) (lib lib' : RegexlibT) :
    Prop where
  ready : Ready lib'
  released : lib'.released = lib.released
  next_le : lib.next ≤ lib'.next
  mstrlen : lib'.mstrlen = lib.mstrlen
  rlVar_eq : ∀ j < lib.mstrlen, rlVar lib' j =
    if i ≤ j ∧ j < i + n then ((groups j).map (groupText str)).or (rlVar lib j) else rlVar lib j

theorem Ready.execGroups (hready : Ready self) (hlt : ∀ id ∈ self.released, id < self.next)
    (hle : i + n ≤ self.mstrlen) : Shows str groups n i self (execGroups str groups n i self) := by
  induction n generalizing i self with
  | zero =>
    refine ⟨hready, rfl, Nat.le_refl _, rfl, fun j _ ↦ (if_neg ?_).symm⟩
    omega
  | succ n ih =>
    have hi : i < self.mstrlen := by omega
    rw [Regexlib.execGroups]
    cases hgroup : groups i with
    | none =>
      obtain ⟨hready', hreleased, hnext, hlen, hvar⟩ := ih (i := i + 1) hready hlt (by omega)
      refine ⟨hready', hreleased, hnext, hlen, fun j hj ↦ ?_⟩
      rw [hvar j hj]
      by_cases heq : j = i
      · rw [if_neg (by omega), if_pos (by omega), heq, hgroup]
        rfl
      · by_cases hin : i + 1 ≤ j ∧ j < i + 1 + n
        · rw [if_pos hin, if_pos (by omega)]
        · rw [if_neg hin, if_neg (by omega)]
    | some group =>
      have hstored : Ready (Regexlib.storeGroup str i group self) := hready.storeGroup hi hlt
      have hle' : i + 1 + n ≤ (Regexlib.storeGroup str i group self).mstrlen := by
        rwa [← Nat.add_assoc, Nat.add_right_comm] at hle
      obtain ⟨hready', hreleased, hnext, hlen, hvar⟩ :=
        ih hstored (fun id hid ↦ Nat.lt_succ_of_lt (hlt id hid)) hle'
      refine ⟨hready', hreleased, Nat.le_of_succ_le hnext, hlen, fun j hj ↦ ?_⟩
      rw [hvar j hj, hready.rlVar_storeGroup hi hj]
      by_cases heq : j = i
      · rw [if_neg (by omega), if_pos heq, if_pos (by omega), heq, hgroup]
        rfl
      · by_cases hin : i + 1 ≤ j ∧ j < i + 1 + n
        · rw [if_pos hin, if_neg heq, if_pos (by omega)]
        · rw [if_neg hin, if_neg heq, if_neg (by omega)]

/-- Without a match, or without a pattern, nothing changes. -/
theorem rlExec_cases (posix : Posix) (self : RegexlibT) (str : List Char) :
    rlExec posix self str = (0, self) ∧
        (self.havePreg = true → posix.regexec self.preg str = none) ∨
      ∃ groups, self.havePreg = true ∧ posix.regexec self.preg str = some groups ∧
        rlExec posix self str =
          (((self.nsub + 1 : ℕ) : ℤ), execGroups str groups (self.nsub + 1) 0 self) := by
  cases hpreg : self.havePreg with
  | false =>
    rw [rlExec, hpreg]
    exact .inl ⟨rfl, fun h ↦ absurd h Bool.false_ne_true⟩
  | true =>
    cases hexec : posix.regexec self.preg str with
    | none =>
      rw [rlExec, hpreg, hexec]
      exact .inl ⟨rfl, fun _ ↦ rfl⟩
    | some groups =>
      refine .inr ⟨groups, rfl, rfl, ?_⟩
      rw [rlExec, hpreg, hexec]
      rfl

theorem Sound.ready (hsound : Sound self) (hpreg : self.havePreg = true) : Ready self :=
  hsound.shape.resolve_right fun hidle ↦ by
    rw [hidle.1.havePreg] at hpreg
    exact Bool.false_ne_true hpreg

/-- A match in a sound object. -/
theorem Sound.shows (hsound : Sound self) (hpreg : self.havePreg = true) (str : List Char)
    (groups : ℕ → Option (ℕ × ℕ)) :
    Shows str groups (self.nsub + 1) 0 self (execGroups str groups (self.nsub + 1) 0 self) := by
  have hready := hsound.ready hpreg
  refine hready.execGroups hsound.released_lt ?_
  exact Nat.le_of_eq ((Nat.zero_add _).trans hready.mstrlen.symm)

theorem Sound.exec (hsound : Sound self) (str : List Char) : Sound (rlExec posix self str).2 := by
  rcases rlExec_cases posix self str with ⟨heq, -⟩ | ⟨groups, hpreg, -, heq⟩
  · rwa [heq]
  · have hshows := hsound.shows hpreg str groups
    rw [heq]
    refine ⟨hshows.released ▸ hsound.released_nodup, fun id hid ↦ ?_, .inl hshows.ready⟩
    rw [hshows.released] at hid
    exact Nat.lt_of_lt_of_le (hsound.released_lt id hid) hshows.next_le

theorem Sound.exec_lawful_iff (hsound : Sound self) (str : List Char) :
    Lawful posix self (.exec str) ↔ Harmless posix self (.exec str) := by
  rw [Lawful, and_iff_left (hsound.exec str).released_nodup, Harmless]
  rcases rlExec_cases posix self str with ⟨heq, hnone⟩ | ⟨groups, hpreg, hexec, heq⟩
  · rw [heq]
    refine iff_of_true (fun groups hpos ↦ absurd hpos (Int.lt_irrefl 0)) fun groups hpreg hsome ↦ ?_
    rw [hnone hpreg] at hsome
    cases hsome
  · have hlen := (hsound.ready hpreg).mstrlen
    have hshows := hsound.shows hpreg str groups
    have hvar (j : ℕ) (hj : j < self.mstrlen) :
        rlVar (execGroups str groups (self.nsub + 1) 0 self) j =
          ((groups j).map (groupText str)).or (rlVar self j) := by
      rw [hshows.rlVar_eq j hj, if_pos (by omega)]
    rw [heq]
    constructor
    · intro hlaw groups' _ hexec' j hj hnone
      cases Option.some.inj (hexec.symm.trans hexec')
      have hshown := hlaw groups (by omega) hexec j (by omega)
      rwa [hvar j hj, hnone] at hshown
    · intro hharmless groups' _ hexec' j hj
      cases Option.some.inj (hexec.symm.trans hexec')
      have hj' : j < self.mstrlen := by omega
      rw [hvar j hj']
      cases hgroup : groups j with
      | none => exact hharmless groups hpreg hexec j hj' hgroup
      | some group => rfl

/-! ### Runs -/

theorem Sound.lawful_iff (hsound : Sound self) (call : Call) :
    Lawful posix self call ↔ Harmless posix self call := by
  cases call with
  | regex str memory =>
    refine ⟨fun hlaw ↦ ?_, fun hharmless ↦ (hsound.regex hharmless).released_nodup⟩
    by_contra hnot
    exact hsound.regex_twice hnot hlaw
  | exec str => exact hsound.exec_lawful_iff str
  | cleanup =>
    refine ⟨fun hlaw ↦ ?_, fun hharmless ↦ (hsound.cleanup hharmless).released_nodup⟩
    by_contra hnot
    exact hsound.cleanup_twice hnot hlaw

/-- For every matcher and every sequence of calls: each call shows the groups of its match and
releases no block twice if and only if nothing is cleaned up twice, and no group that takes no part
in a match has a text. -/
theorem lastMatch_iff (posix : Posix) (calls : List Call) :
    Meets (step posix) (Lawful posix) newRegexLib calls ↔
      Meets (step posix) (Harmless posix) newRegexLib calls := by
  refine meets_iff_of_invariant (fun self call (hsound : Sound self) ↦ hsound.lawful_iff call) ?_
    sound_newRegexLib calls
  intro self call self' hsound hharmless hstep
  cases call with
  | regex str memory => exact Option.some.inj hstep ▸ hsound.regex hharmless
  | exec str => exact Option.some.inj hstep ▸ hsound.exec str
  | cleanup => exact Option.some.inj hstep ▸ hsound.cleanup hharmless

/-- The pattern `(a)|(b)`. -/
def alternatives : Posix where
  regcomp _ := some 2
  regexec _ str :=
    if str = ['a'] then some fun i ↦ if i ≤ 1 then some (0, 1) else none
    else if str = ['b'] then some fun i ↦ if i = 1 then none else some (0, 1)
    else none

/-- Two cleanings up, and a match with another group than the one before it. -/
theorem not_lastMatch_alternatives :
    ¬Meets (step alternatives) (Lawful alternatives) newRegexLib
        [.regex ['(', 'a', ')', '|', '(', 'b', ')'] .enough, .cleanup, .cleanup] ∧
      ¬Meets (step alternatives) (Lawful alternatives) newRegexLib
        [.regex ['(', 'a', ')', '|', '(', 'b', ')'] .enough, .exec ['a'], .exec ['b']] := by
  constructor
  · rintro ⟨-, -, hlaw, -⟩
    exact absurd hlaw (by unfold Lawful; decide)
  · rintro ⟨-, -, ⟨hlaw, -⟩, -⟩
    have hshown := hlaw _ (by decide) rfl 1 (by decide)
    exact absurd hshown (by decide)

end Katmai.Regexlib
