import Katmai.Foundation.EventRun
import Mathlib.Data.Int.Notation
import Mathlib.Data.List.Nodup

/-!
# Deferred `free`

`af_free` is there to keep a pointer in a ring, and to free the one whose slot it takes. The
functions say what they pass to `free`, and have no result where they touch a slot outside of the
block. `Deferral` is what a call should do to a `History`. No call ever stores a pointer
(`Empty.step`), so a call keeps to it only where there is no ring to store the pointer in, and
growing the ring leaves its block (`grow_eq_none`): `deferral_iff` says this of whole runs.
-/

set_option autoImplicit false
set_option relaxedAutoImplicit false

namespace Katmai.Autofree

open Foundation

variable {Ptr : Type*}

/-! ### The ring -/

/-- The variables of the file: whether `intf` is set, the slots of the block that `mbuf` points to,
and the numbers. -/
structure RingState (Ptr : Type*) where
  intf : Bool
  mbuf : Option (List (Option Ptr))
  mbufLen : ℕ
  mbufIdx : ℕ
  referenceCount : ℤ
  deriving DecidableEq

/-- `af_free`, with what it passes to `free`. -/
def afFree (self : RingState Ptr) (ptr : Option Ptr) : Option (RingState Ptr × List Ptr) :=
  match self.mbuf with
  | none => some (self, ptr.toList)
  | some slots =>
    match ptr with
    | none => some (self, [])
    | some _ =>
      let i := self.mbufIdx
      slots[i]?.map fun old ↦
        ({ self with
            mbufIdx := (self.mbufIdx + 1) % self.mbufLen
            mbuf := some (slots.set i none) }, old.toList)

/-- The loop of `af_free_all` from slot `i` on, with `n` slots to come. -/
def freeSlots : ℕ → ℕ → List (Option Ptr) → Option (List (Option Ptr) × List Ptr)
  | 0, _, slots => some (slots, [])
  | n + 1, i, slots =>
    slots[i]?.bind fun old ↦
      (freeSlots n (i + 1) (slots.set i none)).map fun rest ↦
        (rest.1, (if old.isNone then old.toList else []) ++ rest.2)

/-- `af_free_all`; without a block the loop has no round. -/
def afFreeAll (self : RingState Ptr) : Option (RingState Ptr × List Ptr) :=
  if !self.intf then some (self, [])
  else
    match self.mbuf with
    | none => if self.mbufLen = 0 then some (self, []) else none
    | some slots =>
      (freeSlots self.mbufLen 0 slots).map fun rest ↦
        ({ self with mbuf := some rest.1 }, rest.2)

/-- The loop that clears the slots from `i` on, with `n` slots to come. -/
def clearSlots : ℕ → ℕ → List (Option Ptr) → Option (List (Option Ptr))
  | 0, _, slots => some slots
  | n + 1, i, slots =>
    if i < slots.length then clearSlots n (i + 1) (slots.set i none) else none

/-- `sizeof (struct membuf_t)` -/
def sizeofMembuf : ℕ :=
  8

/-- The whole slots of a block of some bytes that has the contents of another. What a new slot
holds does not matter, since it is cleared before it is read. -/
def reallocSlots (bytes : ℕ) (slots : List (Option Ptr)) : List (Option Ptr) :=
  slots.take (bytes / sizeofMembuf) ++
    List.replicate (bytes / sizeofMembuf - slots.length) none

/-- The length that `init_autofree_interface` asks for. -/
def ringLen (buflen : ℤ) : ℕ :=
  if buflen ≤ 10 then 10 else buflen.toNat

/-- `init_autofree_interface`; `allocated` says whether `malloc` or `realloc` finds the memory. -/
def initAutofreeInterface (self : RingState Ptr) (buflen : ℤ) (allocated : Bool) :
    Option (RingState Ptr) :=
  let len := ringLen buflen
  let initialised :=
    if !self.intf then
      if allocated then
        (clearSlots len 0 (reallocSlots (len * sizeofMembuf) [])).map fun slots ↦
          { self with intf := true, mbuf := some slots, mbufLen := len, mbufIdx := 0 }
      else some { self with intf := true, mbuf := none, mbufLen := 0, mbufIdx := 0 }
    else if self.mbufLen < len then
      if allocated then
        (clearSlots (len - self.mbufLen) self.mbufLen
          (reallocSlots len (self.mbuf.getD []))).map fun slots ↦
            { self with mbuf := some slots, mbufLen := len }
      else some self
    else some self
  initialised.map fun self ↦ { self with referenceCount := self.referenceCount + 1 }

/-! ### Histories -/

/-- A state with the pointers that were passed to `af_free`, and those that were passed to `free`,
the oldest first. -/
structure History (Ptr : Type*) where
  state : RingState Ptr
  passed : List Ptr
  freed : List Ptr
  deriving DecidableEq

inductive Call (Ptr : Type*)
  | init (buflen : ℤ) (allocated : Bool)
  | free (ptr : Ptr)
  | freeAll
  deriving DecidableEq

def step (h : History Ptr) : Call Ptr → Option (History Ptr)
  | .init buflen allocated =>
    (initAutofreeInterface h.state buflen allocated).map fun state ↦ { h with state := state }
  | .free ptr =>
    (afFree h.state (some ptr)).map fun result ↦
      { state := result.1, passed := h.passed ++ [ptr], freed := h.freed ++ result.2 }
  | .freeAll =>
    (afFreeAll h.state).map fun result ↦
      { h with state := result.1, freed := h.freed ++ result.2 }

/-- The variables before the first call. -/
def start : History Ptr where
  state := { intf := false, mbuf := none, mbufLen := 0, mbufIdx := 0, referenceCount := 0 }
  passed := []
  freed := []

/-- The pointer of a call of `af_free`. -/
def Call.pointer : Call Ptr → Option Ptr
  | .free ptr => some ptr
  | _ => none

variable [DecidableEq Ptr] {h h' : History Ptr} {call : Call Ptr} {calls : List (Call Ptr)}

/-- The pointers in the ring. -/
def held (self : RingState Ptr) : List Ptr :=
  (self.mbuf.getD []).filterMap id

/-- How many pointers were passed behind one. -/
def newerThan (passed : List Ptr) (ptr : Ptr) : ℕ :=
  passed.length - (passed.idxOf ptr + 1)

/-- What a call should do to a history. -/
structure Deferral (h : History Ptr) (call : Call Ptr) (h' : History Ptr) : Prop where
  held_perm : (held h'.state).Perm (h'.passed.filter (· ∉ h'.freed))
  length_held : (held h'.state).length ≤ h'.state.mbufLen
  freed_subset : h'.freed ⊆ h'.passed
  freed_nodup : h'.freed.Nodup
  freed_late : ∀ ptr ∈ h'.freed, ptr ∉ h.freed →
    call = .freeAll ∨ h.state.mbufLen ≤ newerThan h'.passed ptr
  freeAll_freed : call = .freeAll → h'.passed ⊆ h'.freed
  init_held : ∀ buflen allocated, call = .init buflen allocated → held h'.state = held h.state

/-- The call touches no slot outside of the block and does what it should. -/
def Lawful (h : History Ptr) (call : Call Ptr) : Prop :=
  ∃ h', step h call = some h' ∧ Deferral h call h'

/-- No pointer is passed where there is a ring, and no ring grows. -/
def Harmless (h : History Ptr) : Call Ptr → Prop
  | .init buflen allocated =>
    ¬(h.state.intf = true ∧ h.state.mbufLen < ringLen buflen ∧ allocated = true)
  | .free _ => h.state.mbuf = none
  | .freeAll => True

/-! ### The loops over a ring without pointers -/

section Loops

variable {n i m : ℕ} {slots : List (Option Ptr)}

omit [DecidableEq Ptr] in
theorem set_replicate_none : (List.replicate m (none : Option Ptr)).set i none =
    List.replicate m none :=
  List.set_replicate_self

omit [DecidableEq Ptr] in
theorem clearSlots_replicate (hle : i + n ≤ m) :
    clearSlots n i (List.replicate m (none : Option Ptr)) = some (List.replicate m none) := by
  induction n generalizing i with
  | zero => rfl
  | succ n ih =>
    have hlt : i < (List.replicate m (none : Option Ptr)).length := by
      rw [List.length_replicate]
      omega
    rw [clearSlots, if_pos hlt, set_replicate_none, ih (by omega)]

omit [DecidableEq Ptr] in
/-- The loop leaves a block that is too short. -/
theorem clearSlots_eq_none (hlt : slots.length < i + n) (hpos : 0 < n) :
    clearSlots n i slots = none := by
  induction n generalizing i slots with
  | zero => exact absurd hpos (Nat.lt_irrefl 0)
  | succ n ih =>
    rw [clearSlots]
    split_ifs with hi
    · exact ih (by rw [List.length_set]; omega) (by omega)
    · rfl

omit [DecidableEq Ptr] in
theorem freeSlots_replicate (hle : i + n ≤ m) :
    freeSlots n i (List.replicate m (none : Option Ptr)) = some (List.replicate m none, []) := by
  induction n generalizing i with
  | zero => rfl
  | succ n ih =>
    have hget : (List.replicate m (none : Option Ptr))[i]? = some none := by
      rw [List.getElem?_replicate, if_pos (by omega)]
    rw [freeSlots, hget, Option.bind_some, set_replicate_none, ih (by omega)]
    rfl

omit [DecidableEq Ptr] in
theorem reallocSlots_nil (len : ℕ) :
    reallocSlots (len * sizeofMembuf) ([] : List (Option Ptr)) = List.replicate len none := by
  simp [reallocSlots, sizeofMembuf]

omit [DecidableEq Ptr] in
theorem length_reallocSlots (bytes : ℕ) (slots : List (Option Ptr)) :
    (reallocSlots bytes slots).length = bytes / sizeofMembuf := by
  rw [reallocSlots, List.length_append, List.length_take, List.length_replicate]
  omega

theorem le_ringLen (buflen : ℤ) : 10 ≤ ringLen buflen := by
  rw [ringLen]
  split_ifs <;> omega

omit [DecidableEq Ptr] in
/-- `realloc` gets a number of bytes, and the loop goes on to that number of slots. -/
theorem grow_eq_none {self : RingState Ptr} {buflen : ℤ} (hintf : self.intf = true)
    (hlen : self.mbufLen < ringLen buflen) : initAutofreeInterface self buflen true = none := by
  have hten := le_ringLen buflen
  have hshort : (reallocSlots (ringLen buflen) (self.mbuf.getD [])).length <
      self.mbufLen + (ringLen buflen - self.mbufLen) := by
    rw [length_reallocSlots, sizeofMembuf]
    omega
  simp only [initAutofreeInterface, hintf, Bool.not_true, Bool.false_eq_true, if_false,
    if_pos hlen, if_true, clearSlots_eq_none hshort (Nat.sub_pos_of_lt hlen), Option.map_none]

end Loops

/-! ### One call -/

/-- No ring, or one without pointers, and everything that was passed is freed. -/
structure Empty (h : History Ptr) : Prop where
  slots : h.state.mbuf = none ∧ h.state.mbufLen = 0 ∨
    h.state.intf = true ∧ h.state.mbuf = some (List.replicate h.state.mbufLen none)
  freed_eq : h.freed = h.passed
  passed_nodup : h.passed.Nodup

/-- The call passes a new pointer, if it passes one. -/
def Fresh (h : History Ptr) (call : Call Ptr) : Prop :=
  ∀ ptr ∈ call.pointer, ptr ∉ h.passed

omit [DecidableEq Ptr] in
theorem Empty.held_eq_nil (hempty : Empty h) : held h.state = [] := by
  rw [held]
  rcases hempty.slots with ⟨hmbuf, -⟩ | ⟨-, hmbuf⟩ <;> rw [hmbuf]
  · rfl
  · simp

/-- A call behind which nothing is held keeps to its purpose. -/
theorem Empty.deferral (hempty : Empty h) (hempty' : Empty h')
    (hfreed : ∀ ptr ∈ h'.freed, ptr ∉ h.freed → h.state.mbufLen = 0) : Deferral h call h' where
  held_perm := by
    have hnone : h'.passed.filter (· ∉ h'.freed) = [] := by
      rw [List.filter_eq_nil_iff, hempty'.freed_eq]
      intro ptr hptr
      simpa using hptr
    rw [hempty'.held_eq_nil, hnone]
  length_held := by
    rw [hempty'.held_eq_nil]
    exact Nat.zero_le _
  freed_subset := hempty'.freed_eq ▸ List.Subset.refl _
  freed_nodup := hempty'.freed_eq ▸ hempty'.passed_nodup
  freed_late ptr hptr hnew := .inr (by rw [hfreed ptr hptr hnew]; exact Nat.zero_le _)
  freeAll_freed _ := hempty'.freed_eq ▸ List.Subset.refl _
  init_held _ _ _ := hempty'.held_eq_nil.trans hempty.held_eq_nil.symm

section Steps

variable {buflen : ℤ} {allocated : Bool} {ptr : Ptr}

omit [DecidableEq Ptr] in
/-- What a call of `init_autofree_interface` that grows no ring does to the variables. -/
theorem Empty.init (hempty : Empty h) (hharmless : Harmless h (.init buflen allocated)) :
    ∃ state, initAutofreeInterface h.state buflen allocated = some state ∧
      (state.mbuf = none ∧ state.mbufLen = 0 ∨
        state.intf = true ∧ state.mbuf = some (List.replicate state.mbufLen none)) := by
  cases hintf : h.state.intf with
  | false =>
    cases allocated with
    | false =>
      refine ⟨{ h.state with
        intf := true, mbuf := none, mbufLen := 0, mbufIdx := 0
        referenceCount := h.state.referenceCount + 1 }, ?_, .inl ⟨rfl, rfl⟩⟩
      simp only [initAutofreeInterface, hintf, Bool.not_false, if_true, Bool.false_eq_true,
        if_false, Option.map_some]
    | true =>
      refine ⟨{ h.state with
        intf := true, mbuf := some (List.replicate (ringLen buflen) none)
        mbufLen := ringLen buflen, mbufIdx := 0
        referenceCount := h.state.referenceCount + 1 }, ?_, .inr ⟨rfl, rfl⟩⟩
      simp only [initAutofreeInterface, hintf, Bool.not_false, if_true, reallocSlots_nil,
        clearSlots_replicate (Nat.le_of_eq (Nat.zero_add _)), Option.map_some]
  | true =>
    refine ⟨{ h.state with referenceCount := h.state.referenceCount + 1 }, ?_, hempty.slots⟩
    by_cases hlen : h.state.mbufLen < ringLen buflen
    · have hfail : allocated = false :=
        Bool.eq_false_iff.mpr fun hallocated ↦ hharmless ⟨hintf, hlen, hallocated⟩
      simp only [initAutofreeInterface, hintf, Bool.not_true, Bool.false_eq_true, if_false,
        if_pos hlen, hfail, Option.map_some]
    · simp only [initAutofreeInterface, hintf, Bool.not_true, Bool.false_eq_true, if_false,
        if_neg hlen, Option.map_some]

omit [DecidableEq Ptr] in
theorem Empty.freeAll (hempty : Empty h) : afFreeAll h.state = some (h.state, []) := by
  rcases hempty.slots with ⟨hmbuf, hlen⟩ | ⟨hintf, hmbuf⟩
  · rw [afFreeAll, hmbuf, if_pos hlen]
    split_ifs <;> rfl
  · rw [afFreeAll, hintf, hmbuf]
    simp only [Bool.not_true, Bool.false_eq_true, if_false,
      freeSlots_replicate (Nat.le_of_eq (Nat.zero_add _)), Option.map_some]
    rw [← hmbuf]
    exact congrArg (fun intf ↦ some ({ h.state with intf := intf }, [])) hintf.symm

omit [DecidableEq Ptr] in
/-- A call that passes no pointer to a ring and grows none. -/
theorem Empty.step (hempty : Empty h) (hfresh : Fresh h call) (hharmless : Harmless h call) :
    ∃ h', step h call = some h' ∧ Empty h' ∧
      ∀ ptr ∈ h'.freed, ptr ∉ h.freed → h.state.mbufLen = 0 := by
  cases call with
  | init buflen allocated =>
    obtain ⟨state, hinit, hslots⟩ := hempty.init hharmless
    refine ⟨{ h with state := state }, ?_, ⟨hslots, hempty.freed_eq, hempty.passed_nodup⟩,
      fun ptr hptr hnew ↦ absurd hptr hnew⟩
    rw [Autofree.step, hinit, Option.map_some]
  | free ptr =>
    have hmbuf : h.state.mbuf = none := hharmless
    have hlen : h.state.mbufLen = 0 := by
      rcases hempty.slots with ⟨-, hlen⟩ | ⟨-, hsome⟩
      · exact hlen
      · rw [hmbuf] at hsome
        cases hsome
    refine ⟨{ h with passed := h.passed ++ [ptr], freed := h.freed ++ [ptr] }, ?_,
      ⟨hempty.slots, congrArg (· ++ [ptr]) hempty.freed_eq, ?_⟩, fun _ _ _ ↦ hlen⟩
    · rw [Autofree.step, afFree, hmbuf]
      rfl
    · rw [List.nodup_append_comm]
      exact List.nodup_cons.mpr ⟨hfresh ptr rfl, hempty.passed_nodup⟩
  | freeAll =>
    refine ⟨h, ?_, hempty, fun ptr hptr hnew ↦ absurd hptr hnew⟩
    rw [Autofree.step, hempty.freeAll, Option.map_some, List.append_nil]

/-- A pointer that is passed where there is a ring is neither kept nor freed. -/
theorem Empty.not_lawful (hempty : Empty h) (hfresh : Fresh h call) (hnot : ¬Harmless h call) :
    ¬Lawful h call := by
  rintro ⟨h', hstep, hlaw⟩
  cases call with
  | init buflen allocated =>
    obtain ⟨hintf, hlen, rfl⟩ := not_not.mp hnot
    rw [Autofree.step, grow_eq_none hintf hlen] at hstep
    cases hstep
  | free ptr =>
    rcases hempty.slots with ⟨hmbuf, -⟩ | ⟨-, hmbuf⟩
    · exact hnot hmbuf
    rw [Autofree.step, afFree, hmbuf] at hstep
    by_cases hidx : h.state.mbufIdx < h.state.mbufLen
    · simp only [List.getElem?_replicate, if_pos hidx, set_replicate_none, Option.map_some,
        Option.toList_none, List.append_nil, Option.some.injEq] at hstep
      subst hstep
      have hheld : ptr ∈ (h.passed ++ [ptr]).filter (· ∉ h.freed) := by
        rw [List.mem_filter, hempty.freed_eq]
        exact ⟨List.mem_append_right _ List.mem_cons_self, by simpa using hfresh ptr rfl⟩
      have hring := hlaw.held_perm.mem_iff.mpr hheld
      simp [held] at hring
    · simp only [List.getElem?_replicate, if_neg hidx, Option.map_none] at hstep
      cases hstep
  | freeAll => exact hnot trivial

theorem Empty.lawful_iff (hempty : Empty h) (hfresh : Fresh h call) :
    Lawful h call ↔ Harmless h call := by
  refine ⟨fun hlaw ↦ ?_, fun hharmless ↦ ?_⟩
  · by_contra hnot
    exact hempty.not_lawful hfresh hnot hlaw
  · obtain ⟨h', hstep, hempty', hfreed⟩ := hempty.step hfresh hharmless
    exact ⟨h', hstep, hempty.deferral hempty' hfreed⟩

end Steps

/-! ### Runs -/

omit [DecidableEq Ptr] in
theorem empty_start : Empty (start : History Ptr) where
  slots := .inl ⟨rfl, rfl⟩
  freed_eq := rfl
  passed_nodup := List.nodup_nil

omit [DecidableEq Ptr] in
theorem passed_of_step (hstep : step h call = some h') :
    h'.passed = h.passed ++ call.pointer.toList := by
  cases call with
  | init buflen allocated =>
    obtain ⟨state, -, rfl⟩ := Option.map_eq_some_iff.mp hstep
    exact (List.append_nil _).symm
  | free ptr =>
    obtain ⟨result, -, rfl⟩ := Option.map_eq_some_iff.mp hstep
    rfl
  | freeAll =>
    obtain ⟨result, -, rfl⟩ := Option.map_eq_some_iff.mp hstep
    exact (List.append_nil _).symm

omit [DecidableEq Ptr] in
/-- Where the pointers are pairwise different, each call passes a new one. -/
theorem meets_fresh (hnodup : (h.passed ++ calls.filterMap Call.pointer).Nodup) :
    Meets step Fresh h calls := by
  induction calls generalizing h with
  | nil => exact trivial
  | cons call calls ih =>
    have hsplit : (call :: calls).filterMap Call.pointer =
        call.pointer.toList ++ calls.filterMap Call.pointer := by
      cases hptr : call.pointer <;> simp [hptr]
    rw [hsplit] at hnodup
    refine ⟨fun ptr hptr hmem ↦ ?_, ?_⟩
    · refine (List.nodup_append.mp hnodup).2.2 ptr hmem ptr ?_ rfl
      exact List.mem_append_left _ (Option.mem_toList.mpr hptr)
    · cases hstep : step h call with
      | none => exact trivial
      | some h' =>
        refine ih ?_
        rwa [passed_of_step hstep, List.append_assoc]

/-- For every sequence of calls with pairwise different pointers: every call keeps to its purpose
if and only if none passes a pointer where there is a ring and none makes a ring grow. -/
theorem deferral_iff (calls : List (Call Ptr)) (hnodup : (calls.filterMap Call.pointer).Nodup) :
    Meets step Lawful start calls ↔ Meets step Harmless start calls := by
  have hfresh : Meets step Fresh start calls := meets_fresh (h := start) hnodup
  have hboth : Meets step (fun h call ↦ Fresh h call ∧ Lawful h call) start calls ↔
      Meets step (fun h call ↦ Fresh h call ∧ Harmless h call) start calls := by
    refine meets_iff_of_invariant
      (fun h call (hempty : Empty h) ↦ and_congr_right hempty.lawful_iff) ?_ empty_start calls
    intro h call h' hempty hcall hstep
    obtain ⟨h'', hstep', hempty', -⟩ := hempty.step hcall.1 hcall.2
    exact Option.some.inj (hstep'.symm.trans hstep) ▸ hempty'
  rw [meets_and_iff, meets_and_iff] at hboth
  exact ⟨fun hlaw ↦ (hboth.mp ⟨hfresh, hlaw⟩).2, fun hgood ↦ (hboth.mpr ⟨hfresh, hgood⟩).2⟩

/-- A pointer is freed at once where `malloc` failed, and calls of `af_free_all` follow. -/
theorem deferral_without_ring :
    Meets step Lawful start [.init 5 false, .free 1, .freeAll, .free 2, .init 20 false] :=
  (deferral_iff [.init 5 false, .free 1, .freeAll, .free 2, .init 20 false] (by decide)).mpr
    ⟨fun h ↦ absurd h.1 (by decide), rfl, trivial, rfl, fun h ↦ absurd h.2.2 (by decide), trivial⟩

/-- One pointer, and a call of `af_free_all`. -/
theorem not_deferral_one :
    ¬Meets step Lawful start [.init 10 true, .free 1, .freeAll] := by
  rintro ⟨-, ⟨h', hstep, hlaw⟩, -⟩
  cases Option.some.inj hstep
  exact absurd hlaw.held_perm.length_eq (by decide)

end Katmai.Autofree
