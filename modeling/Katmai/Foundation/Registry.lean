import Mathlib.Data.Int.Notation
import Katmai.Foundation.SlotTable

/-!
# Registries

The slots of a registry hold whole entries, and an entry in use has a key. `Registers` says what a
registration has to do: a key that is present gets its slot, an absent one the lowest free slot, no
other slot changes, and the answer is -1 exactly when the key is absent and no slot is free. An
implementation takes the slot of the registration in the sense of `Katmai.Foundation.SlotTable`
(`TakesSlot`); in a table with unique keys this is the same (`TakesSlot.registers`), and it keeps
the keys unique (`TakesSlot.uniqueSlots`).

A `Registry` is such a table with its operations, some of which register a key. When the others at
most free slots (`Registry.Lawful`), every history from a table of free slots keeps the keys unique
and answers every registration as it should (`Registry.Lawful.stableSlots`).
-/

set_option autoImplicit false
set_option relaxedAutoImplicit false

namespace Katmai.Foundation

variable {Key Entry : Type*}

/-- No two slots hold the same key. -/
def UniqueSlots (n : ℕ) (slots : ℕ → Option Key) : Prop :=
  ∀ i j key, i < n → j < n → slots i = some key → slots j = some key → i = j

/-! ### One registration -/

/-- A registration of `key` with the answer `rc` that turns the entries `entry` into `entry'`. A key
that is present gets its slot, an absent one the lowest free slot, and no other slot changes. The
answer is -1 exactly when the key is absent and no slot is free, and then nothing changes. -/
structure Registers (n : ℕ) (keyOf : Entry → Option Key) (key : Key) (entry entry' : ℕ → Entry)
    (rc : ℤ) : Prop where
  present : ∀ i < n, keyOf (entry i) = some key →
    rc = i ∧ keyOf (entry' i) = some key ∧ ∀ j, j ≠ i → entry' j = entry j
  absent : (∀ i < n, keyOf (entry i) ≠ some key) → ∀ i < n, keyOf (entry i) = none →
    (∀ j < i, keyOf (entry j) ≠ none) →
    rc = i ∧ keyOf (entry' i) = some key ∧ ∀ j, j ≠ i → entry' j = entry j
  refused : rc = -1 ↔ ∀ i < n, keyOf (entry i) ≠ some key ∧ keyOf (entry i) ≠ none
  unchanged : rc = -1 → entry' = entry

/-- What an implementation of a registration does: it answers the slot of the registration, puts an
entry with the key there, and changes no other slot. -/
structure TakesSlot [DecidableEq Key] (n : ℕ) (keyOf : Entry → Option Key) (key : Key)
    (entry entry' : ℕ → Entry) (rc : ℤ) : Prop where
  answer : rc = (registSlot n (keyOf ∘ entry) key).elim (-1) fun i ↦ (i : ℤ)
  taken : ∀ i, registSlot n (keyOf ∘ entry) key = some i →
    keyOf (entry' i) = some key ∧ ∀ j, j ≠ i → entry' j = entry j
  full : registSlot n (keyOf ∘ entry) key = none → entry' = entry

variable [DecidableEq Key] {n : ℕ} {slots : ℕ → Option Key} {key : Key} {keyOf : Entry → Option Key}
  {entry entry' : ℕ → Entry} {rc : ℤ}

/-- A registration that takes a slot, or finds none. -/
theorem TakesSlot.of_cases
    (hcases : (∃ i : ℕ, registSlot n (keyOf ∘ entry) key = some i ∧ rc = i ∧
        keyOf (entry' i) = some key ∧ ∀ j, j ≠ i → entry' j = entry j) ∨
      (registSlot n (keyOf ∘ entry) key = none ∧ rc = -1 ∧ entry' = entry)) :
    TakesSlot n keyOf key entry entry' rc := by
  rcases hcases with ⟨i, hslot, hrc, hkey, hothers⟩ | ⟨hslot, hrc, hsame⟩
  · refine ⟨by rw [hslot, hrc, Option.elim_some], fun k hk ↦ ?_, fun hnone ↦ ?_⟩
    · obtain rfl : i = k := Option.some.inj (hslot.symm.trans hk)
      exact ⟨hkey, hothers⟩
    · exact absurd (hslot.symm.trans hnone) (Option.some_ne_none i)
  · refine ⟨by rw [hslot, hrc, Option.elim_none], fun k hk ↦ ?_, fun _ ↦ hsame⟩
    exact absurd (hk.symm.trans hslot) (Option.some_ne_none k)

/-- With unique keys, a key that is present gets its slot. -/
theorem registSlot_of_present (hunique : UniqueSlots n slots) {i : ℕ} (hi : i < n)
    (hkey : slots i = some key) : registSlot n slots key = some i := by
  obtain ⟨j, hj⟩ := exists_registSlot_iff.mpr ⟨i, hi, .inl hkey⟩
  cases hslot : slotOf n slots key with
  | none =>
    have habsent := List.find?_range_eq_none.mp hslot i hi
    simp [hkey] at habsent
  | some k =>
    obtain ⟨hk, hheld⟩ := slotOf_eq_some hslot
    rw [registSlot, hslot, Option.some_or, hunique i k key hi hk hkey hheld]

/-- An absent key gets the lowest free slot. -/
theorem registSlot_of_absent (habsent : ∀ i < n, slots i ≠ some key) {i : ℕ} (hi : i < n)
    (hfree : slots i = none) (hlowest : ∀ j < i, slots j ≠ none) :
    registSlot n slots key = some i :=
  registSlot_eq_next hi hlowest habsent hfree

theorem registSlot_eq_none_iff :
    registSlot n slots key = none ↔ ∀ i < n, slots i ≠ some key ∧ slots i ≠ none := by
  constructor
  · intro hslot i hi
    have hnone : ¬ ∃ j, registSlot n slots key = some j := by simp [hslot]
    rw [exists_registSlot_iff] at hnone
    exact ⟨fun h ↦ hnone ⟨i, hi, .inl h⟩, fun h ↦ hnone ⟨i, hi, .inr h⟩⟩
  · intro hfull
    by_contra hsome
    obtain ⟨i, hslot⟩ := Option.ne_none_iff_exists'.mp hsome
    obtain ⟨hi, hkey | hfree⟩ := registSlot_eq_some hslot
    · exact (hfull i hi).1 hkey
    · exact (hfull i hi).2 hfree

/-- In a table with unique keys, an implementation that takes the slot of the registration registers
the key. -/
theorem TakesSlot.registers (htakes : TakesSlot n keyOf key entry entry' rc)
    (hunique : UniqueSlots n (keyOf ∘ entry)) : Registers n keyOf key entry entry' rc := by
  have hanswer {i : ℕ} (hslot : registSlot n (keyOf ∘ entry) key = some i) :
      rc = i ∧ keyOf (entry' i) = some key ∧ ∀ j, j ≠ i → entry' j = entry j :=
    ⟨by rw [htakes.answer, hslot, Option.elim_some], htakes.taken i hslot⟩
  have hrefused : rc = -1 ↔ registSlot n (keyOf ∘ entry) key = none := by
    rw [htakes.answer]
    cases registSlot n (keyOf ∘ entry) key with
    | none => simp
    | some i =>
      simp only [Option.elim_some, reduceCtorEq]
  refine ⟨fun i hi hkey ↦ ?_, fun habsent i hi hfree hlowest ↦ ?_, ?_, ?_⟩
  · exact hanswer (registSlot_of_present hunique hi hkey)
  · exact hanswer (registSlot_of_absent habsent hi hfree hlowest)
  · exact hrefused.trans registSlot_eq_none_iff
  · exact fun h ↦ htakes.full (hrefused.mp h)

/-- A registration keeps the keys unique. -/
theorem TakesSlot.uniqueSlots (htakes : TakesSlot n keyOf key entry entry' rc)
    (hunique : UniqueSlots n (keyOf ∘ entry)) : UniqueSlots n (keyOf ∘ entry') := by
  cases hslot : registSlot n (keyOf ∘ entry) key with
  | none => rwa [htakes.full hslot]
  | some i =>
    obtain ⟨hkey, hothers⟩ := htakes.taken i hslot
    have hold {j : ℕ} (hji : j ≠ i) : (keyOf ∘ entry') j = (keyOf ∘ entry) j :=
      congrArg keyOf (hothers j hji)
    -- a slot other than the one taken does not hold the key: it would have been found
    have hother {j : ℕ} (hj : j < n) (hji : j ≠ i) : (keyOf ∘ entry') j ≠ some key := by
      rw [hold hji]
      intro hheld
      rw [registSlot_of_present hunique hj hheld] at hslot
      exact hji (Option.some.inj hslot)
    intro j k other hj hk hjkey hkkey
    by_cases hji : j = i
    · by_cases hki : k = i
      · rw [hji, hki]
      · rw [hji] at hjkey
        obtain rfl : key = other := Option.some.inj (hkey.symm.trans hjkey)
        exact absurd hkkey (hother hk hki)
    · by_cases hki : k = i
      · rw [hki] at hkkey
        obtain rfl : key = other := Option.some.inj (hkey.symm.trans hkkey)
        exact absurd hjkey (hother hj hji)
      · rw [hold hji] at hjkey
        rw [hold hki] at hkkey
        exact hunique j k other hj hk hjkey hkkey

/-- An entry keeps its key. -/
theorem TakesSlot.keyOf_eq (htakes : TakesSlot n keyOf key entry entry' rc) {j : ℕ} {other : Key}
    (hother : keyOf (entry j) = some other) : keyOf (entry' j) = some other := by
  cases hslot : registSlot n (keyOf ∘ entry) key with
  | none => rwa [htakes.full hslot]
  | some i =>
    obtain ⟨hkey, hothers⟩ := htakes.taken i hslot
    by_cases hji : j = i
    · subst hji
      rcases (registSlot_eq_some hslot).2 with hheld | hfree
      · rw [hkey, ← hother]
        exact hheld.symm
      · exact absurd (hother.symm.trans hfree) (Option.some_ne_none other)
    · rw [hothers j hji, hother]

omit [DecidableEq Key] in
/-- Freeing slots keeps the keys unique. -/
theorem UniqueSlots.of_freed {slots' : ℕ → Option Key} (hunique : UniqueSlots n slots)
    (hfreed : ∀ i, slots' i = slots i ∨ slots' i = none) : UniqueSlots n slots' := by
  intro i j key hi hj hikey hjkey
  have hsame {k : ℕ} (hk : slots' k = some key) : slots k = some key := by
    rcases hfreed k with heq | hnone
    · rwa [← heq]
    · rw [hnone] at hk
      exact absurd hk.symm (Option.some_ne_none key)
  exact hunique i j key hi hj (hsame hikey) (hsame hjkey)

/-! ### Histories of a registry -/

/-- A table with its operations. Every operation gives an integer and a new table; `registers` is
the key that an operation registers, if it registers one. -/
structure Registry (State Op Entry Key : Type*) where
  size : State → ℕ
  entry : State → ℕ → Entry
  keyOf : Entry → Option Key
  call : State → Op → ℤ × State
  registers : Op → Option Key

namespace Registry

variable {State Op : Type*} (r : Registry State Op Entry Key)

/-- What the slots of a table hold. -/
def held (s : State) : ℕ → Option Key :=
  r.keyOf ∘ r.entry s

/-- The table after a history. -/
def after (s : State) (history : List Op) : State :=
  history.foldl (fun s op ↦ (r.call s op).2) s

/-- After every history, at most one slot holds a key, and whatever operation registers a key next
registers it as it should. -/
def StableSlots (s : State) : Prop :=
  ∀ history, r.size (r.after s history) = r.size s ∧
    UniqueSlots (r.size s) (r.held (r.after s history)) ∧
    ∀ op key, r.registers op = some key →
      Registers (r.size s) r.keyOf key (r.entry (r.after s history))
        (r.entry (r.call (r.after s history) op).2) (r.call (r.after s history) op).1

/-- The operations of a table are in order: they keep its size, those that register a key take its
slot, and the others at most free slots. -/
structure Lawful [DecidableEq Key] : Prop where
  size_call : ∀ s op, r.size (r.call s op).2 = r.size s
  takes : ∀ s op key, r.registers op = some key →
    TakesSlot (r.size s) r.keyOf key (r.entry s) (r.entry (r.call s op).2) (r.call s op).1
  frees : ∀ s op, r.registers op = none →
    ∀ i, r.held (r.call s op).2 i = r.held s i ∨ r.held (r.call s op).2 i = none

variable {r}

/-- One operation keeps the keys unique. -/
theorem Lawful.uniqueSlots_call (hlawful : r.Lawful) {s : State} {op : Op}
    (hunique : UniqueSlots (r.size s) (r.held s)) :
    UniqueSlots (r.size s) (r.held (r.call s op).2) := by
  cases hop : r.registers op with
  | some key => exact (hlawful.takes s op key hop).uniqueSlots hunique
  | none => exact hunique.of_freed (hlawful.frees s op hop)

/-- A history keeps the size of the table and the keys unique. -/
theorem Lawful.after (hlawful : r.Lawful) {s : State} (hunique : UniqueSlots (r.size s) (r.held s))
    (history : List Op) : r.size (r.after s history) = r.size s ∧
      UniqueSlots (r.size s) (r.held (r.after s history)) := by
  induction history generalizing s with
  | nil => exact ⟨rfl, hunique⟩
  | cons op rest ih =>
    have hsize := hlawful.size_call s op
    have hnext : UniqueSlots (r.size s) (r.held (r.call s op).2) :=
      hlawful.uniqueSlots_call hunique
    rw [← hsize] at hnext ⊢
    exact ih hnext

/-- A table in order that starts with free slots has stable slots. -/
theorem Lawful.stableSlots (hlawful : r.Lawful) {s : State}
    (hfree : ∀ i < r.size s, r.held s i = none) : r.StableSlots s := by
  have hunique : UniqueSlots (r.size s) (r.held s) := by
    intro i j key hi _ hkey _
    rw [hfree i hi] at hkey
    exact absurd hkey.symm (Option.some_ne_none key)
  intro history
  obtain ⟨hsize, hkeys⟩ := hlawful.after hunique history
  refine ⟨hsize, hkeys, fun op key hop ↦ ?_⟩
  have htakes := hlawful.takes (r.after s history) op key hop
  rw [hsize] at htakes
  exact htakes.registers hkeys

end Registry

end Katmai.Foundation
