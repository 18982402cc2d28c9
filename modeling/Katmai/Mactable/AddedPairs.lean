import Katmai.Mactable.MacTable

/-!
# The pairs of a table

`pairs` are the addresses of the slots in use, in the order of the slots. A pair that is not there
is put into the first free slot (`mctblAdd_of_free`), and nothing else is ever added
(`mctblAdd_cases`), so the pairs of a `Reached` table are pairwise different, with addresses of six
bytes (`Reached.wellFormed`).
-/

set_option autoImplicit false
set_option relaxedAutoImplicit false

namespace Katmai.Mactable

variable {inetAton : List Char → Option (BitVec 32)} {self : MacTable}
  {a b ipmac : List IpmacTable} {old : IpmacTable} {inp : BitVec 32} {mac : List (BitVec 8)}
  {f : Option ℕ}

/-- The addresses of the slots in use. -/
def pairs (ipmac : List IpmacTable) : List (BitVec 32 × List (BitVec 8)) :=
  (ipmac.filter (·.inuse)).map fun e ↦ (e.ip, e.mac)

/-- What `mctbl_add` writes into a slot. -/
def freshEntry (inp : BitVec 32) (mac : List (BitVec 8)) : IpmacTable where
  ip := inp
  mac := mac
  inuse := true
  verified := false
  idx := -1

@[simp]
theorem pairs_nil : pairs [] = [] :=
  rfl

@[simp]
theorem pairs_append (a b : List IpmacTable) : pairs (a ++ b) = pairs a ++ pairs b := by
  simp [pairs]

theorem pairs_cons_free (hold : old.inuse = false) : pairs (old :: ipmac) = pairs ipmac := by
  simp [pairs, hold]

theorem pairs_cons_inuse (hold : old.inuse = true) :
    pairs (old :: ipmac) = (old.ip, old.mac) :: pairs ipmac := by
  simp [pairs, hold]

theorem pairs_eq_nil (hfree : ∀ e ∈ ipmac, e.inuse = false) : pairs ipmac = [] := by
  have hnone : ipmac.filter (·.inuse) = [] :=
    List.filter_eq_nil_iff.mpr fun e he ↦ by simp [hfree e he]
  rw [pairs, hnone, List.map_nil]

/-! ### The loop of `mctbl_add` -/

/-- A slot that the loop passes. -/
theorem addScan_cons (hnot : (inp, mac) ∉ pairs (old :: ipmac)) (i : ℕ) :
    addScan inp mac (old :: ipmac) i f =
      addScan inp mac ipmac (i + 1) (if old.inuse then f else f.or (some i)) := by
  cases hold : old.inuse with
  | false =>
    rw [addScan, hold]
    cases f <;> rfl
  | true =>
    rw [pairs_cons_inuse hold, List.mem_cons, not_or] at hnot
    have hdiff : ¬(old.ip = inp ∧ old.mac = mac) := fun h ↦ hnot.1 (by rw [h.1, h.2])
    rw [addScan, hold, if_neg hdiff]
    rfl

theorem not_mem_pairs_tail (hnot : (inp, mac) ∉ pairs (old :: ipmac)) :
    (inp, mac) ∉ pairs ipmac := by
  refine fun hmem ↦ hnot ?_
  rw [← List.singleton_append, pairs_append]
  exact List.mem_append_right _ hmem

/-- The first free slot stays the one that is found. -/
theorem addScan_some (hnot : (inp, mac) ∉ pairs ipmac) (i k : ℕ) :
    addScan inp mac ipmac i (some k) = (false, some k) := by
  induction ipmac generalizing i with
  | nil => rfl
  | cons e ipmac ih =>
    rw [addScan_cons hnot, Option.some_or, ite_self]
    exact ih (not_mem_pairs_tail hnot) _

/-- The slots in use before the first free one. -/
theorem addScan_inuse (ha : ∀ e ∈ a, e.inuse = true) (hnot : (inp, mac) ∉ pairs (a ++ b)) (i : ℕ) :
    addScan inp mac (a ++ b) i f = addScan inp mac b (i + a.length) f := by
  induction a generalizing i with
  | nil => rfl
  | cons e a ih =>
    rw [List.cons_append] at hnot ⊢
    rw [addScan_cons hnot, if_pos (ha e List.mem_cons_self),
      ih (fun e he ↦ ha e (List.mem_cons_of_mem _ he)) (not_mem_pairs_tail hnot),
      List.length_cons, Nat.add_right_comm, Nat.add_assoc]

theorem addScan_full (ha : ∀ e ∈ a, e.inuse = true) (hnot : (inp, mac) ∉ pairs a) :
    addScan inp mac a 0 none = (false, none) := by
  have hscan := addScan_inuse (b := []) (f := none) ha (by rwa [List.append_nil]) 0
  rwa [List.append_nil] at hscan

theorem addScan_free (ha : ∀ e ∈ a, e.inuse = true) (hold : old.inuse = false)
    (hnot : (inp, mac) ∉ pairs (a ++ old :: b)) :
    addScan inp mac (a ++ old :: b) 0 none = (false, some a.length) := by
  have hrest : (inp, mac) ∉ pairs (old :: b) := by
    rw [pairs_append, List.mem_append, not_or] at hnot
    exact hnot.2
  rw [addScan_inuse ha hnot, addScan_cons hrest, hold, Nat.zero_add]
  exact addScan_some (not_mem_pairs_tail hrest) _ _

theorem addScan_found (hmem : (inp, mac) ∈ pairs ipmac) (i : ℕ) :
    (addScan inp mac ipmac i f).1 = true := by
  induction ipmac generalizing i f with
  | nil => exact absurd hmem List.not_mem_nil
  | cons e ipmac ih =>
    cases he : e.inuse with
    | false =>
      rw [pairs_cons_free he] at hmem
      rw [addScan, he]
      exact ih hmem _
    | true =>
      rw [pairs_cons_inuse he, List.mem_cons] at hmem
      rw [addScan, he]
      by_cases hsame : e.ip = inp ∧ e.mac = mac
      · exact congrArg Prod.fst (if_pos hsame)
      · have hrest : (inp, mac) ∈ pairs ipmac :=
          hmem.resolve_left fun h ↦ hsame ⟨(congrArg Prod.fst h).symm, (congrArg Prod.snd h).symm⟩
        simp only [Bool.not_true, Bool.false_eq_true, if_false, if_neg hsame]
        exact ih hrest _

/-! ### `mctbl_add` -/

/-- The table with an entry in the slot behind `a`. -/
def withEntry (self : MacTable) (a b : List IpmacTable) (inp : BitVec 32) (mac : List (BitVec 8)) :
    MacTable :=
  { self with usecnt := self.usecnt + 1, ipmac := a ++ freshEntry inp mac :: b }

theorem pairs_withEntry (inp : BitVec 32) (mac : List (BitVec 8))
    (hself : self.ipmac = a ++ old :: b) (hold : old.inuse = false) :
    (pairs (withEntry self a b inp mac).ipmac).Perm ((inp, mac) :: pairs self.ipmac) := by
  rw [withEntry, hself, pairs_append, pairs_append, pairs_cons_free hold,
    pairs_cons_inuse (show (freshEntry inp mac).inuse = true from rfl)]
  exact List.perm_middle

/-- A new pair goes into the first free slot. -/
theorem mctblAdd_of_free {ip : List Char} (hip : inetAton ip = some inp)
    (hself : self.ipmac = a ++ old :: b) (ha : ∀ e ∈ a, e.inuse = true) (hold : old.inuse = false)
    (hnot : (inp, mac) ∉ pairs self.ipmac) :
    mctblAdd inetAton self (some ip) (some mac) = (withEntry self a b inp mac, true) := by
  have hscan : addScan inp mac self.ipmac 0 none = (false, some a.length) := by
    rw [hself] at hnot ⊢
    exact addScan_free ha hold hnot
  have hset : self.ipmac.set a.length (freshEntry inp mac) = a ++ freshEntry inp mac :: b := by
    rw [hself, List.set_append_right _ _ le_rfl, Nat.sub_self]
    rfl
  rw [mctblAdd]
  simp only [hip, hscan]
  exact congrArg (fun slots ↦ ({ self with usecnt := self.usecnt + 1, ipmac := slots }, true)) hset

/-- The first free slot, if there is one. -/
theorem inuse_or_free (ipmac : List IpmacTable) : (∀ e ∈ ipmac, e.inuse = true) ∨
    ∃ a old b, ipmac = a ++ old :: b ∧ (∀ e ∈ a, e.inuse = true) ∧ old.inuse = false := by
  induction ipmac with
  | nil => exact .inl fun e he ↦ absurd he List.not_mem_nil
  | cons e ipmac ih =>
    cases he : e.inuse with
    | false => exact .inr ⟨[], e, ipmac, rfl, fun e he ↦ absurd he List.not_mem_nil, he⟩
    | true =>
      rcases ih with hall | ⟨a, old, b, rfl, ha, hold⟩
      · exact .inl (List.forall_mem_cons.mpr ⟨he, hall⟩)
      · exact .inr ⟨e :: a, old, b, rfl, List.forall_mem_cons.mpr ⟨he, ha⟩, hold⟩

/-- All that a call can do. -/
theorem mctblAdd_cases (inetAton : List Char → Option (BitVec 32)) (self : MacTable)
    (ip : Option (List Char)) (mac : Option (List (BitVec 8))) :
    (mctblAdd inetAton self ip mac).1 = self ∨
      ∃ inp m a old b, mac = some m ∧ self.ipmac = a ++ old :: b ∧ old.inuse = false ∧
        (inp, m) ∉ pairs self.ipmac ∧
        (mctblAdd inetAton self ip mac).1 = withEntry self a b inp m := by
  cases ip with
  | none => exact .inl rfl
  | some ip =>
    cases mac with
    | none => exact .inl rfl
    | some m =>
      cases hip : inetAton ip with
      | none =>
        rw [mctblAdd]
        simp only [hip]
        exact .inl trivial
      | some inp =>
        by_cases hmem : (inp, m) ∈ pairs self.ipmac
        · refine .inl ?_
          rw [mctblAdd]
          simp only [hip]
          have hfound := addScan_found (f := none) hmem 0
          generalize addScan inp m self.ipmac 0 none = found at hfound
          obtain ⟨found, g⟩ := found
          cases hfound
          rfl
        · rcases inuse_or_free self.ipmac with hall | ⟨a, old, b, hself, ha, hold⟩
          · refine .inl ?_
            rw [mctblAdd]
            simp only [hip, addScan_full hall hmem]
          · exact .inr ⟨inp, m, a, old, b, rfl, hself, hold, hmem,
              congrArg Prod.fst (mctblAdd_of_free hip hself ha hold hmem)⟩

/-! ### Tables that are reached -/

/-- A table that `new_mac_table` makes and calls of `clear_all` and `add` change. -/
inductive Reached (inetAton : List Char → Option (BitVec 32)) : MacTable → Prop
  | new (n : ℕ) (haveChanged : Bool) : Reached inetAton (newMacTable n haveChanged)
  | clearAll {self : MacTable} (hself : Reached inetAton self) :
    Reached inetAton (mctblClearAll self)
  | add {self : MacTable} (ip : Option (List Char)) (mac : Option (List (BitVec 8)))
    (hself : Reached inetAton self) (hmac : ∀ m ∈ mac, m.length = 6) :
    Reached inetAton (mctblAdd inetAton self ip mac).1

/-- What holds of the pairs of every reached table. -/
structure WellFormed (pairs : List (BitVec 32 × List (BitVec 8))) : Prop where
  length_mac : ∀ p ∈ pairs, p.2.length = 6
  nodup : pairs.Nodup

theorem pairs_mctblClearAll (self : MacTable) : pairs (mctblClearAll self).ipmac = [] := by
  refine pairs_eq_nil fun e he ↦ ?_
  obtain ⟨old, -, rfl⟩ := List.mem_map.mp he
  rfl

theorem wellFormed_nil : WellFormed [] where
  length_mac _ hp := absurd hp List.not_mem_nil
  nodup := List.nodup_nil

theorem Reached.wellFormed (hself : Reached inetAton self) : WellFormed (pairs self.ipmac) := by
  induction hself with
  | new n haveChanged => exact pairs_mctblClearAll _ ▸ wellFormed_nil
  | clearAll _ _ => exact pairs_mctblClearAll _ ▸ wellFormed_nil
  | @add self ip mac _ hmac ih =>
    rcases mctblAdd_cases inetAton self ip mac with
      heq | ⟨inp, m, a, old, b, rfl, hslots, hold, hnot, heq⟩
    · rwa [heq]
    · rw [heq]
      have hperm := pairs_withEntry inp m hslots hold
      constructor
      · intro p hp
        rcases List.mem_cons.mp (hperm.mem_iff.mp hp) with rfl | hp
        · exact hmac m rfl
        · exact ih.length_mac p hp
      · exact hperm.nodup_iff.mpr (List.nodup_cons.mpr ⟨hnot, ih.nodup⟩)

end Katmai.Mactable
