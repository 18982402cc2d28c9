import Katmai.SysConf.Store
import Mathlib.Data.List.Induction

/-!
# The store is a map in which the last writer wins

A call that adds a key stores a `Binding`: the value in one of the four representations, and the
others reset. `lastAdd` is the last call that added a key, ignoring case. `Bound` says that the
records of a store have pairwise different keys and hold, under every key, the binding of the last
call that added it.

All calls that add a key are one operation, `put`: a new record in front, or the record of the key
rewritten (`addCall_eq_put`). It keeps `Bound` (`bound_addCall`), and so do whole lists of calls.
The readers return what the record holds, and `first_key` followed by `next_key` walks the list from
its front to its end (`enumerate_eq`).
-/

set_option autoImplicit false
set_option relaxedAutoImplicit false

namespace Katmai.SysConf

open Foundation

/-! ### What a call stores -/

/-- The four representations of a value. -/
structure Binding where
  ivalue : ℤ
  value : Option Str
  list : Option (List ℤ)
  slist : Option (List (Option Str))
  deriving DecidableEq

/-- The key that a call adds. -/
def AddCall.key : AddCall → Str
  | .addint key _ => key
  | .addintX key _ => key
  | .addstr key _ => key
  | .addflagOn key => key
  | .addflagOff key => key
  | .addIntList key _ _ => key
  | .addStrList key _ _ => key

/-- What a call stores: the representation it brings, and the others reset. -/
def AddCall.binding : AddCall → Binding
  | .addint _ value => ⟨atoi value, none, none, none⟩
  | .addintX _ value => ⟨value, none, none, none⟩
  | .addstr _ value => ⟨-1, storedString value, none, none⟩
  | .addflagOn _ => ⟨1, none, none, none⟩
  | .addflagOff _ => ⟨0, none, none, none⟩
  | .addIntList _ list len => ⟨len, none, list, none⟩
  | .addStrList _ list len => ⟨len, none, none, list⟩

/-- The last call that added a key, in any spelling. -/
def lastAdd (calls : List AddCall) (key : Str) : Option AddCall :=
  calls.reverse.find? fun c ↦ foldCase c.key = foldCase key

/-- What a record holds. -/
def SysconfEntry.binding (entry : SysconfEntry) : Binding :=
  ⟨entry.ivalue, entry.value, entry.list, entry.slist⟩

/-- The record with a key and a binding. -/
def entryOf (key : Str) (b : Binding) : SysconfEntry :=
  ⟨key, b.ivalue, b.value, b.list, b.slist⟩

@[simp] theorem binding_entryOf (key : Str) (b : Binding) : (entryOf key b).binding = b :=
  rfl

@[simp] theorem folded_entryOf (key : Str) (b : Binding) :
    (entryOf key b).folded = foldCase key :=
  rfl

/-! ### Calls that add a key -/

/-- The record of a key is rewritten, or a new one put in front. -/
def put (conf : Sysconf) (key : Str) (b : Binding) : Sysconf :=
  match sysconfPtr conf key with
  | none => { conf with entries := entryOf key b :: conf.entries }
  | some i => { conf with entries := conf.entries.modify i fun entry ↦ entryOf entry.key b }

theorem addentryString_eq_put (conf : Sysconf) (key : Str) (value : Option Str) :
    (addentryString conf key value).2 = put conf key ⟨-1, storedString value, none, none⟩ := by
  unfold addentryString put
  cases sysconfPtr conf key <;> rfl

theorem addentryWith_eq_put (conf : Sysconf) (key : Str) {f : SysconfEntry → SysconfEntry}
    {b : Binding} (hf : ∀ key', f (entryOf key' ⟨-1, none, none, none⟩) = entryOf key' b) :
    addentryWith conf key f = put conf key b := by
  unfold addentryWith addentryString put
  cases sysconfPtr conf key with
  | none => exact congrArg (fun entry ↦ { conf with entries := entry :: conf.entries }) (hf key)
  | some i =>
    simp only [List.modify_modify_eq]
    congr 2
    funext entry
    exact hf entry.key

/-- Every call that adds a key puts its binding there. -/
theorem addCall_eq_put (conf : Sysconf) (c : AddCall) :
    addCall conf c = put conf c.key c.binding := by
  cases c with
  | addint key value => exact addentryWith_eq_put conf key fun _ ↦ rfl
  | addintX key value => exact addentryWith_eq_put conf key fun _ ↦ rfl
  | addstr key value => exact addentryString_eq_put conf key value
  | addflagOn key => exact addentryWith_eq_put conf key fun _ ↦ rfl
  | addflagOff key => exact addentryWith_eq_put conf key fun _ ↦ rfl
  | addIntList key list len => exact addentryWith_eq_put conf key fun _ ↦ rfl
  | addStrList key list len => exact addentryWith_eq_put conf key fun _ ↦ rfl

/-- The keys after a binding is put: a new key comes in front. -/
theorem folded_put (conf : Sysconf) (key : Str) (b : Binding) :
    (put conf key b).entries.map SysconfEntry.folded =
      if foldCase key ∈ conf.entries.map SysconfEntry.folded then
        conf.entries.map SysconfEntry.folded
      else foldCase key :: conf.entries.map SysconfEntry.folded := by
  unfold put
  cases hptr : sysconfPtr conf key with
  | none => simp [position_eq_none_iff.mp hptr]
  | some i =>
    have hmem : foldCase key ∈ conf.entries.map SysconfEntry.folded := by
      by_contra hnot
      simp [sysconfPtr, position_eq_none_iff.mpr hnot] at hptr
    rw [if_pos hmem]
    exact map_key_modify (f := fun entry ↦ entryOf entry.key b) (fun _ ↦ rfl) i

/-- The bindings after a binding is put: that of its key is the new one, the others stay. -/
theorem lookup_put (conf : Sysconf) (key : Str) (b : Binding) (k : Str) :
    (lookup SysconfEntry.folded k (put conf key b).entries).map SysconfEntry.binding =
      if k = foldCase key then some b
      else (lookup SysconfEntry.folded k conf.entries).map SysconfEntry.binding := by
  unfold put
  cases hptr : sysconfPtr conf key with
  | none =>
    rw [lookup_cons]
    by_cases hk : k = foldCase key
    · simp [hk]
    · simp [hk, Ne.symm hk]
  | some i =>
    have hmodify := lookup_modify (f := fun entry ↦ entryOf entry.key b) (fun _ ↦ rfl) hptr k
    by_cases hk : k = foldCase key
    · have hsome : (lookup SysconfEntry.folded (foldCase key) conf.entries).isSome := by
        rw [Option.isSome_iff_ne_none, ne_eq, lookup_eq_none_iff, ← position_eq_none_iff,
          ← sysconfPtr, hptr]
        simp
      obtain ⟨entry, hentry⟩ := Option.isSome_iff_exists.mp hsome
      rw [hmodify, if_pos hk, if_pos hk, hentry]
      rfl
    · rw [hmodify, if_neg hk, if_neg hk]

/-! ### The map -/

/-- After a list of calls: the keys of the records are pairwise different, and under every key is
the binding of the last call that added it. -/
structure Bound (conf : Sysconf) (calls : List AddCall) : Prop where
  nodup : (conf.entries.map SysconfEntry.folded).Nodup
  lookup_eq : ∀ key, (lookup SysconfEntry.folded (foldCase key) conf.entries).map
    SysconfEntry.binding = (lastAdd calls key).map AddCall.binding

theorem lastAdd_append (calls : List AddCall) (c : AddCall) (key : Str) :
    lastAdd (calls ++ [c]) key =
      if foldCase key = foldCase c.key then some c else lastAdd calls key := by
  by_cases heq : foldCase c.key = foldCase key
  · simp [lastAdd, heq]
  · simp [lastAdd, heq, Ne.symm heq]

theorem bound_addCall {conf : Sysconf} {calls : List AddCall} (hconf : Bound conf calls)
    (c : AddCall) : Bound (addCall conf c) (calls ++ [c]) := by
  rw [addCall_eq_put]
  constructor
  · rw [folded_put]
    split_ifs with hmem
    · exact hconf.nodup
    · exact List.nodup_cons.mpr ⟨hmem, hconf.nodup⟩
  · intro key
    rw [lookup_put, lastAdd_append, hconf.lookup_eq]
    by_cases heq : foldCase key = foldCase c.key <;> simp [heq]

/-- The store after a list of calls. -/
def addAll (calls : List AddCall) : Sysconf :=
  calls.foldl addCall Sysconf.empty

theorem bound_addAll (calls : List AddCall) : Bound (addAll calls) calls := by
  induction calls using List.reverseRecOn with
  | nil => exact ⟨List.nodup_nil, fun _ ↦ rfl⟩
  | append_singleton calls c ih =>
    rw [addAll, List.foldl_append, List.foldl_cons, List.foldl_nil]
    exact bound_addCall ih c

/-! ### Readers -/

/-- The record of a key is the one that `sysconf_ptr` finds. -/
theorem sysconfEntry_eq (conf : Sysconf) (key : Str) :
    sysconfEntry conf key = lookup SysconfEntry.folded (foldCase key) conf.entries := by
  unfold sysconfEntry
  cases hptr : sysconfPtr conf key with
  | none => exact (lookup_eq_none_iff.mpr (position_eq_none_iff.mp hptr)).symm
  | some i => exact getElem?_position hptr

/-- What the four readers return is what the last call that added the key has stored. -/
theorem Bound.readers {conf : Sysconf} {calls : List AddCall} (hconf : Bound conf calls)
    (key : Str) :
    match lastAdd calls key with
    | some c =>
      sysconfInt conf key = c.binding.ivalue ∧ sysconfStr conf key = c.binding.value ∧
        sysconfGetIntList conf key = (c.binding.list, c.binding.ivalue) ∧
        sysconfGetStrList conf key = (c.binding.slist, c.binding.ivalue)
    | none =>
      sysconfInt conf key = -1 ∧ sysconfStr conf key = none ∧
        sysconfGetIntList conf key = (none, 0) ∧ sysconfGetStrList conf key = (none, 0) := by
  have hlookup := hconf.lookup_eq key
  rw [← sysconfEntry_eq] at hlookup
  unfold sysconfInt sysconfStr sysconfGetIntList sysconfGetStrList
  cases hlast : lastAdd calls key with
  | none =>
    rw [hlast, Option.map_none, Option.map_eq_none_iff] at hlookup
    simp [hlookup]
  | some c =>
    rw [hlast, Option.map_some, Option.map_eq_some_iff] at hlookup
    obtain ⟨entry, hentry, hbinding⟩ := hlookup
    simp [hentry, ← hbinding, SysconfEntry.binding]

/-! ### Walking the keys -/

/-- The keys that `next_key` returns until it returns `NULL`, with a bound on the calls. -/
def nextKeys : ℕ → Sysconf → Option (List Str)
  | 0, _ => none
  | fuel + 1, conf =>
    match sysconfGetNextKey conf with
    | (none, _) => some []
    | (some key, conf) => (nextKeys fuel conf).map (key :: ·)

/-- The keys that `first_key` and then `next_key` return until one of them returns `NULL`, with a
bound on the calls of `next_key`. -/
def enumerate (fuel : ℕ) (conf : Sysconf) : Option (List Str) :=
  match sysconfGetFirstKey conf with
  | (none, _) => some []
  | (some key, conf) => (nextKeys fuel conf).map (key :: ·)

/-- From a key pointer on, `next_key` returns the keys of the records behind it. -/
theorem nextKeys_eq {fuel pointer : ℕ} (entries : List SysconfEntry) (hpos : 0 < pointer)
    (hlen : pointer ≤ entries.length) (hfuel : pointer ≤ fuel) :
    nextKeys fuel ⟨entries, some pointer⟩ =
      some ((entries.drop (entries.length - pointer + 1)).map SysconfEntry.key) := by
  induction fuel generalizing pointer with
  | zero => omega
  | succ fuel ih =>
    unfold nextKeys sysconfGetNextKey
    by_cases hlast : pointer - 1 = 0
    · have hdrop : entries.length ≤ entries.length - pointer + 1 := by omega
      simp [hlast, List.drop_eq_nil_of_le hdrop]
    · have hin : entries.length - (pointer - 1) < entries.length := by omega
      have hstart : entries.length - pointer + 1 = entries.length - (pointer - 1) := by omega
      have hrest := ih (show 0 < pointer - 1 by omega) (by omega) (by omega)
      rw [hstart, List.drop_eq_getElem_cons hin, List.map_cons]
      simp only [hlast, if_false, Sysconf.entryAt, List.getElem?_eq_getElem hin, Option.map_some,
        hrest]

/-- Walking the keys visits every record once, from the front of the list to its end. -/
theorem enumerate_eq {conf : Sysconf} {fuel : ℕ} (hfuel : conf.entries.length ≤ fuel) :
    enumerate fuel conf = some (conf.entries.map SysconfEntry.key) := by
  obtain ⟨entries, pointer⟩ := conf
  unfold enumerate sysconfGetFirstKey
  cases entries with
  | nil => rfl
  | cons first rest =>
    have hwalk := nextKeys_eq (first :: rest) (Nat.succ_pos rest.length) (Nat.le_refl _) hfuel
    simp [Sysconf.entryAt] at hwalk ⊢
    simp [hwalk]

end Katmai.SysConf
