import Katmai.SslLib.ConfigLines
import Mathlib.Data.List.Find

/-!
# Server selection

After any number of configurations were read, the list holds the entries of the last one, in their
order, and all other cells are released (`HoldsEntries`). The server for a user should be that of
the first entry whose pattern matches, and the default server where there is none (`Serves`).
Without a match the null pointer at which the walk ends is followed, so that the law holds for those
users only that an entry matches (`serves_iff`).
-/

set_option autoImplicit false
set_option relaxedAutoImplicit false

namespace Katmai.SslLib

open Foundation

variable {Preg : Type}

/-! ### The law -/

/-- The entries of a file; one that cannot be opened has none. -/
def configEntries (file : Option (List Char)) : List Entry :=
  (textLines (file.getD [])).filterMap lineEntry

/-- The lines of a file fit into the buffer, and its patterns compile. -/
structure Legible (regcomp : List Char → Option Preg) (file : Option (List Char)) : Prop where
  length_lt : ∀ line ∈ textLines (file.getD []), (withoutNewline line).length < 511
  compiles : ∀ entry ∈ configEntries file, (regcomp entry.user).isSome

/-- The pattern of an entry matches a user. -/
def matchesUser (regcomp : List Char → Option Preg) (regexec : Preg → List Char → Bool)
    (user : List Char) (entry : Entry) : Bool :=
  (regcomp entry.user).any fun preg ↦ regexec preg user

/-- The cells that are in use are the list of the entries, with their compiled patterns. -/
structure Holds (regcomp : List Char → Option Preg) (servers : ServerList Preg)
    (nodes : List (ℕ × ServerNode Preg)) (entries : List Entry) : Prop where
  path : LinkPath ServerNode.next servers.cells servers.svlist nodes none
  entries_eq : (nodes.map fun item ↦ item.2.entry) = entries
  compiled : ∀ item ∈ nodes, regcomp item.2.entry.user = some item.2.preg
  released : ∀ a ∉ nodes.map Prod.fst, servers.cells.load (some a) = none

def HoldsEntries (regcomp : List Char → Option Preg) (servers : ServerList Preg)
    (entries : List Entry) : Prop :=
  ∃ nodes, Holds regcomp servers nodes entries

/-- The server and the protocol of the entry that was found, or the default server. -/
def Selects (found : Option Entry) (result : Option (List Char × Bool)) : Prop :=
  match found with
  | some entry => result = some (entry.server, entry.useSsl)
  | none => ∃ useSsl, result = some (defaultServer, useSsl)

/-- After some configurations and a last one, the list holds the entries of the last one, and the
first of them whose pattern matches serves the user. -/
def Serves (regcomp : List Char → Option Preg) (regexec : Preg → List Char → Bool)
    (files : List (Option (List Char))) (file : Option (List Char)) (user : List Char) : Prop :=
  ∃ servers, (files ++ [file]).foldlM (readConfig regcomp) ServerList.empty = some servers ∧
    HoldsEntries regcomp servers (configEntries file) ∧
      Selects ((configEntries file).find? (matchesUser regcomp regexec user))
        (selectServer regexec servers user)

/-! ### Building the list -/

variable {regcomp : List Char → Option Preg} {regexec : Preg → List Char → Bool}
  {servers : ServerList Preg} {nodes : List (ℕ × ServerNode Preg)} {entries : List Entry}
  {entry : Entry} {file : Option (List Char)} {files : List (Option (List Char))}
  {user : List Char} {preg : Preg}

theorem holdsEntries_empty (regcomp : List Char → Option Preg) :
    HoldsEntries regcomp ServerList.empty [] :=
  ⟨[], rfl, rfl, fun _ hitem ↦ absurd hitem List.not_mem_nil, fun _ _ ↦ rfl⟩

/-- Where the next entry is put. -/
def tailPtr (nodes : List (ℕ × ServerNode Preg)) : LinkPtr :=
  nodes.getLast?.elim .svlist fun item ↦ .next item.1

/-- The first entry is put at the head of the list. -/
theorem Holds.addFirst (hholds : Holds regcomp servers [] entries)
    (hpreg : regcomp entry.user = some preg) :
    ∃ servers' nodes',
      addEntry regcomp (servers, .svlist) entry = some (servers', tailPtr nodes') ∧
        Holds regcomp servers' nodes' (entries ++ [entry]) := by
  let new : ServerNode Preg := { entry := entry, preg := preg, next := none }
  refine ⟨{ cells := servers.cells.alloc new, svlist := some servers.cells.length },
    [(servers.cells.length, new)], ?_, ⟨rfl, Cells.load_alloc_self _ _, rfl⟩, ?_, ?_, ?_⟩
  · rw [SslLib.addEntry, hpreg]
    rfl
  · rw [← hholds.entries_eq]
    rfl
  · intro item hitem
    rw [List.mem_singleton.mp hitem]
    exact hpreg
  · intro a ha
    rw [List.map_singleton, List.mem_singleton] at ha
    rw [Cells.load_alloc_ne ha, hholds.released a List.not_mem_nil]

/-- A later entry is linked behind the last one. -/
theorem Holds.addLater {first : List (ℕ × ServerNode Preg)} {t : ℕ} {last : ServerNode Preg}
    (hholds : Holds regcomp servers (first ++ [(t, last)]) entries)
    (hpreg : regcomp entry.user = some preg) :
    ∃ servers' nodes',
      addEntry regcomp (servers, tailPtr (first ++ [(t, last)])) entry =
          some (servers', tailPtr nodes') ∧
        Holds regcomp servers' nodes' (entries ++ [entry]) := by
  let new : ServerNode Preg := { entry := entry, preg := preg, next := none }
  let link (node : ServerNode Preg) : ServerNode Preg :=
    { node with next := some servers.cells.length }
  obtain ⟨cells1, hupdate, hlinked⟩ := hholds.path.allocLinked new (f := link) rfl rfl
  refine ⟨{ servers with cells := cells1 },
    first ++ [(t, link last), (servers.cells.length, new)], ?_, hlinked, ?_, ?_, ?_⟩
  · have htail : tailPtr (first ++ [(t, link last), (servers.cells.length, new)]) =
        .next servers.cells.length := by
      simp [tailPtr, new]
    have hold : tailPtr (first ++ [(t, last)]) = .next t := by
      simp [tailPtr]
    rw [SslLib.addEntry, hpreg, htail, hold]
    change ((Cells.update _ (some t) link).map _).bind _ = _
    rw [hupdate]
    rfl
  · rw [← hholds.entries_eq]
    simp [link, new]
  · intro item hitem
    simp only [List.mem_append, List.mem_cons, List.not_mem_nil, or_false] at hitem
    rcases hitem with hinit | rfl | rfl
    · exact hholds.compiled item (List.mem_append_left _ hinit)
    · exact hholds.compiled (t, last) (by simp)
    · exact hpreg
  · intro a ha
    simp only [List.map_append, List.map_cons, List.map_nil, List.mem_append, List.mem_cons,
      List.not_mem_nil, or_false, not_or] at ha
    have hne : some t ≠ some a := fun heq ↦ ha.2.1 (Option.some.inj heq).symm
    rw [Cells.load_update_ne hupdate hne, Cells.load_alloc_ne ha.2.2]
    refine hholds.released a ?_
    simp only [List.map_append, List.map_cons, List.map_nil, List.mem_append, List.mem_cons,
      List.not_mem_nil, or_false, not_or]
    exact ⟨ha.1, ha.2.1⟩

/-- A new entry becomes the last one. -/
theorem Holds.addEntry (hholds : Holds regcomp servers nodes entries)
    (hcompiles : (regcomp entry.user).isSome) :
    ∃ servers' nodes',
      addEntry regcomp (servers, tailPtr nodes) entry = some (servers', tailPtr nodes') ∧
        Holds regcomp servers' nodes' (entries ++ [entry]) := by
  obtain ⟨preg, hpreg⟩ := Option.isSome_iff_exists.mp hcompiles
  rcases List.eq_nil_or_concat' nodes with rfl | ⟨first, ⟨t, last⟩, rfl⟩
  · exact hholds.addFirst hpreg
  · exact hholds.addLater hpreg

/-- The entries of a file, one behind the other. -/
theorem Holds.addEntries {more : List Entry} (hholds : Holds regcomp servers nodes entries)
    (hcompiles : ∀ entry ∈ more, (regcomp entry.user).isSome) :
    ∃ servers' nodes',
      more.foldlM (SslLib.addEntry regcomp) (servers, tailPtr nodes) =
        some (servers', tailPtr nodes') ∧
      Holds regcomp servers' nodes' (entries ++ more) := by
  induction more generalizing servers nodes entries with
  | nil => exact ⟨servers, nodes, rfl, by rwa [List.append_nil]⟩
  | cons entry more ih =>
    obtain ⟨hfirst, hmore⟩ := List.forall_mem_cons.mp hcompiles
    obtain ⟨servers1, nodes1, hadd, hholds1⟩ := hholds.addEntry hfirst
    obtain ⟨servers', nodes', hrun, hholds'⟩ := ih hholds1 hmore
    refine ⟨servers', nodes', ?_, by rwa [List.append_cons]⟩
    rw [List.foldlM_cons, hadd]
    exact hrun

/-- Lines that are no entries are passed over. -/
theorem foldlM_configLine (lines : List (List Char)) (state : ServerList Preg × LinkPtr) :
    lines.foldlM (configLine regcomp) state =
      (lines.filterMap lineEntry).foldlM (addEntry regcomp) state := by
  induction lines generalizing state with
  | nil => rfl
  | cons line lines ih =>
    rw [List.foldlM_cons, configLine, configEntry_eq]
    cases hentry : lineEntry line with
    | none =>
      rw [List.filterMap_cons_none hentry]
      exact ih state
    | some entry =>
      rw [List.filterMap_cons_some hentry, List.foldlM_cons]
      exact bind_congr ih

/-- The lines that are read have the entries of the file. -/
theorem Legible.filterMap_eq {text : List Char} (hlegible : Legible regcomp (some text)) :
    (fgetsLines 511 text).filterMap lineEntry = configEntries (some text) :=
  filterMap_fgetsLines (by omega) rfl (fun line _ ↦ lineEntry_newline line) hlegible.length_lt

/-- Reading a configuration replaces the whole list. -/
theorem HoldsEntries.readConfig (hholds : HoldsEntries regcomp servers entries)
    (hlegible : Legible regcomp file) :
    ∃ servers', readConfig regcomp servers file = some servers' ∧
      HoldsEntries regcomp servers' (configEntries file) := by
  obtain ⟨nodes, hholds⟩ := hholds
  obtain ⟨cells', hrelease, hgone, hsame⟩ :=
    hholds.path.releaseAll (Nat.lt_succ_of_le hholds.path.length_le)
  have hempty : Holds regcomp { cells := cells', svlist := none } [] [] := by
    refine ⟨rfl, rfl, fun _ hitem ↦ absurd hitem List.not_mem_nil, fun a _ ↦ ?_⟩
    by_cases ha : a ∈ nodes.map Prod.fst
    · exact hgone a ha
    · exact (hsame a ha).trans (hholds.released a ha)
  rw [SslLib.readConfig, hrelease]
  cases file with
  | none => exact ⟨_, rfl, [], hempty⟩
  | some text =>
    have hlines : (fgetsLines 511 text).foldlM (configLine regcomp)
        ({ cells := cells', svlist := none }, .svlist) = _ := foldlM_configLine _ _
    rw [hlegible.filterMap_eq] at hlines
    obtain ⟨servers', nodes', hrun, hholds'⟩ := hempty.addEntries hlegible.compiles
    refine ⟨servers', ?_, nodes', hholds'⟩
    exact (congrArg (Option.map Prod.fst) (hlines.trans hrun)).trans rfl

/-- The list after any number of configurations. -/
theorem holdsEntries_history (hlegible : ∀ file ∈ files, Legible regcomp file)
    (hholds : HoldsEntries regcomp servers entries) :
    ∃ servers' entries', files.foldlM (SslLib.readConfig regcomp) servers = some servers' ∧
      HoldsEntries regcomp servers' entries' := by
  induction files generalizing servers entries with
  | nil => exact ⟨servers, entries, rfl, hholds⟩
  | cons file files ih =>
    obtain ⟨hfile, hfiles⟩ := List.forall_mem_cons.mp hlegible
    obtain ⟨servers1, hread, hholds1⟩ := hholds.readConfig hfile
    obtain ⟨servers', entries', hrun, hholds'⟩ := ih hfiles hholds1
    refine ⟨servers', entries', ?_, hholds'⟩
    rw [List.foldlM_cons, hread]
    exact hrun

/-! ### The selection -/

/-- The walk stops at the first entry whose pattern matches. -/
theorem Holds.find?_nodes (hholds : Holds regcomp servers nodes entries)
    (regexec : Preg → List Char → Bool) (user : List Char) :
    ((nodes.find? fun item ↦ regexec item.2.preg user).map fun item ↦ item.2.entry) =
      entries.find? (matchesUser regcomp regexec user) := by
  have hsame : ∀ item ∈ nodes,
      regexec item.2.preg user = matchesUser regcomp regexec user item.2.entry := by
    intro item hitem
    rw [matchesUser, hholds.compiled item hitem]
    rfl
  rw [← hholds.entries_eq, List.find?_map]
  exact congrArg _ (List.find?_congr hsame)

/-- The first entry that matches is selected; without one a null pointer is followed. -/
theorem HoldsEntries.selectServer (hholds : HoldsEntries regcomp servers entries)
    (regexec : Preg → List Char → Bool) (user : List Char) :
    selectServer regexec servers user =
      (entries.find? (matchesUser regcomp regexec user)).map fun entry ↦
        (entry.server, entry.useSsl) := by
  obtain ⟨nodes, hholds⟩ := hholds
  rw [← hholds.find?_nodes, SslLib.selectServer,
    seek_eq_find _ hholds.path (Nat.lt_succ_of_le hholds.path.length_le)]
  cases hfind : nodes.find? fun item ↦ regexec item.2.preg user with
  | none => rfl
  | some item =>
    have hload : servers.cells.load (some item.1) = some item.2 :=
      hholds.path.load_of_mem (List.mem_of_find?_eq_some hfind)
    simp [hload]

theorem selects_map_iff (found : Option Entry) :
    Selects found (found.map fun entry ↦ (entry.server, entry.useSsl)) ↔ found.isSome := by
  cases found with
  | none =>
    refine iff_of_false ?_ Bool.false_ne_true
    rintro ⟨useSsl, heq⟩
    cases heq
  | some entry => exact iff_of_true rfl rfl

/-- A user is served as the configuration says if and only if the pattern of an entry of the last
configuration matches. -/
theorem serves_iff (regcomp : List Char → Option Preg) (regexec : Preg → List Char → Bool)
    (files : List (Option (List Char))) (file : Option (List Char)) (user : List Char)
    (hlegible : ∀ file' ∈ files ++ [file], Legible regcomp file') :
    Serves regcomp regexec files file user ↔
      ∃ entry ∈ configEntries file, matchesUser regcomp regexec user entry := by
  obtain ⟨servers1, entries1, hbefore, hholds1⟩ := holdsEntries_history
    (fun file' hfile' ↦ hlegible file' (List.mem_append_left _ hfile'))
    (holdsEntries_empty regcomp)
  obtain ⟨servers, hread, hholds⟩ := hholds1.readConfig (hlegible file (by simp))
  have hrun : (files ++ [file]).foldlM (readConfig regcomp) ServerList.empty = some servers := by
    rw [List.foldlM_append, hbefore]
    exact (congrArg (Option.bind · pure) hread).trans rfl
  have hfound : ((configEntries file).find? (matchesUser regcomp regexec user)).isSome ↔
      ∃ entry ∈ configEntries file, matchesUser regcomp regexec user entry := by
    rw [List.find?_isSome]
  rw [← hfound, ← selects_map_iff, ← hholds.selectServer regexec user]
  constructor
  · rintro ⟨servers', hrun', -, hselects⟩
    obtain rfl : servers' = servers := Option.some.inj (hrun'.symm.trans hrun)
    exact hselects
  · exact fun hselects ↦ ⟨servers, hrun, hholds, hselects⟩

/-- A pattern without special characters matches a string that contains it. -/
def contains (preg user : List Char) : Bool :=
  decide (preg <:+: user)

theorem serves_di :
    Serves some contains [none] (some "# users\ndi pop3.cc.ncu.edu.tw:pop3\n".toList)
      "dick".toList :=
  (serves_iff some contains [none] (some "# users\ndi pop3.cc.ncu.edu.tw:pop3\n".toList)
    "dick".toList (by
      intro file hfile
      rcases List.mem_cons.mp hfile with rfl | hfile
      · exact ⟨by decide, fun _ _ ↦ rfl⟩
      · obtain rfl := List.mem_singleton.mp hfile
        exact ⟨by decide, fun _ _ ↦ rfl⟩)).mpr
    ⟨⟨"di".toList, "pop3.cc.ncu.edu.tw".toList, false⟩, by decide, by decide⟩

/-- A user that no entry matches is not sent to the default server. -/
theorem not_serves_bob :
    ¬Serves some contains [] (some "di pop3.cc.ncu.edu.tw\n".toList) "bob".toList := by
  rintro ⟨servers, -, hholds, hselects⟩
  rw [hholds.selectServer contains, selects_map_iff] at hselects
  exact absurd hselects (by decide)

end Katmai.SslLib
